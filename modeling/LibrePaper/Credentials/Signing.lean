import LibrePaper.Library.Fields
import LibrePaper.Library.Utf8
import LibrePaper.Sharing.Roles

/-!
# Signed credentials

Who a caller is is carried in credentials that the deployment signs: session cookies, device
tokens, grants for a local agent and visitor cookies. Each purpose is signed apart.
-/
namespace LibrePaper.Credentials
open Library Sharing

/-- Who a caller is, once verified. -/
structure Identity where
  provider : List Char
  id : List Char
  handle : List Char
  name : List Char
  picture : List Char
  sessionGeneration : List Char
deriving DecidableEq

def Identity.anonymous : Identity := ⟨[], [], [], [], [], []⟩

/-- A 64-bit time in seconds. -/
def Seconds := { n : ℤ // -2 ^ 63 ≤ n ∧ n < 2 ^ 63 }

/-- A credential delegated by a signed-in browser to its local companion. -/
structure AgentGrant where
  identity : Identity
  slug : List Char
  linkHash : List Char
  role : UInt8
  expiresAt : Seconds

/-- What the deployment signs with, and how bytes are written as text. No two messages share a
code under one key, and what is written is read back. -/
structure Crypto where
  hmac : Bytes → Bytes → Bytes
  hmac_injective : ∀ key, Function.Injective (hmac key)
  encode : Bytes → List Char
  decode : List Char → Option Bytes
  decode_encode : ∀ bytes, decode (encode bytes) = some bytes
  encode_plain : ∀ bytes, '.' ∉ encode bytes
  toJson : AgentGrant → Bytes
  fromJson : Bytes → Option AgentGrant
  fromJson_toJson : ∀ grant, fromJson (toJson grant) = some grant
  isUuid : List Char → Bool

def isLower (b : UInt8) : Bool := within 0x61 0x7a b
def isUpper (b : UInt8) : Bool := within 0x41 0x5a b
def isDigit (b : UInt8) : Bool := within 0x30 0x39 b

/-- A lowercase letter, then up to 23 lowercase letters, digits or hyphens. -/
def validOidcSlug (slug : List Char) : Bool :=
  match utf8 slug with
  | [] => false
  | b :: bytes => decide ((b :: bytes).length ≤ 24) && isLower b &&
    bytes.all fun b => isLower b || isDigit b || b = 0x2d

/-- One of the four named providers, or `oidc-` and a valid slug. -/
def validProviderId (id : List Char) : Bool :=
  id = "github".toList || id = "google".toList || id = "entra".toList || id = "orcid".toList ||
    (stripPrefix "oidc-".toList id).any validOidcSlug

/-- A picture address, or nothing if it is not one a page should be handed. -/
def acceptablePicture (picture : List Char) : List Char :=
  let picture := Role.trimmed picture
  if "https://".toList <+: picture ∧ (utf8 picture).length ≤ 512 ∧
      (utf8 picture).all fun b => within 0x21 0x7e b && b ≠ 0x7c && b ≠ 0x22 && b ≠ 0x3c && b ≠ 0x3e
  then picture else []

section Crypto
variable (c : Crypto) (key : Bytes)

/-- What is signed for a purpose: the purpose, a zero byte and the payload. -/
def message (purpose payload : List Char) : Bytes := utf8 purpose ++ 0 :: utf8 payload

def sign (purpose payload : List Char) : List Char :=
  c.encode (c.hmac key (message purpose payload))

def verifies (purpose payload signature : List Char) : Bool :=
  match c.decode signature with
  | some given => c.hmac key (message purpose payload) = given
  | none => false

/-- The fields of an identity and its expiry, with bars between them. -/
def envelope (id : Identity) (expiry : Seconds) : List Char :=
  joined '|' [id.provider, id.handle, id.id, id.sessionGeneration, id.picture, id.name]
    (showInt expiry.val)

def signIdentity (purpose : List Char) (id : Identity) (expiry : Seconds) : List Char :=
  let payload := c.encode (utf8 (envelope id expiry))
  "v2.".toList ++ payload ++ '.' :: sign c key (purpose ++ "-v2".toList) payload

def signSession : Identity → Seconds → List Char := signIdentity c key "session".toList

def deviceTokenPrefix : List Char := "lp_".toList

def signDevice (id : Identity) (expiry : Seconds) : List Char :=
  deviceTokenPrefix ++ signIdentity c key "device".toList id expiry

/-- `str::parse::<i64>` -/
def parseSeconds (text : List Char) : Option Seconds :=
  (readInt text).bind fun n => if h : -2 ^ 63 ≤ n ∧ n < 2 ^ 63 then some ⟨n, h⟩ else none

/-- `String::from_utf8` -/
def fromUtf8 (bytes : Bytes) : Option (List Char) :=
  bytes.toByteArray.utf8Decode?.map Array.toList

/-- Whether an id is the subject of a provider, or one of the catalogue. -/
def validId (provider id : List Char) : Bool :=
  (stripPrefix (provider ++ [':']) id).any (fun subject => !subject.isEmpty) || c.isUuid id

/-- The identity and the expiry of an envelope that is signed. -/
def readEnvelope (now : ℤ) (text : List Char) : Option (Identity × Seconds) := do
  let (front, expiry) ← rsplitOnce '|' text
  let expiry ← parseSeconds expiry
  if now ≥ expiry.val then none
  else match splitn '|' 6 front with
    | [provider, handle, id, generation, picture, name] =>
      if !validProviderId provider || handle.isEmpty || !validId c provider id then none
      else some (⟨provider, id, handle, name, acceptablePicture picture, generation⟩, expiry)
    | _ => none

def readCredential (now : ℤ) (purpose credential : List Char) : Option (Identity × Seconds) := do
  let versioned ← stripPrefix "v2.".toList credential
  let (payload, signature) ← splitOnce '.' versioned
  if !verifies c key (purpose ++ "-v2".toList) payload signature then none
  else do
    let raw ← c.decode payload
    let text ← fromUtf8 raw
    readEnvelope c now text

/-- When a session cookie stops being valid, for one that is valid now. -/
def sessionDeadline (now : ℤ) (cookie : List Char) : Option Seconds :=
  (readCredential c key now "session".toList cookie).map Prod.snd

def deviceDeadline (now : ℤ) (token : List Char) : Option Seconds :=
  ((stripPrefix deviceTokenPrefix token).bind
    (readCredential c key now "device".toList)).map Prod.snd

def agentGrantMaxAge : ℤ := 5 * 60

def agentGrantPrefix : List Char := "lpa_".toList

def isHexDigit (b : UInt8) : Bool := isDigit b || within 0x61 0x66 b || within 0x41 0x46 b

def validAgentGrant (grant : AgentGrant) (now : ℤ) : Bool :=
  !grant.identity.id.isEmpty && !grant.identity.sessionGeneration.isEmpty &&
    validProviderId grant.identity.provider && !grant.identity.handle.isEmpty &&
    (grant.role = 1 || grant.role = 2 || grant.role = 3) &&
    !grant.slug.isEmpty && decide ((utf8 grant.slug).length ≤ 128) &&
    ((utf8 grant.slug).all fun b => isLower b || isUpper b || isDigit b || b = 0x5f || b = 0x2d) &&
    decide ((utf8 grant.linkHash).length = 64) && (utf8 grant.linkHash).all isHexDigit &&
    ((utf8 grant.linkHash).all fun b => !isUpper b) &&
    decide (grant.expiresAt.val > now) && decide (grant.expiresAt.val ≤ now + agentGrantMaxAge)

/-- The identity with its picture kept only when it is acceptable. -/
def Identity.kept (id : Identity) : Identity := { id with picture := acceptablePicture id.picture }

def AgentGrant.kept (grant : AgentGrant) : AgentGrant :=
  { grant with identity := grant.identity.kept }

/-- Signs a grant; one that is too broad is not minted. -/
def signAgentGrant (now : ℤ) (grant : AgentGrant) : Option (List Char) :=
  if !validAgentGrant grant now then none
  else
    let encoded := c.encode (c.toJson grant.kept)
    some (agentGrantPrefix ++ "v1.".toList ++ encoded ++
      '.' :: sign c key "agent-grant-v1".toList encoded)

/-- The grant of a payload, when it is signed and still valid. -/
def openGrant (now : ℤ) (encoded signature : List Char) : Option AgentGrant :=
  if !verifies c key "agent-grant-v1".toList encoded signature then none
  else do
    let bytes ← c.decode encoded
    let grant ← c.fromJson bytes
    let grant := grant.kept
    if validAgentGrant grant now then some grant else none

def readAgentGrant (now : ℤ) (token : List Char) : Option AgentGrant := do
  let token ← stripPrefix agentGrantPrefix token
  let token ← stripPrefix "v1.".toList token
  let (encoded, signature) ← splitOnce '.' token
  openGrant c key now encoded signature

def signVisitor (token : List Char) : List Char :=
  "v1.".toList ++ token ++ '.' :: sign c key "visitor-v1".toList token

/-- The token of a visitor cookie, or nothing when the cookie is forged or damaged. -/
def readVisitor (cookie : List Char) : List Char :=
  match (stripPrefix "v1.".toList cookie).bind (splitOnce '.') with
  | some (token, signature) =>
    if token.isEmpty || !verifies c key "visitor-v1".toList token signature then [] else token
  | none => []

end Crypto
end LibrePaper.Credentials
