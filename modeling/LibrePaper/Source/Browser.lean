import LibrePaper.Anchors.Browser
import LibrePaper.Library.Orders
import LibrePaper.Source.Session

/-!
# The projection of the browser

The browser has its own copy of the path rules and of the projection. Strings are compared by the
bytes of their encoding where files are sorted, and by their code units where diagnostics are.
-/
namespace LibrePaper.Source.Browser
open Library
open Anchors (lenUtf16)
open Anchors.Browser (utf16)

/-- The configuration that a deployment serves. -/
structure Config where
  textExtensions : List (List Char)
  assetExtensions : List (List Char)
  derivedExtensions : List (List Char)
  maxPath : ℕ
deriving DecidableEq

def maxSegments : ℕ := 8

/-- What both languages call a blank character. -/
def blank (c : Char) : Bool :=
  (9 ≤ c.toNat && c.toNat ≤ 13) || c.toNat = 0x20 || c.toNat = 0xa0 || c.toNat = 0x1680 ||
    (0x2000 ≤ c.toNat && c.toNat ≤ 0x200a) || c.toNat = 0x2028 || c.toNat = 0x2029 ||
    c.toNat = 0x202f || c.toNat = 0x205f || c.toNat = 0x3000

/-- What `String.prototype.trim` removes. -/
def isSpace (c : Char) : Bool := blank c || c.toNat = 0xfeff

/-- A text without the blank characters at its ends. -/
def strip (space : Char → Bool) (text : List Char) : List Char :=
  ((text.dropWhile space).reverse.dropWhile space).reverse

/-- Why a path is refused. The shell shows a message of its language for each. -/
inductive Refusal where
  | needsName
  | tooLong (path : Path) (max : ℕ)
  | relative (path : Path)
  | backslash (path : Path)
  | control (path : Path)
  | tooDeep (path : Path) (segments : ℕ)
  | emptySegment (path : Path)
  | climb (path : Path)
  | dotfile (path : Path)
  | extensions (path : Path) (allowed : List (List Char))
deriving DecidableEq

section Unicode
variable (u : Unicode)

def normalisePath (path : Path) : Path := u.nfc (strip isSpace path)

def collisionKey (path : Path) : Path := u.lower (normalisePath u path)

def checkSegment (path : Path) (segment : List Char) : Option Refusal :=
  if segment = [] then some (.emptySegment path)
  else if segment = ['.'] ∨ segment = ['.', '.'] then some (.climb path)
  else if ['.'].isPrefixOf segment then some (.dotfile path)
  else none

def checkDirectoryPath (config : Config) (path : Path) : Option Refusal :=
  let it := normalisePath u path
  let max := if config.maxPath = 0 then 200 else config.maxPath
  let segments := it.splitOn '/'
  if it = [] then some .needsName
  else if max < (octets it).length then some (.tooLong it max)
  else if ['/'].isPrefixOf it then some (.relative it)
  else if '\\' ∈ it then some (.backslash it)
  else if it.any fun c => c.toNat ≤ 0x1f || c.toNat == 0x7f then some (.control it)
  else if maxSegments < segments.length then some (.tooDeep it maxSegments)
  else segments.findSome? (checkSegment it)

def kindOf (config : Config) (path : Path) : Except Refusal Kind :=
  let lower := u.lower path
  let ends (list : List (List Char)) := list.any fun e => e.isSuffixOf lower
  let allowed := (config.textExtensions ++ config.assetExtensions).foldl
    (fun set e => if e ∈ set then set else set ++ [e]) []
  let error := Refusal.extensions path allowed
  if ends config.derivedExtensions then .error error
  else if ends config.textExtensions then .ok .text
  else if ends config.assetExtensions then .ok .asset
  else .error error

def checkPath (config : Config) (path : Path) : Except Refusal Kind :=
  match checkDirectoryPath u config path with
  | some error => .error error
  | none => kindOf u config (normalisePath u path)

end Unicode

/-- Where a character last is in a text. -/
def lastIndexOf (c : Char) (text : List Char) : Option ℕ :=
  (text.reverse.findIdx? (· = c)).map fun i => text.length - 1 - i

def suffixed (path : Path) (nth : ℕ) : Path :=
  let split := match lastIndexOf '.' path with
    | some dot =>
      if 0 < dot ∧ '/' ∉ path.drop dot then (path.take dot, path.drop dot) else (path, [])
    | none => (path, [])
  split.1 ++ [' ', '('] ++ (toString nth).toList ++ [')'] ++ split.2

def compareUtf8 (left right : List Char) : ℤ := compareNumbers (octets left) (octets right)

/-- The code units of a string. -/
def units (text : List Char) : List ℕ := (utf16 text).map UInt16.toNat

def diagnosticSortKey (d : Diagnostic) : List Path :=
  match d with
  | .notAText id | .unnamed id | .dangling id => [d.tag, id, []]
  | .notADigest path => [d.tag, path, []]
  | .invalidPath id path _ => [d.tag, id, path]
  | .moved id start _ => [d.tag, id, start]
  | .dropped id path => [d.tag, id, path]

def compareKeys : List Path → List Path → ℤ
  | l :: left, r :: right =>
    if units l < units r then -1 else if units r < units l then 1 else compareKeys left right
  | _, _ => 0

/-- Sets an entry of a map, which keeps its place when it is there. -/
def setEntry {α : Type*} (map : List (Path × α)) (path : Path) (value : α) : List (Path × α) :=
  if path ∈ map.map Prod.fst then map.map fun e => if e.1 = path then (path, value) else e
  else map ++ [(path, value)]

structure Candidate where
  asset : Bool
  key : Path
  id : Path
  requested : Path
  digest : String
  bytes : ℕ
  text : Option (List Char)
deriving DecidableEq

/-- Whether a value is a digest: 64 hexadecimal characters. -/
def isDigest (value : String) : Bool :=
  lenUtf16 value.toList = 64 && value.toList.all fun c =>
    ('0'.toNat ≤ c.toNat && c.toNat ≤ '9'.toNat) || ('a'.toNat ≤ c.toNat && c.toNat ≤ 'f'.toNat) ||
      ('A'.toNat ≤ c.toNat && c.toNat ≤ 'F'.toNat)

/-- A text asks for its path, or is noticed. -/
def collectText (doc : Document) (id : Path) : Except Diagnostic Candidate :=
  match doc.textById id with
  | none => .error (.notAText id)
  | some body =>
    match doc.pathOf id with
    | none => .error (.unnamed id)
    | some requested => .ok ⟨false, id, id, requested, "", (octets body).length, some body⟩

def collectAsset (doc : Document) (path : Path) : Except Diagnostic Candidate :=
  match doc.assets.lookup path with
  | some (.string value) =>
    if isDigest value then .ok ⟨true, "asset:".toList ++ path, [], path, value, 0, none⟩
    else .error (.notADigest path)
  | _ => .error (.notADigest path)

def fails : Except Diagnostic Candidate → Option Diagnostic
  | .error d => some d
  | .ok _ => none

section Projection
variable (u : Unicode) (say : Refusal → String) (config : Config) (doc : Document)

/-- What asks for a path: texts and then assets, each in the order of their keys. -/
def collected : List (Except Diagnostic Candidate) :=
  (sortBy compareUtf8 (sortedKeys doc.files)).map (collectText doc) ++
    (sortBy compareUtf8 (sortedKeys doc.assets)).map (collectAsset doc)

def collectDiagnostics : List Diagnostic :=
  ((sortedKeys doc.paths).filter fun id => (doc.pathOf id).isNone).map .unnamed ++
  ((sortBy compareUtf8 (sortedKeys doc.files)).map (collectText doc)).filterMap fails ++
  ((sortedKeys doc.paths).filter fun id =>
    (doc.pathOf id).isSome && (doc.textById id).isNone).map .dangling ++
  ((sortBy compareUtf8 (sortedKeys doc.assets)).map (collectAsset doc)).filterMap fails

/-- Why a candidate is not valid. -/
def invalid (c : Candidate) : Option String :=
  let wanted : Kind := if c.asset then .asset else .text
  match checkPath u config c.requested with
  | .error error => some (say error)
  | .ok kind =>
    if kind = wanted then none
    else
      let name : Kind → String := fun k => match k with | .text => "text" | .asset => "asset"
      some (String.ofList c.requested ++ ": the extension names a " ++ name kind ++
        " and this is a " ++ name wanted)

def compareCandidates (left right : Candidate) : ℤ :=
  if left.asset ≠ right.asset then if left.asset then 1 else -1
  else compareUtf8 left.key right.key

def valid : List Candidate :=
  sortBy compareCandidates (((collected doc).filterMap Except.toOption).filter fun c =>
    (invalid u say config c).isNone)

def invalidDiagnostics : List Diagnostic :=
  ((collected doc).filterMap Except.toOption).filterMap fun c =>
    (invalid u say config c).map fun why => .invalidPath c.key c.requested why

/-- Whether a path may be taken beside the keys that are. -/
def free (taken : List Path) (path : Path) : Bool :=
  let key := collisionKey u path
  if key ∈ taken then false
  else taken.all fun existing =>
    !(key ++ ['/']).isPrefixOf existing && !(existing ++ ['/']).isPrefixOf key

structure Reserving where
  taken : List Path
  placed : List (Candidate × Path)
  deferred : List Candidate

def Reserving.reserve (r : Reserving) (c : Candidate) : Reserving :=
  let normalised := normalisePath u c.requested
  if free u r.taken normalised then
    { r with
      taken := r.taken ++ [collisionKey u normalised]
      placed := r.placed ++ [(c, normalised)] }
  else { r with deferred := r.deferred ++ [c] }

/-- A candidate that was put off gets a number in its name, or is dropped. -/
def suffix (s : List Path × List (Candidate × Path) × List Diagnostic) (c : Candidate) :
    List Path × List (Candidate × Path) × List Diagnostic :=
  let requested := normalisePath u c.requested
  match (List.range' 2 9998).find? fun nth => free u s.1 (suffixed requested nth) with
  | none => (s.1, s.2.1, s.2.2 ++ [.dropped c.key requested])
  | some nth =>
    let chosen := suffixed requested nth
    (s.1 ++ [collisionKey u chosen], s.2.1 ++ [(c, chosen)],
      s.2.2 ++ [.moved c.key requested chosen])

/-- The files and texts in the order of their paths, and what was noticed. -/
structure Projected where
  files : List (Path × Entry)
  diagnostics : List Diagnostic
  texts : List (Path × List Char)

def Candidate.entry (c : Candidate) : Entry :=
  ⟨if c.asset then .asset else .text, c.id, c.digest, c.bytes⟩

def projectDirectory : Projected :=
  let reserved := (valid u say config doc).foldl (Reserving.reserve u) ⟨[], [], []⟩
  let (_, placed, displaced) :=
    reserved.deferred.foldl (suffix u) (reserved.taken, reserved.placed, [])
  let placed := sortBy (fun left right => compareUtf8 left.2 right.2) placed
  { files := placed.foldl (fun files p => setEntry files p.2 p.1.entry) []
    diagnostics :=
      sortBy (fun left right => compareKeys (diagnosticSortKey left) (diagnosticSortKey right))
        (collectDiagnostics doc ++ invalidDiagnostics u say config doc ++ displaced)
    texts := placed.foldl (fun texts p => match p.1.text with
      | some body => setEntry texts p.2 body
      | none => texts) [] }

/-- The directory with the digests of its texts; `hash` is the digest of a text. -/
def project (hash : List Char → String) : Projected :=
  let projection := projectDirectory u say config doc
  { projection with
    files := projection.texts.foldl (fun files t => files.map fun e =>
      if e.1 = t.1 then (e.1, { e.2 with digest := hash t.2 }) else e) projection.files }

end Projection

def kindName : Kind → List Char
  | .text => "text".toList
  | .asset => "asset".toList

def canonicalBytes (main : List Char) (projection : Projected) : List ℕ :=
  octets ("librepaper.projection.v1\n".toList ++ (main ++ ['\n']) ++
    projection.files.flatMap fun e =>
      e.1 ++ ['\t'] ++ kindName e.2.kind ++ ['\t'] ++ e.2.digest.toList ++ ['\n'])

end LibrePaper.Source.Browser
