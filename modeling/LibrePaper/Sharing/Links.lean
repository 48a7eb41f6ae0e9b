import Mathlib

/-!
# Share links

A document's links and the accounts that were let in. A link is stored as a row that is marked when
it is revoked; a request edits a copy of the links that stand, and the whole copy is written back.
-/
namespace LibrePaper.Sharing

inductive LinkKind where
  | link
  | agent
deriving DecidableEq

/-- A link by the hash of its key. The expiry is in seconds. -/
structure LinkGrant where
  hash : String
  role : String
  sealed : List ℕ
  label : String
  budget : Option ℤ
  expiry : Option ℤ
  kind : LinkKind
  ownerGeneration : String
deriving DecidableEq

/-- The first sixteen characters of a hash. -/
def idOf (hash : String) : String := String.ofList (hash.toList.take 16)

namespace LinkGrant

/-- The id that an owner addresses the link by. -/
def id (l : LinkGrant) : String := idOf l.hash

def liveAt (l : LinkGrant) (now : ℤ) : Bool :=
  match l.expiry with
  | none => true
  | some t => now < t

end LinkGrant

def linkById (links : List LinkGrant) (id : String) : Option LinkGrant :=
  if id = "" then none else links.find? fun l => l.id = id

/-- Puts a link in the place of the first one with this id. -/
def replaceLink (links : List LinkGrant) (id : String) (link : LinkGrant) :
    Option (List LinkGrant) :=
  if links.any fun l => l.id = id then
    some (links.takeWhile (fun l => l.id ≠ id) ++
      link :: (links.dropWhile fun l => l.id ≠ id).tail)
  else none

def dropLink (links : List LinkGrant) (id : String) : Option (List LinkGrant) :=
  if links.any fun l => l.id = id then some (links.filter fun l => l.id ≠ id) else none

/-- What an update sends; what it leaves out stays. -/
structure Update where
  label : Option String
  expiry : Option (Option ℤ)
  budget : Option (Option ℤ)
deriving DecidableEq

def Update.apply (u : Update) (l : LinkGrant) : LinkGrant :=
  { l with
    label := u.label.getD l.label
    expiry := u.expiry.getD l.expiry
    budget := u.budget.getD l.budget }

/-- A new key for a link, with a fresh expiry if one is sent. -/
structure Fresh where
  hash : String
  sealed : List ℕ
  expiry : Option (Option ℤ)
  generation : String
deriving DecidableEq

/-- One of the four things that a share request asks for. -/
inductive Request where
  | create (link : LinkGrant)
  | update (id : String) (wanted : Update)
  | replace (id : String) (fresh : Fresh)
  | revoke (id : String)
deriving DecidableEq

/-- What a request does to the copy. -/
inductive Edit where
  | add (link : LinkGrant)
  | swap (id : String) (link : LinkGrant)
  | change (id : String) (wanted : Update)
  | remove (id : String)
deriving DecidableEq

/-- The row that stands in for a link under a new key. -/
def planReplace (existing : LinkGrant) (fresh : Fresh) : LinkGrant :=
  { existing with
    hash := fresh.hash
    sealed := fresh.sealed
    expiry := fresh.expiry.getD existing.expiry
    ownerGeneration := match existing.kind with
      | .link => existing.ownerGeneration
      | .agent => fresh.generation }

/-- Plans a request against the links; an id that names nothing is refused. -/
def plan (links : List LinkGrant) : Request → Option Edit
  | .create link => some (.add link)
  | .update id wanted => (linkById links id).map fun _ => .change id wanted
  | .replace id fresh => (linkById links id).map fun l => .swap id (planReplace l fresh)
  | .revoke id => (linkById links id).map fun _ => .remove id

def edit (links : List LinkGrant) : Edit → Option (List LinkGrant)
  | .add link => some (links ++ [link])
  | .swap id link => replaceLink links id link
  | .change id wanted =>
    (linkById links id).bind fun l => replaceLink links id (wanted.apply l)
  | .remove id => dropLink links id

/-- The hashes of the links that have not expired. -/
def liveHashes (links : List LinkGrant) (now : ℤ) : List String :=
  (links.filter fun l => l.liveAt now).map LinkGrant.hash

structure Row where
  link : LinkGrant
  revoked : Bool
deriving DecidableEq

/-- An account is named, or came in by a link. -/
inductive Grant where
  | named (role : String)
  | guest (source : String)
deriving DecidableEq

/-- The rows by age, and the grants by account. -/
structure Stored where
  rows : List Row
  grants : ℕ → Option Grant

/-- Writes a link over its row, or a new one. An empty sealed key leaves the old one. -/
def writeLink (rows : List Row) (l : LinkGrant) : List Row :=
  if rows.any fun r => r.link.hash = l.hash then
    rows.map fun r =>
      if r.link.hash = l.hash then
        ⟨{ l with sealed := if l.sealed = [] then r.link.sealed else l.sealed }, false⟩
      else r
  else rows ++ [⟨l, false⟩]

/-- Makes the links that stand exactly these. -/
def replaceShareLinks (rows : List Row) (links : List LinkGrant) : List Row :=
  links.foldl writeLink (rows.map fun r =>
    if r.link.hash ∈ links.map LinkGrant.hash then r else { r with revoked := true })

/-- Drops the guests of other links. -/
def pruneLinkGrants (grants : ℕ → Option Grant) (live : List String) : ℕ → Option Grant :=
  fun a => (grants a).filter fun
    | .named _ => true
    | .guest source => source ∈ live

namespace Stored

/-- The links that a read finds. -/
def live (s : Stored) : List LinkGrant := (s.rows.filter fun r => !r.revoked).map Row.link

/-- One transaction. -/
def save (s : Stored) (links : List LinkGrant) (live : List String) : Stored where
  rows := replaceShareLinks s.rows links
  grants := pruneLinkGrants s.grants live

def setGrant (s : Stored) (account : ℕ) (role : String) : Stored :=
  { s with grants := Function.update s.grants account (some (.named role)) }

def removeGrant (s : Stored) (account : ℕ) : Stored :=
  { s with grants := Function.update s.grants account none }

/-- Notes which link an account came in by, unless it is named. -/
def pinLinkGuest (s : Stored) (account : ℕ) (source : String) (now : ℤ) : Stored :=
  if ∃ l ∈ s.live, l.hash = source ∧ l.kind = .link ∧ l.liveAt now then
    match s.grants account with
    | some (.named _) => s
    | _ => { s with grants := Function.update s.grants account (some (.guest source)) }
  else s

end Stored
end LibrePaper.Sharing
