import Mathlib

/-!
# Accounts and documents in the catalogue

An account is active, blocked or being erased, and a document is active, in the trash, or being
purged. Each call of the catalogue is one transaction that looks at the status of its own row.
-/
namespace LibrePaper.Accounts

inductive AccountStatus where
  | active
  | erasing
  | blocked
deriving DecidableEq

structure Account where
  registered : Bool
  status : AccountStatus
  sessionGeneration : ℕ
deriving DecidableEq

inductive DocumentStatus where
  | active
  | deleting
  | purging
deriving DecidableEq

structure Document where
  owner : ℕ
  status : DocumentStatus
  deletedAt : Option ℤ
deriving DecidableEq

/-- The rows by id, the next id, and the time in seconds. -/
structure Catalog where
  accounts : ℕ → Option Account
  documents : ℕ → Option Document
  next : ℕ
  now : ℤ

inductive Error where
  | notFound
  | conflict (text : String)
deriving DecidableEq

abbrev Result := Except Error (Catalog × Bool)

def deletionGrace : ℤ := 7 * 24 * 3600

/-- A document goes to the trash, if it is active. -/
def Document.trash (now : ℤ) (d : Document) : Document :=
  if d.status = .active then { d with status := .deleting, deletedAt := some (d.deletedAt.getD now) }
  else d

namespace Catalog

def updateAccount (c : Catalog) (id : ℕ) (f : Account → Account) : Catalog :=
  { c with accounts := Function.update c.accounts id ((c.accounts id).map f) }

def updateDocument (c : Catalog) (id : ℕ) (f : Document → Document) : Catalog :=
  { c with documents := Function.update c.documents id ((c.documents id).map f) }

def createAccount (c : Catalog) (registered : Bool) : Catalog :=
  { c with
    accounts := Function.update c.accounts c.next (some ⟨registered, .active, 0⟩)
    next := c.next + 1 }

/-- The owner has to be active. -/
def createDocument (c : Catalog) (owner : ℕ) : Result :=
  if (c.accounts owner).map Account.status = some .active then
    .ok ({ c with
      documents := Function.update c.documents c.next (some ⟨owner, .active, none⟩)
      next := c.next + 1 }, true)
  else .error (.conflict "owner account is inactive or session changed")

def markDocumentDeleting (c : Catalog) (id : ℕ) : Catalog × Bool :=
  if (c.documents id).map Document.status = some .active then
    (c.updateDocument id (Document.trash c.now), true)
  else (c, false)

/-- Takes a document out of the trash, whatever its owner's status. -/
def restoreDocument (c : Catalog) (id : ℕ) : Catalog × Bool :=
  if (c.documents id).map Document.status = some .deleting then
    (c.updateDocument id fun d => { d with status := .active, deletedAt := none }, true)
  else (c, false)

/-- The grace of a document in the trash is over. -/
def Due (c : Catalog) (d : Document) : Prop :=
  d.status = .deleting ∧ ∃ t ∈ d.deletedAt, t + deletionGrace ≤ c.now

instance (c : Catalog) (d : Document) : Decidable (c.Due d) := by
  unfold Due
  infer_instance

def claimDocumentPurge (c : Catalog) (id : ℕ) : Catalog × Bool :=
  if ∃ d ∈ c.documents id, c.Due d then
    (c.updateDocument id fun d => { d with status := .purging }, true)
  else (c, false)

def hastenDeletion (c : Catalog) (id : ℕ) : Catalog × Bool :=
  if (c.documents id).map Document.status = some .deleting then
    (c.updateDocument id fun d => { d with deletedAt := some (c.now - 2 * deletionGrace) }, true)
  else (c, false)

def finishDocumentDeletion (c : Catalog) (id : ℕ) : Catalog × Bool :=
  if (c.documents id).map Document.status = some .purging then
    ({ c with documents := Function.update c.documents id none }, true)
  else (c, false)

/-- The documents of an owner, by id. -/
def owned (c : Catalog) (owner : ℕ) : List ℕ :=
  (List.range c.next).filter fun id => (c.documents id).any fun d => d.owner = owner

/-- An account is marked, its sessions end, and its active documents go to the trash. -/
def erase (c : Catalog) (account : ℕ) : Catalog :=
  { c with
    accounts := Function.update c.accounts account ((c.accounts account).map fun a =>
      { a with status := .erasing, sessionGeneration := a.sessionGeneration + 1 })
    documents := fun id => (c.documents id).map fun d =>
      if d.owner = account then d.trash c.now else d }

def beginAccountErasure (c : Catalog) (account : ℕ) : Result :=
  match (c.accounts account).map Account.status with
  | none => .error .notFound
  | some .active => .ok (c.erase account, true)
  | some .erasing => .ok (c, false)
  | some .blocked => .error (.conflict "account is blocked")

/-- The operator may also erase a blocked account. -/
def eraseAccountByOperator (c : Catalog) (account : ℕ) : Result :=
  match c.accounts account with
  | none => .error .notFound
  | some a =>
    if a.registered = false then .error (.conflict "only registered accounts can be erased")
    else if a.status = .erasing then .error (.conflict "account is already being erased")
    else .ok (c.erase account, true)

def moderateAccount (c : Catalog) (account : ℕ) (blocked : Bool) : Result :=
  let next := if blocked then AccountStatus.blocked else .active
  let expected := if blocked then AccountStatus.active else .blocked
  match c.accounts account with
  | none => .error .notFound
  | some a =>
    if a.status ≠ expected ∧ a.status ≠ next then
      .error (.conflict "moderation cannot change that lifecycle state")
    else if a.status = expected then
      .ok (c.updateAccount account fun a =>
        { a with
          status := next
          sessionGeneration := if blocked then a.sessionGeneration + 1 else a.sessionGeneration },
        true)
    else .ok (c, false)

/-- A page of the documents that an erasing account still owns, behind an id. -/
def documentsAwaitingAccountErasure (c : Catalog) (owner after limit : ℕ) : List ℕ :=
  ((c.owned owner).filter fun id => after < id).take limit

/-- The row goes when nothing is owned any more. -/
def finishAccountErasure (c : Catalog) (account : ℕ) : Result :=
  if c.owned account ≠ [] then
    .error (.conflict "account still has documents awaiting deletion")
  else if (c.accounts account).map Account.status = some .erasing then
    .ok ({ c with accounts := Function.update c.accounts account none }, true)
  else .ok (c, false)

end Catalog
end LibrePaper.Accounts
