import LibrePaper.Accounts.Catalog
import LibrePaper.Library.Runs

/-!
# Deletion and erasure at work

Owners and operators call the catalogue, and a background worker purges documents and finishes
erasures. Every call of the catalogue is one step. A caller is let to restore a document in an
earlier step than the restore.
-/
namespace LibrePaper.Accounts
open Library

inductive Task where
  | delete (document : ℕ)
  | eraseAccount (account after : ℕ)
deriving DecidableEq

/-- Where the worker is: the next call that it makes. -/
inductive Worker where
  | idle
  | claiming (document : ℕ)
  | purging (document : ℕ)
  | emptied (document : ℕ)
  | listing (account after : ℕ)
  | finishing (account : ℕ)
deriving DecidableEq

/-- The catalogue, who was let to restore what, the worker, and the documents whose objects
were deleted. -/
structure System where
  catalog : Catalog
  permitted : List (ℕ × ℕ)
  worker : Worker
  emptied : List ℕ

inductive Op where
  | tick (seconds : ℕ)
  | createAccount (registered : Bool)
  | createDocument (owner : ℕ)
  | markDeleting (document : ℕ)
  | permit (caller document : ℕ)
  | restore (caller document : ℕ)
  | hasten (document : ℕ)
  | beginErasure (account : ℕ)
  | eraseByOperator (account : ℕ)
  | moderate (account : ℕ) (blocked : Bool)
  | work (task : Task)
  | advance
  | stop
deriving DecidableEq

/-- How many of an account's documents one pass wakes. -/
def page : ℕ := 64

namespace System

def after (s : System) (r : Result) : System :=
  match r with
  | .ok (c, _) => { s with catalog := c }
  | .error _ => s

/-- The worker begins a task with a read of its row. -/
def begin (s : System) : Task → Worker
  | .delete id =>
    match s.catalog.documents id with
    | none => .idle
    | some d =>
      if d.status = .purging ∧ d.deletedAt ≠ none then .purging id
      else if s.catalog.Due d then .claiming id
      else .idle
  | .eraseAccount account after =>
    if (s.catalog.accounts account).map Account.status = some .erasing then .listing account after
    else .idle

/-- The worker's next call. -/
def advance (s : System) : System :=
  match s.worker with
  | .idle => s
  | .claiming id =>
    let (c, claimed) := s.catalog.claimDocumentPurge id
    { s with catalog := c, worker := if claimed then .purging id else .idle }
  | .purging id => { s with emptied := id :: s.emptied, worker := .emptied id }
  | .emptied id => { s with catalog := (s.catalog.finishDocumentDeletion id).1, worker := .idle }
  | .listing account after =>
    { s with
      worker := if s.catalog.documentsAwaitingAccountErasure account after page = [] ∧ after = 0 then
          .finishing account
        else .idle }
  | .finishing account =>
    { s.after (s.catalog.finishAccountErasure account) with worker := .idle }

/-- One call. A refused one changes nothing. -/
def step (s : System) : Op → Option System
  | .tick seconds => some { s with catalog := { s.catalog with now := s.catalog.now + seconds } }
  | .createAccount registered => some { s with catalog := s.catalog.createAccount registered }
  | .createDocument owner => some (s.after (s.catalog.createDocument owner))
  | .markDeleting id => some { s with catalog := (s.catalog.markDocumentDeleting id).1 }
  | .permit caller id =>
    if (s.catalog.accounts caller).map Account.status = some .active ∧
        (s.catalog.documents id).map Document.owner = some caller then
      some { s with permitted := (caller, id) :: s.permitted }
    else none
  | .restore caller id =>
    if (caller, id) ∈ s.permitted then
      some { s with catalog := (s.catalog.restoreDocument id).1 }
    else none
  | .hasten id => some { s with catalog := (s.catalog.hastenDeletion id).1 }
  | .beginErasure account => some (s.after (s.catalog.beginAccountErasure account))
  | .eraseByOperator account => some (s.after (s.catalog.eraseAccountByOperator account))
  | .moderate account blocked => some (s.after (s.catalog.moderateAccount account blocked))
  | .work task => if s.worker = .idle then some { s with worker := s.begin task } else none
  | .advance => some s.advance
  | .stop => some { s with worker := .idle }

/-- A deployment with nothing in it. -/
def empty (now : ℤ) : System := ⟨⟨fun _ => none, fun _ => none, 1, now⟩, [], .idle, []⟩

end System
end LibrePaper.Accounts
