import LibrePaper.Library.Runs

/-!
# Objects and the rows that name them

Objects are written to a store and named by rows of the catalogue afterwards. Uploads, compactions
and archives write them. Sweeps and purges delete them under a shared lock that a backup holds
alone, and an archive's key is locked while it is adopted or swept.
-/
namespace LibrePaper.Objects
open Library

/-- An asset or a base has a key of its own. An archive is kept under the digest of its tree. -/
inductive Key where
  | own (document id : ℕ)
  | archive (document tree : ℕ)
deriving DecidableEq

namespace Key

def document : Key → ℕ
  | .own d _ | .archive d _ => d

end Key

inductive Kind where
  | asset (digest created : ℕ)
  | archive
  | snapshot (deleteAfter : Option ℕ)
deriving DecidableEq

structure Row where
  key : Key
  kind : Kind
deriving DecidableEq

namespace Row

/-- A snapshot past the end of its grace. -/
def Due (now : ℕ) (r : Row) : Prop := ∃ due ≤ now, r.kind = .snapshot (some due)

instance (now : ℕ) (r : Row) : Decidable (r.Due now) :=
  match h : r.kind with
  | .snapshot (some due) => decidable_of_iff (due ≤ now)
      ⟨fun hle => ⟨due, hle, h⟩, fun ⟨_, hle, heq⟩ => by cases h.symm.trans heq; exact hle⟩
  | .snapshot none => isFalse fun ⟨_, _, heq⟩ => by cases h.symm.trans heq
  | .asset _ _ => isFalse fun ⟨_, _, heq⟩ => by cases h.symm.trans heq
  | .archive => isFalse fun ⟨_, _, heq⟩ => by cases h.symm.trans heq

def digest (r : Row) : Option ℕ :=
  match r.kind with
  | .asset digest _ => some digest
  | _ => none

end Row

inductive Status where
  | active
  | deleting
  | purging
  | gone
deriving DecidableEq

/-- An object that was written, and that no row names yet. -/
structure Staged where
  key : Key
  digest : ℕ
  written : ℕ
deriving DecidableEq

/-- An archive's key is locked, no row has it, or its object is there. -/
inductive Adoption where
  | locked
  | missing
  | held
deriving DecidableEq

inductive Call where
  | upload (document : ℕ) (staged : List Staged)
  | base (staged : Staged)
  | archive (key : Key) (phase : Adoption)
  | entered
  | listed (page : List (Key × ℕ))
  | candidates (todo : List Key)
  | locked (key : Key) (rest : List Key)
  | unreferenced (key : Key) (rest : List Key)
  | due (todo : List Key)
  | removed (key : Key) (rest : List Key)
  | purging (document : ℕ) (todo : List Key)
  | holding
  | copying (named : List Row) (present : Key → Bool)
  | done

namespace Call

def staged : Call → List Staged
  | .upload _ staged => staged
  | .base x => [x]
  | _ => []

end Call

/-- The clock, the objects with the time each was written, the rows, the documents, the calls, and
who holds the locks: a key's, the cleanup's share, and the backup's. -/
structure System where
  now : ℕ
  next : ℕ
  objects : Key → Option ℕ
  rows : List Row
  status : ℕ → Status
  calls : ℕ → Option Call
  locks : Key → Option ℕ
  shared : List ℕ
  backup : Option ℕ

inductive Op where
  | tick (seconds : ℕ)
  | trash (document : ℕ)
  | restore (document : ℕ)
  | put (call document digest : ℕ)
  | complete (call : ℕ)
  | writeBase (call document digest : ℕ)
  | activate (call : ℕ)
  | acquire (call document tree : ℕ)
  | look (call : ℕ)
  | adopt (call : ℕ)
  | attach (call : ℕ)
  | trim (document : ℕ) (referenced : List ℕ)
  | enter (call : ℕ)
  | list (call : ℕ) (page : List (Key × ℕ))
  | filter (call : ℕ)
  | lock (call : ℕ)
  | check (call : ℕ)
  | sweep (call : ℕ)
  | listDue (call : ℕ) (keys : List Key)
  | removeBase (call : ℕ)
  | removeRow (call : ℕ)
  | claim (document : ℕ)
  | collect (call document : ℕ)
  | purge (call : ℕ)
  | finish (call : ℕ)
  | beginBackup (call : ℕ)
  | snapshot (call : ℕ)
  | drop (call : ℕ)
deriving DecidableEq

/-- Seven days, after which an object that no row names may be swept, and a retired base too. -/
def grace : ℕ := 7 * 24 * 3600

/-- One hour, in which a trim leaves an asset that the document does not name. -/
def uploadGrace : ℕ := 3600

namespace System

def setCall (s : System) (c : ℕ) (call : Call) : System :=
  { s with calls := Function.update s.calls c (some call) }

def setStatus (s : System) (d : ℕ) (status : Status) : System :=
  { s with status := Function.update s.status d status }

/-- An object is written now. -/
def write (s : System) (k : Key) : System :=
  { s with objects := Function.update s.objects k (some s.now) }

def delete (s : System) (k : Key) : System :=
  { s with objects := Function.update s.objects k none }

/-- Releases the keys that a call has locked. -/
def unlock (s : System) (c : ℕ) : System :=
  { s with locks := fun k => if s.locks k = some c then none else s.locks k }

/-- Ends a call. Its locks go with its session. -/
def endCall (s : System) (c : ℕ) : System :=
  { (s.unlock c).setCall c .done with
    shared := s.shared.filter (· ≠ c)
    backup := if s.backup = some c then none else s.backup }

def Referenced (s : System) (k : Key) : Prop := ∃ r ∈ s.rows, r.key = k

instance (s : System) (k : Key) : Decidable (s.Referenced k) := by
  unfold Referenced
  infer_instance

/-- The document has an asset of this digest. -/
def HasAsset (s : System) (d digest : ℕ) : Prop :=
  ∃ r ∈ s.rows, r.key.document = d ∧ r.digest = some digest

instance (s : System) (d digest : ℕ) : Decidable (s.HasAsset d digest) := by
  unfold HasAsset
  infer_instance

/-- Writes an object for an upload or for a replacement of the project. -/
def put (s : System) (c d digest : ℕ) : Option System :=
  let staged : Staged := ⟨.own d s.next, digest, s.now⟩
  let t := { s.write staged.key with next := s.next + 1 }
  match s.calls c with
  | none => some (t.setCall c (.upload d [staged]))
  | some (.upload e before) =>
    if e = d ∧ ∀ x ∈ before, x.digest ≠ digest then
      some (t.setCall c (.upload d (before ++ [staged])))
    else none
  | _ => none

/-- Rows for the assets that the document does not have yet. -/
def newAssets (s : System) (d : ℕ) (staged : List Staged) : List Row :=
  (staged.filter fun x => ¬s.HasAsset d x.digest).map fun x => ⟨x.key, .asset x.digest s.now⟩

def complete (s : System) (c : ℕ) : Option System :=
  match s.calls c with
  | some (.upload d staged) =>
    if s.status d = .active then
      some ({ s with rows := s.rows ++ s.newAssets d staged }.endCall c)
    else none
  | _ => none

def writeBase (s : System) (c d digest : ℕ) : Option System :=
  let staged : Staged := ⟨.own d s.next, digest, s.now⟩
  if s.calls c = none then
    some ({ s.write staged.key with next := s.next + 1 }.setCall c (.base staged))
  else none

/-- The current base of the document is kept for a while when another takes its place. -/
def retire (s : System) (d : ℕ) (r : Row) : Row :=
  if r.key.document = d ∧ r.kind = .snapshot none then
    { r with kind := .snapshot (some (s.now + grace)) }
  else r

def activate (s : System) (c : ℕ) : Option System :=
  match s.calls c with
  | some (.base x) =>
    if s.status x.key.document ≠ .gone then
      some ({ s with
        rows := s.rows.map (s.retire x.key.document) ++ [(⟨x.key, .snapshot none⟩ : Row)] }.endCall c)
    else none
  | _ => none

def acquire (s : System) (c d tree : ℕ) : Option System :=
  if s.calls c = none ∧ s.locks (.archive d tree) = none then
    some ({ s with locks := Function.update s.locks (.archive d tree) (some c) }.setCall c
      (.archive (.archive d tree) .locked))
  else none

/-- A row of the archive is taken at its word. -/
def look (s : System) (c : ℕ) : Option System :=
  match s.calls c with
  | some (.archive k .locked) =>
    some (s.setCall c (.archive k (if s.Referenced k then .held else .missing)))
  | _ => none

/-- Writes the archive, or adopts the object that is there. -/
def adopt (s : System) (c : ℕ) : Option System :=
  match s.calls c with
  | some (.archive k .missing) =>
    some ((if s.objects k = none then s.write k else s).setCall c (.archive k .held))
  | _ => none

def attach (s : System) (c : ℕ) : Option System :=
  match s.calls c with
  | some (.archive k .held) =>
    if s.status k.document = .active then
      some ({ s with
        rows := if s.Referenced k then s.rows else s.rows ++ [(⟨k, .archive⟩ : Row)] }.endCall c)
    else none
  | _ => none

/-- What a trim removes: every archive, and the assets that the document does not name, but not
one whose row is new. -/
def Trimmed (s : System) (d : ℕ) (referenced : List ℕ) (r : Row) : Prop :=
  r.key.document = d ∧ match r.kind with
    | .archive => True
    | .asset digest created => digest ∉ referenced ∧ created + uploadGrace < s.now
    | .snapshot _ => False

instance (s : System) (d : ℕ) (referenced : List ℕ) (r : Row) :
    Decidable (s.Trimmed d referenced r) := by
  unfold Trimmed
  cases r.kind <;> infer_instance

def trim (s : System) (d : ℕ) (referenced : List ℕ) : System :=
  { s with rows := s.rows.filter fun r => ¬s.Trimmed d referenced r }

/-- A cleanup begins, unless a backup runs. -/
def enter (s : System) (c : ℕ) : Option System :=
  if s.calls c = none ∧ s.backup = none then
    some ({ s with shared := c :: s.shared }.setCall c .entered)
  else none

/-- A page of the objects, with the time that each was written. -/
def list (s : System) (c : ℕ) (page : List (Key × ℕ)) : Option System :=
  match s.calls c with
  | some .entered =>
    if ∀ p ∈ page, s.objects p.1 = some p.2 then some (s.setCall c (.listed page)) else none
  | _ => none

/-- Of the page, what is old enough and named by no row. -/
def filter (s : System) (c : ℕ) : Option System :=
  match s.calls c with
  | some (.listed page) =>
    some (s.setCall c (.candidates
      ((page.filter fun p => p.2 + grace ≤ s.now ∧ ¬s.Referenced p.1).map Prod.fst)))
  | _ => none

/-- A key that another call has locked is left for later. -/
def lock (s : System) (c : ℕ) : Option System :=
  match s.calls c with
  | some (.candidates (k :: rest)) =>
    if s.locks k = none then
      some ({ s with locks := Function.update s.locks k (some c) }.setCall c (.locked k rest))
    else some (s.setCall c (.candidates rest))
  | _ => none

def check (s : System) (c : ℕ) : Option System :=
  match s.calls c with
  | some (.locked k rest) =>
    if s.Referenced k then some ((s.unlock c).setCall c (.candidates rest))
    else some (s.setCall c (.unreferenced k rest))
  | _ => none

def sweep (s : System) (c : ℕ) : Option System :=
  match s.calls c with
  | some (.unreferenced k rest) => some (((s.delete k).unlock c).setCall c (.candidates rest))
  | _ => none

def listDue (s : System) (c : ℕ) (keys : List Key) : Option System :=
  match s.calls c with
  | some .entered =>
    if ∀ k ∈ keys, ∃ r ∈ s.rows, r.key = k ∧ r.Due s.now then some (s.setCall c (.due keys))
    else none
  | _ => none

def removeBase (s : System) (c : ℕ) : Option System :=
  match s.calls c with
  | some (.due (k :: rest)) => some ((s.delete k).setCall c (.removed k rest))
  | _ => none

/-- The row goes only after the object does. -/
def removeRow (s : System) (c : ℕ) : Option System :=
  match s.calls c with
  | some (.removed k rest) =>
    some ({ s with rows := s.rows.filter fun r => ¬(r.key = k ∧ r.Due s.now) }.setCall c
      (.due rest))
  | _ => none

/-- The keys of a document that is to be purged. -/
def collect (s : System) (c d : ℕ) : Option System :=
  match s.calls c with
  | some .entered =>
    if s.status d = .purging then
      some (s.setCall c (.purging d ((s.rows.filter (·.key.document = d)).map Row.key)))
    else none
  | _ => none

def purge (s : System) (c : ℕ) : Option System :=
  match s.calls c with
  | some (.purging d (k :: rest)) => some ((s.delete k).setCall c (.purging d rest))
  | _ => none

/-- The rows go with the document. -/
def finish (s : System) (c : ℕ) : Option System :=
  match s.calls c with
  | some (.purging d []) =>
    some (({ s with rows := s.rows.filter (·.key.document ≠ d) }.setStatus d .gone).endCall c)
  | _ => none

/-- A backup waits until no cleanup runs. -/
def beginBackup (s : System) (c : ℕ) : Option System :=
  if s.calls c = none ∧ s.shared = [] ∧ s.backup = none then
    some ({ s with backup := some c }.setCall c .holding)
  else none

/-- The rows as the backup's transaction sees them, with the objects that there are. -/
def snapshot (s : System) (c : ℕ) : Option System :=
  match s.calls c with
  | some .holding => some (s.setCall c (.copying s.rows fun k => (s.objects k).isSome))
  | _ => none

/-- One step. A call may end at any point, with its locks. -/
def step (s : System) : Op → Option System
  | .tick n => some { s with now := s.now + n }
  | .trash d => if s.status d = .active then some (s.setStatus d .deleting) else none
  | .restore d => if s.status d = .deleting then some (s.setStatus d .active) else none
  | .put c d digest => s.put c d digest
  | .complete c => s.complete c
  | .writeBase c d digest => s.writeBase c d digest
  | .activate c => s.activate c
  | .acquire c d tree => s.acquire c d tree
  | .look c => s.look c
  | .adopt c => s.adopt c
  | .attach c => s.attach c
  | .trim d referenced => some (s.trim d referenced)
  | .enter c => s.enter c
  | .list c page => s.list c page
  | .filter c => s.filter c
  | .lock c => s.lock c
  | .check c => s.check c
  | .sweep c => s.sweep c
  | .listDue c keys => s.listDue c keys
  | .removeBase c => s.removeBase c
  | .removeRow c => s.removeRow c
  | .claim d => if s.status d = .deleting then some (s.setStatus d .purging) else none
  | .collect c d => s.collect c d
  | .purge c => s.purge c
  | .finish c => s.finish c
  | .beginBackup c => s.beginBackup c
  | .snapshot c => s.snapshot c
  | .drop c => if s.calls c = none then none else some (s.endCall c)

/-- Nothing is stored, and nothing runs. -/
def empty : System :=
  ⟨0, 0, fun _ => none, [], fun _ => .active, fun _ => none, fun _ => none, [], none⟩

/-- An object's row follows it by less than the sweep's grace. -/
def InTime (s : System) : Op → Prop
  | .complete c | .activate c => ∀ call, s.calls c = some call →
      ∀ x ∈ call.staged, s.now < x.written + grace
  | _ => True

end System
end LibrePaper.Objects
