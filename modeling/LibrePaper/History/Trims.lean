import LibrePaper.Library.Runs

/-!
# Trims of a document's history

A document's operations are counted. The durable base holds the history from its root on, and the
rows hold what came after it. A trim takes a shallow snapshot, makes it the base, and removes the
labels by a command of its own; edits, labels, archives and other compactions come in between.
-/
namespace LibrePaper.History
open Library

/-- A label by its number, at the count of operations that it names. -/
structure Label where
  id : ℕ
  frontier : ℕ
  requested : Bool
  archived : Bool
deriving DecidableEq

/-- The history of a base: after its root, and through its last operation. -/
structure Base where
  root : ℕ
  through : ℕ
deriving DecidableEq

/-- What a trim does next. -/
inductive Phase where
  | healing
  | capturing (frontier : ℕ)
  | writing (root taken : ℕ)
  | retaining
  | refused
deriving DecidableEq

/-- A trim, with the root of the base that it made and how many labels there had been at its
snapshot. -/
structure Trim where
  attempt : ℕ
  phase : Phase
  cut : Option (ℕ × ℕ)
deriving DecidableEq

inductive Call where
  | trim (t : Trim)
  | compact (snapshot : Base)
  | archive (label : ℕ)
  | done
deriving DecidableEq

/-- The document's head, what is stored of it, the root of the document in memory, the labels, and
the calls. -/
structure Project where
  head : ℕ
  stored : ℕ
  base : Base
  entry : Option ℕ
  labels : List Label
  made : ℕ
  calls : ℕ → Option Call

inductive Op where
  | edit (operations : ℕ)
  | flush
  | evict
  | crash
  | label (requested : Bool)
  | request (label : ℕ)
  | archive (call label : ℕ)
  | attach (call : ℕ)
  | compact (call : ℕ)
  | activateFull (call : ℕ)
  | trim (call : ℕ)
  | heal (call operations : ℕ)
  | capture (call : ℕ)
  | activate (call : ℕ) (lost : Bool)
  | retain (call : ℕ)
  | stop (call : ℕ)
deriving DecidableEq

/-- How often a trim tries to take its snapshot. -/
def attempts : ℕ := 3

namespace Trim

/-- The document moved, or the base did: the next attempt heals again. -/
def retry (t : Trim) : Trim :=
  if t.attempt + 1 < attempts then { t with attempt := t.attempt + 1, phase := .healing }
  else { t with phase := .refused }

end Trim

namespace Project

def setCall (s : Project) (c : ℕ) (call : Call) : Project :=
  { s with calls := Function.update s.calls c (some call) }

/-- The root of the document in memory, which is built from the base if it is not there. -/
def entryRoot (s : Project) : ℕ := s.entry.getD s.base.root

/-- Nothing waits to be stored. -/
def settled (s : Project) : Prop := s.stored = s.head

instance (s : Project) : Decidable s.settled := by
  unfold settled
  infer_instance

def updateLabel (s : Project) (id : ℕ) (f : Label → Label) : Project :=
  { s with labels := s.labels.map fun l => if l.id = id then f l else l }

/-- A label of the head, which is stored first. -/
def createLabel (s : Project) (requested : Bool) : Project :=
  { s with
    stored := s.head
    labels := s.labels ++ [⟨s.made, s.head, requested, false⟩]
    made := s.made + 1 }

/-- The worker projects a label that is to be archived. -/
def archive (s : Project) (c id : ℕ) : Option Project :=
  if s.calls c = none ∧ ∃ l ∈ s.labels, l.id = id ∧ l.requested = true ∧ l.archived = false ∧
      s.entryRoot ≤ l.frontier then
    some ({ s with entry := some s.entryRoot }.setCall c (.archive id))
  else none

def attach (s : Project) (c : ℕ) : Option Project :=
  match s.calls c with
  | some (.archive id) =>
    some ((s.updateLabel id fun l => { l with archived := true }).setCall c .done)
  | _ => none

/-- Another compaction exports the document in memory whole. -/
def compact (s : Project) (c : ℕ) : Option Project :=
  if s.calls c = none ∧ s.settled ∧ 0 < s.stored then
    some ({ s with entry := some s.entryRoot }.setCall c (.compact ⟨s.entryRoot, s.stored⟩))
  else none

/-- A base is not moved back, nor replaced by another of the same rows. -/
def activateFull (s : Project) (c : ℕ) : Option Project :=
  match s.calls c with
  | some (.compact snapshot) =>
    some ((if snapshot.through ≤ s.base.through then s
      else { s with base := snapshot }).setCall c .done)
  | _ => none

/-- Heals the comment anchors, and reads the frontier that it leaves. -/
def heal (s : Project) (c operations : ℕ) : Option Project :=
  match s.calls c with
  | some (.trim t) =>
    if t.phase = .healing then
      some ({ s with head := s.head + operations, stored := s.head + operations }.setCall c
        (.trim { t with phase := .capturing (s.head + operations) }))
    else none
  | _ => none

/-- Takes a shallow snapshot, if the head is still where the healing left it. -/
def capture (s : Project) (c : ℕ) : Option Project :=
  match s.calls c with
  | some (.trim t) =>
    match t.phase with
    | .capturing frontier =>
      if s.settled ∧ s.head = frontier ∧ 0 < s.stored then
        some ({ s with entry := some s.entryRoot }.setCall c
          (.trim { t with phase := .writing frontier s.made }))
      else some (s.setCall c (.trim t.retry))
    | _ => none
  | _ => none

/-- Makes the shallow snapshot the base. When the reply is lost the trim tries again. -/
def activate (s : Project) (c : ℕ) (lost : Bool) : Option Project :=
  match s.calls c with
  | some (.trim t) =>
    match t.phase with
    | .writing root taken =>
      if root < s.base.through then some (s.setCall c (.trim t.retry))
      else if lost then
        some ({ s with base := ⟨root, root⟩ }.setCall c
          (.trim { t with cut := some (root, taken) }.retry))
      else
        some ({ s with base := ⟨root, root⟩, entry := none }.setCall c
          (.trim { t with cut := some (root, taken), phase := .retaining }))
    | _ => none
  | _ => none

/-- Removes every label and archive. -/
def retain (s : Project) (c : ℕ) : Option Project :=
  match s.calls c with
  | some (.trim t) =>
    if t.phase = .retaining then some ({ s with labels := [] }.setCall c .done) else none
  | _ => none

/-- One step. A call may stop at any point, and a crash stops all of them. -/
def step (s : Project) : Op → Option Project
  | .edit n => some { s with head := s.head + n }
  | .flush => some { s with stored := s.head }
  | .evict => if s.settled then some { s with entry := none } else none
  | .crash => some { s with head := s.stored, entry := none, calls := fun _ => none }
  | .label requested => some (s.createLabel requested)
  | .request id => some (s.updateLabel id fun l => { l with requested := true })
  | .archive c id => s.archive c id
  | .attach c => s.attach c
  | .compact c => s.compact c
  | .activateFull c => s.activateFull c
  | .trim c => if s.calls c = none then some (s.setCall c (.trim ⟨0, .healing, none⟩)) else none
  | .heal c n => s.heal c n
  | .capture c => s.capture c
  | .activate c lost => s.activate c lost
  | .retain c => s.retain c
  | .stop c => if s.calls c = none then none else some (s.setCall c .done)

/-- A new document. -/
def empty : Project := ⟨0, 0, ⟨0, 0⟩, none, [], 0, fun _ => none⟩

end Project
end LibrePaper.History
