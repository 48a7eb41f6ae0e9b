import LibrePaper.Objects.Store

/-!
# Figures of a project

A project names figures by path, under the digest of their bytes. An upload writes the bytes and a
row, and an edit names the digest later. Restores, replacements and changes of the source name
digests by commands of their own, and a trim drops rows that the head does not name.
-/
namespace LibrePaper.Figures
open Objects

/-- The project's document, the objects and rows, the figures that the head and the stored
document name, whether edits wait to be stored, whether the stored document is ahead of the one in
memory, and the uploads that are committed or acknowledged, with the time. -/
structure Project where
  document : ℕ
  store : System
  head : List (String × ℕ)
  stored : List (String × ℕ)
  buffered : Bool
  behind : Bool
  waiting : ℕ → Option ℕ
  acknowledged : List (ℕ × ℕ)

inductive Op where
  | store (o : Objects.Op)
  | edit (path : String) (digest : Option ℕ)
  | flush
  | reload
  | upload (call : ℕ) (lost : Bool)
  | acknowledge (call : ℕ)
  | replace (call : ℕ) (names : List (String × ℕ)) (lost : Bool)
  | restore (names : List (String × ℕ)) (lost : Bool)
  | putBinary (path : String) (digest : ℕ) (lost : Bool)
  | trim (lost : Bool)
deriving DecidableEq

/-- The figures with one named, or no longer named, under a path. -/
def name (names : List (String × ℕ)) (path : String) (digest : Option ℕ) : List (String × ℕ) :=
  names.filter (fun n => n.1 ≠ path) ++ (digest.map fun d => (path, d)).toList

namespace Project

/-- A step of the store that is not the project's own: it completes no upload of the project,
trims none of its history and does not delete it. -/
def Elsewhere (s : Project) : Objects.Op → Prop
  | .trim d _ | .trash d => d ≠ s.document
  | .complete c => match s.store.calls c with
    | some (.upload d _) => d ≠ s.document
    | _ => True
  | _ => True

instance (s : Project) (o : Objects.Op) : Decidable (s.Elsewhere o) := by
  unfold Elsewhere
  split
  · infer_instance
  · infer_instance
  · split <;> infer_instance
  · infer_instance

/-- A command that changes no source stores the edits that wait, and is refused if there are any
and the stored document is ahead. -/
def command (s : Project) (store : System) (lost : Bool) : Option Project :=
  if s.buffered = false then some { s with store := store }
  else if s.behind = true then none
  else if lost then some { s with store := store, stored := s.head, behind := true }
  else some { s with store := store, stored := s.head, buffered := false }

/-- A command that changes the source. When its reply is lost, the document in memory stays as it
was. -/
def commandSource (s : Project) (store : System) (names : List (String × ℕ)) (lost : Bool) :
    Option Project :=
  if s.behind = true then none
  else if lost then some { s with store := store, stored := names, behind := true }
  else some { s with store := store, head := names, stored := names, buffered := false }

/-- An upload's row is committed. Its digest is answered with later, if the reply was not lost. -/
def upload (s : Project) (c : ℕ) (lost : Bool) : Option Project :=
  match s.store.calls c with
  | some (.upload d [x]) =>
    if d = s.document then
      (s.store.complete c).bind fun store => (s.command store lost).map fun t =>
        if lost then t else { t with waiting := Function.update t.waiting c (some x.digest) }
    else none
  | _ => none

def acknowledge (s : Project) (c : ℕ) : Option Project :=
  (s.waiting c).map fun digest => { s with
    waiting := Function.update s.waiting c none
    acknowledged := (digest, s.store.now) :: s.acknowledged }

/-- Every digest has a row. -/
def AllPresent (s : Project) (store : System) (names : List (String × ℕ)) : Prop :=
  ∀ n ∈ names, store.HasAsset s.document n.2

instance (s : Project) (store : System) (names : List (String × ℕ)) :
    Decidable (s.AllPresent store names) := by
  unfold AllPresent
  infer_instance

/-- The rows for what the replacement has written. -/
def completed (s : Project) (c : ℕ) : Option System :=
  match s.store.calls c with
  | none => some s.store
  | some (.upload d _) => if d = s.document then s.store.complete c else none
  | _ => none

def replace (s : Project) (c : ℕ) (names : List (String × ℕ)) (lost : Bool) : Option Project :=
  (s.completed c).bind fun store =>
    if s.AllPresent store names then s.commandSource store names lost else none

def restore (s : Project) (names : List (String × ℕ)) (lost : Bool) : Option Project :=
  if s.AllPresent s.store names then s.commandSource s.store names lost else none

def digests (s : Project) : List ℕ := s.head.map Prod.snd

def step (s : Project) : Op → Option Project
  | .store o => if s.Elsewhere o then
      (s.store.step o).map fun store => { s with store := store }
    else none
  | .edit path digest => some { s with head := name s.head path digest, buffered := true }
  | .flush => if s.behind = true then none
    else some { s with stored := s.head, buffered := false }
  | .reload => some { s with head := s.stored, buffered := false, behind := false }
  | .upload c lost => s.upload c lost
  | .acknowledge c => s.acknowledge c
  | .replace c names lost => s.replace c names lost
  | .restore names lost => s.restore names lost
  | .putBinary path digest lost => s.commandSource s.store (name s.head path (some digest)) lost
  | .trim lost => s.command (s.store.trim s.document s.digests) lost

/-- A new project. -/
def start (document : ℕ) : Project :=
  ⟨document, System.empty, [], [], false, false, fun _ => none, []⟩

/-- Uploaded, and answered with at most an hour ago. -/
def Fresh (s : Project) (digest : ℕ) : Prop :=
  ∃ a ∈ s.acknowledged, a.1 = digest ∧ s.store.now ≤ a.2 + 3600

/-- Edits name what was uploaded within the hour. -/
def Prompt (s : Project) : Op → Prop
  | .edit _ (some digest) => s.Fresh digest
  | _ => True

end Project
end LibrePaper.Figures
