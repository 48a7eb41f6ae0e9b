import LibrePaper.Library.Waiting
import LibrePaper.Library.Runs

/-!
# The offline copy of a project

The tabs of a browser share a database with one record and a list of updates for each key. A tab
imports what is stored, then writes the operations after the vector that it takes as stored. The
transactions of different tabs interleave, and so do edits with all of them.
-/
namespace LibrePaper.Offline
open Library

variable {K T Op : Type*} [DecidableEq K] [DecidableEq T] [DecidableEq Op]

/-- A record of the states store. The first version is a bare update, and the second keeps updates
of its own. -/
inductive Saved (Op : Type*) where
  | one (update : Finset Op)
  | two (snapshot : Option (Finset Op)) (updates : List (Finset Op))
      (vector : Option (Finset Op))
  | three (snapshot vector : Option (Finset Op))
deriving DecidableEq

namespace Saved

def snapshot : Saved Op → Option (Finset Op)
  | one update => some update
  | two snapshot _ _ => snapshot
  | three snapshot _ => snapshot

def updates : Saved Op → List (Finset Op)
  | two _ updates _ => updates
  | _ => []

def vector : Saved Op → Option (Finset Op)
  | one _ => none
  | two _ _ vector => vector
  | three _ vector => vector

/-- What a tab imports of a record, in order. -/
def imports (r : Saved Op) : List (Finset Op) := r.snapshot.toList ++ r.updates

/-- The snapshot and vector that a record has in the third version. -/
def upgraded : Option (Saved Op) → Option (Finset Op) × Option (Finset Op)
  | some (three snapshot vector) => (snapshot, vector)
  | current => (current.bind snapshot, none)

end Saved

/-- A stored update, under the tab that wrote it and its count. -/
structure Entry (K T Op : Type*) where
  project : K
  id : T × ℕ
  update : Finset Op
  bytes : ℕ
deriving DecidableEq

structure Database (K T Op : Type*) where
  states : K → Option (Saved Op)
  updates : List (Entry K T Op)

def compactAfterUpdates : ℕ := 64

def compactAfterBytes : ℕ := 4 * 1024 * 1024

namespace Database

def updatesFor (d : Database K T Op) (key : K) : List (Entry K T Op) :=
  d.updates.filter (·.project = key)

/-- The updates stored under a key. -/
def pending (d : Database K T Op) (key : K) : List (Finset Op) :=
  (d.updatesFor key).map (·.update)

/-- The record under a key, as it is imported. -/
def recorded (d : Database K T Op) (key : K) : List (Finset Op) :=
  (d.states key).elim [] Saved.imports

/-- An empty document with everything stored under a key imported. -/
def restore (c : Causality Op) (d : Database K T Op) (key : K) : Holder Op :=
  Holder.empty.receiveAll c (d.recorded key ++ d.pending key)

/-- The write's transaction: one more update is stored, and once there are many, they become one
snapshot. -/
def put (c : Causality Op) (size : Finset Op → ℕ) (d : Database K T Op) (key : K) (id : T × ℕ)
    (update : Finset Op) : Database K T Op :=
  let pending := d.updatesFor key
  let entry : Entry K T Op := ⟨key, id, update, size update⟩
  let count := pending.length + 1
  let bytes := (pending.map (·.bytes)).sum + size update
  let next := Saved.upgraded (d.states key)
  if next.1 = none ∨ compactAfterUpdates ≤ count ∨ compactAfterBytes ≤ bytes then
    let merging := Holder.empty.receiveAll c
      (next.1.toList ++ pending.map (·.update) ++ [update])
    { states := Function.update d.states key (some (.three (some merging.held) (some merging.held)))
      updates := (d.updates ++ [entry]).filter fun e =>
        ¬(e.project = key ∧ e.id ∈ (pending ++ [entry]).map (·.id)) }
  else
    { states := Function.update d.states key (some (.three next.1 next.2))
      updates := d.updates ++ [entry] }

/-- The migration's transaction moves a record from the legacy key. -/
def migrate (d : Database K T Op) (saved : Saved Op) (key legacyKey : K) : Database K T Op :=
  { d with states := Function.update (Function.update d.states key (some saved)) legacyKey none }

end Database

/-- Where a tab stands in reading what is stored. -/
inductive Hydration (Op : Type*) where
  | opening
  | legacy
  | migrating (saved : Saved Op)
  | found (saved : Option (Saved Op))
  | reading
  | taken (pending : List (Finset Op))
  | done
deriving DecidableEq

/-- A write in flight, with what the document held when it began, the version it stores and the
update it exported. -/
inductive Write (Op : Type*) where
  | begun (began : Finset Op)
  | captured (began version update : Finset Op)
  | committed (began version : Finset Op)
deriving DecidableEq

/-- A tab's document and its flags. The flushes are kept by what the document held when they
began: those before their check, those that await a write, and those whose write is stored. -/
structure Tab (K Op : Type*) where
  key : K
  legacyKey : Option K
  doc : Holder Op
  closed : Bool
  dirty : Bool
  stored : Bool
  persistedVector : Option (Finset Op)
  hydration : Hydration Op
  writing : Option (Write Op)
  rejected : Bool
  batch : ℕ
  flushing : List (Finset Op)
  awaiting : List (Finset Op)
  answered : List (Finset Op)

namespace Tab

/-- A write begins, unless one is in flight or there is nothing to write. -/
def putState (t : Tab K Op) : Tab K Op :=
  if t.closed = true ∨ t.writing.isSome = true ∨ t.dirty = false then t
  else { t with dirty := false, writing := some (.begun t.doc.held) }

/-- What the document's subscription does. -/
def changed (t : Tab K Op) : Tab K Op :=
  if t.closed = true then t else putState { t with dirty := true }

/-- The key's record is read. -/
def readKey (t : Tab K Op) (saved : Option (Saved Op)) : Tab K Op :=
  { t with hydration := match saved, t.legacyKey with
      | none, some legacyKey => if legacyKey = t.key then .found none else .legacy
      | _, _ => .found saved }

def readLegacy (t : Tab K Op) (saved : Option (Saved Op)) : Tab K Op :=
  { t with hydration := saved.elim (.found none) .migrating }

/-- The record found is imported. Without a vector of its own, the document's is taken as stored. -/
def importSaved (c : Causality Op) (t : Tab K Op) (saved : Option (Saved Op)) : Tab K Op :=
  match saved with
  | none => { t with hydration := .done }
  | some saved =>
    if t.closed = true then { t with hydration := .done }
    else
      let doc := t.doc.receiveAll c saved.imports
      { t with
        doc := doc
        stored := true
        persistedVector := some (saved.vector.getD doc.held)
        hydration := .reading }

/-- The updates found are imported, and what the document then holds is taken as stored. -/
def importPending (c : Causality Op) (t : Tab K Op) (pending : List (Finset Op)) : Tab K Op :=
  let doc := t.doc.receiveAll c pending
  { t with
    doc := doc
    persistedVector := if pending = [] then t.persistedVector else some doc.held
    hydration := .done }

/-- The version to store, and the operations after the vector that is taken as stored. -/
def capture (t : Tab K Op) (began : Finset Op) : Tab K Op :=
  { t with
    batch := t.batch + 1
    writing := some (.captured began t.doc.held (t.doc.held \ t.persistedVector.getD ∅)) }

/-- A write fails, and with it every flush that awaits it. -/
def fail (t : Tab K Op) : Tab K Op := { t with writing := none, rejected := true, awaiting := [] }

/-- A write is over. Another one begins if the document changed meanwhile; a closed tab has none to
begin, and the write then awaits itself. -/
def settle (t : Tab K Op) (version : Finset Op) : Tab K Op :=
  let t := { t with persistedVector := some version, stored := true, writing := none }
  if t.dirty = false then
    { t with rejected := false, awaiting := [], answered := t.awaiting ++ t.answered }
  else if t.closed = true then t.fail
  else t.putState

/-- A flush compares the document with what is taken as stored. -/
def look (t : Tab K Op) (asked : Finset Op) : Tab K Op :=
  { t with
    flushing := t.flushing.erase asked
    dirty := t.dirty || !t.stored || t.persistedVector ≠ some t.doc.held }

/-- A flush looks, writes if there is anything to write, and awaits the write. -/
def check (t : Tab K Op) (asked : Finset Op) : Tab K Op :=
  let t := (t.look asked).putState
  if t.writing.isSome = true then { t with awaiting := asked :: t.awaiting }
  else if t.rejected = true then t
  else { t with answered := asked :: t.answered }

/-- A flush completes. -/
def finish (t : Tab K Op) (asked : Finset Op) : Tab K Op :=
  { t with answered := t.answered.erase asked }

end Tab

/-- The database and the tabs, with what the last step reported: a tab and the operations that the
tab's document held when the write or the flush began. -/
structure State (K T Op : Type*) where
  database : Database K T Op
  tabs : T → Tab K Op
  report : Option (T × Finset Op)

inductive Action (T Op : Type*) where
  | edit (t : T) (o : Op)
  | receive (t : T) (ops : Finset Op)
  | notify (t : T)
  | close (t : T)
  | readKey (t : T)
  | readLegacy (t : T)
  | migrate (t : T)
  | importSaved (t : T)
  | readPending (t : T)
  | importPending (t : T)
  | failHydration (t : T)
  | capture (t : T)
  | commit (t : T)
  | failWrite (t : T)
  | settle (t : T)
  | flush (t : T)
  | check (t : T) (asked : Finset Op)
  | finish (t : T) (asked : Finset Op)

namespace State

/-- One tab is changed, and nothing reported. -/
def setTab (s : State K T Op) (t : T) (tab : Tab K Op) : State K T Op :=
  { s with tabs := Function.update s.tabs t tab, report := none }

def step (c : Causality Op) (size : Finset Op → ℕ) (s : State K T Op) :
    Action T Op → Option (State K T Op)
  | .edit t o =>
    let tab := s.tabs t
    if c.needs o ⊆ tab.doc.held then
      some (s.setTab t { tab with doc := tab.doc.receive c {o} })
    else none
  | .receive t ops =>
    let tab := s.tabs t
    some (s.setTab t { tab with doc := tab.doc.receive c ops })
  | .notify t => if (s.tabs t).hydration = .done then some (s.setTab t (s.tabs t).changed) else none
  | .close t => some (s.setTab t { s.tabs t with closed := true })
  | .readKey t =>
    if (s.tabs t).hydration = .opening then
      some (s.setTab t ((s.tabs t).readKey (s.database.states (s.tabs t).key)))
    else none
  | .readLegacy t => match (s.tabs t).hydration, (s.tabs t).legacyKey with
    | .legacy, some legacyKey =>
      some (s.setTab t ((s.tabs t).readLegacy (s.database.states legacyKey)))
    | _, _ => none
  | .migrate t => match (s.tabs t).hydration, (s.tabs t).legacyKey with
    | .migrating saved, some legacyKey =>
      some { s.setTab t { s.tabs t with hydration := .found (some saved) } with
        database := s.database.migrate saved (s.tabs t).key legacyKey }
    | _, _ => none
  | .importSaved t => match (s.tabs t).hydration with
    | .found saved => some (s.setTab t ((s.tabs t).importSaved c saved))
    | _ => none
  | .readPending t =>
    if (s.tabs t).hydration = .reading then
      some (s.setTab t { s.tabs t with
        hydration := .taken (s.database.pending (s.tabs t).key) })
    else none
  | .importPending t => match (s.tabs t).hydration with
    | .taken pending => some (s.setTab t ((s.tabs t).importPending c pending))
    | _ => none
  | .failHydration t =>
    if (s.tabs t).hydration ≠ .done then some (s.setTab t { s.tabs t with hydration := .done })
    else none
  | .capture t => match (s.tabs t).writing with
    | some (.begun began) => some (s.setTab t ((s.tabs t).capture began))
    | _ => none
  | .commit t => match (s.tabs t).writing with
    | some (.captured began version update) =>
      some { s.setTab t { s.tabs t with writing := some (.committed began version) } with
        database := s.database.put c size (s.tabs t).key (t, (s.tabs t).batch) update }
    | _ => none
  | .failWrite t => match (s.tabs t).writing with
    | some (.begun _) | some (.captured ..) => some (s.setTab t (s.tabs t).fail)
    | _ => none
  | .settle t => match (s.tabs t).writing with
    | some (.committed began version) =>
      some { s.setTab t ((s.tabs t).settle version) with
        report := if (s.tabs t).dirty = false then some (t, began) else none }
    | _ => none
  | .flush t =>
    let tab := s.tabs t
    some (s.setTab t { tab with flushing := tab.doc.held :: tab.flushing })
  | .check t asked =>
    if (s.tabs t).hydration = .done ∧ asked ∈ (s.tabs t).flushing then
      some (s.setTab t ((s.tabs t).check asked))
    else none
  | .finish t asked =>
    if asked ∈ (s.tabs t).answered then
      some { s.setTab t ((s.tabs t).finish asked) with report := some (t, asked) }
    else none

end State
end LibrePaper.Offline
