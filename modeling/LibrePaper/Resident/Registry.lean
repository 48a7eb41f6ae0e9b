import Mathlib

/-!
# The registry of resident sequencers

A call of `get` finds its document's sequencer in the resident table or admits it under a
slot that it shares with the other callers of that document; sweeps take sequencers out
again. Every hold of a lock is one step, and the steps of all calls and sweeps interleave
in any order.
-/
namespace LibrePaper.Resident

/-- What the registry reads of a sequencer. -/
structure Sequencer where
  document : ℕ
  fenced : Bool
  buffered : ℕ
  subscribers : ℕ
deriving DecidableEq

/-- The state that a sweep looks for. -/
def Sequencer.idle (s : Sequencer) : Bool := s.subscribers == 0 && s.buffered == 0

/-- Where a call is: before the resident table, before the table of admissions, at a slot,
or back with a sequencer. -/
inductive Pc where
  | start
  | queueing
  | waiting (slot : ℕ)
  | checking (slot : ℕ)
  | rechecking (slot : ℕ)
  | admitting (slot : ℕ)
  | inserting (slot sequencer : ℕ)
  | releasing (slot : ℕ) (result : Option ℕ)
  | holding (sequencer : ℕ)
  | finished
deriving DecidableEq

/-- The slot that a call has a clone of. -/
@[simp] def Pc.slot : Pc → Option ℕ
  | .waiting σ | .checking σ | .rechecking σ | .admitting σ | .inserting σ _ | .releasing σ _ =>
    some σ
  | .start | .queueing | .holding _ | .finished => none

/-- The slot whose lock a call holds. -/
@[simp] def Pc.locks : Pc → Option ℕ
  | .checking σ | .rechecking σ | .admitting σ | .inserting σ _ | .releasing σ _ => some σ
  | .start | .queueing | .waiting _ | .holding _ | .finished => none

/-- The slot that a call has found to be the mapped one. -/
@[simp] def Pc.current : Pc → Option ℕ
  | .rechecking σ | .admitting σ | .inserting σ _ | .releasing σ _ => some σ
  | .start | .queueing | .waiting _ | .checking _ | .holding _ | .finished => none

/-- The sequencer that a call has admitted and not put in the table. -/
@[simp] def Pc.inserts : Pc → Option ℕ
  | .inserting _ q => some q
  | _ => none

/-- The sequencer that a call has a clone of, taken from the table or put there. -/
@[simp] def Pc.keeps : Pc → Option ℕ
  | .releasing _ r => r
  | .holding q => some q
  | _ => none

/-- Whether a call of `get` has not returned. -/
@[simp] def Pc.inFlight : Pc → Bool
  | .holding _ | .finished => false
  | _ => true

structure Caller where
  document : ℕ
  pc : Pc
deriving DecidableEq

/-- An admission slot: the document it was made for, and what has been admitted under it.
Its lock is held by the call that has taken it and not returned or begun again. -/
structure Slot where
  document : ℕ
  content : Option ℕ
deriving DecidableEq

/-- A sweep: the sequencers it still has to look at and the documents that it has found,
or the one sequencer that it asks about. -/
inductive Sweep where
  | idle (todo found : List ℕ)
  | fenced (todo found : List ℕ)
  | empty (candidate : ℕ) (sampled : Bool)
  | finished
deriving DecidableEq

/-- The clones that a sweep has. -/
@[simp] def Sweep.clones : Sweep → List ℕ
  | .idle todo _ => todo
  | .fenced todo _ => todo
  | .empty q _ => [q]
  | .finished => []

/-- Sequencers, slots, calls and sweeps are numbered as they come. `retired` records the
sequencers that were taken out while fenced, each with the number of calls by then. -/
structure Registry where
  made : ℕ
  sequencer : ℕ → Sequencer
  resident : ℕ → Option ℕ
  slots : ℕ
  slot : ℕ → Slot
  admitting : ℕ → Option ℕ
  calls : ℕ
  call : ℕ → Caller
  sweeps : ℕ
  sweep : ℕ → Sweep
  retired : List (ℕ × ℕ)

def Registry.empty : Registry where
  made := 0
  sequencer _ := ⟨0, false, 0, 0⟩
  resident _ := none
  slots := 0
  slot _ := ⟨0, none⟩
  admitting _ := none
  calls := 0
  call _ := ⟨0, .finished⟩
  sweeps := 0
  sweep _ := .finished
  retired := []

namespace Registry

/-- Whether anything still has a clone of a slot. -/
def alive (r : Registry) (σ : ℕ) : Bool :=
  decide (r.admitting (r.slot σ).document = some σ) ||
    (List.range r.calls).any fun k => decide ((r.call k).pc.slot = some σ)

/-- Whether a call holds the lock of a slot. -/
def locked (r : Registry) (σ : ℕ) : Bool :=
  (List.range r.calls).any fun k => decide ((r.call k).pc.locks = some σ)

/-- The clones that calls have of a sequencer. -/
def callers (r : Registry) (q : ℕ) : ℕ :=
  (List.range r.calls).countP fun k =>
    decide ((r.call k).pc.inserts = some q ∨ (r.call k).pc.keeps = some q)

/-- The clones in slots. -/
def filled (r : Registry) (q : ℕ) : ℕ :=
  (List.range r.slots).countP fun σ => r.alive σ && decide ((r.slot σ).content = some q)

/-- The clones that sweeps have. -/
def swept (r : Registry) (q : ℕ) : ℕ :=
  ((List.range r.sweeps).map fun i => (r.sweep i).clones.count q).sum

/-- How many clones of a sequencer there are. -/
def strongCount (r : Registry) (q : ℕ) : ℕ :=
  (if r.resident (r.sequencer q).document = some q then 1 else 0) + r.callers q + r.filled q +
    r.swept q

/-- Clones of every resident sequencer. -/
def all (r : Registry) : List ℕ :=
  (List.range r.made).filter fun q => decide (r.resident (r.sequencer q).document = some q)

def goes (r : Registry) (k : ℕ) (pc : Pc) : Registry :=
  { r with call := Function.update r.call k { r.call k with pc := pc } }

def starts (r : Registry) (c : Caller) : Registry :=
  { r with calls := r.calls + 1, call := Function.update r.call r.calls c }

def fills (r : Registry) (σ q : ℕ) : Registry :=
  { r with slot := Function.update r.slot σ { r.slot σ with content := some q } }

def opens (r : Registry) (document : ℕ) : Registry :=
  { r with
    slots := r.slots + 1
    slot := Function.update r.slot r.slots ⟨document, none⟩
    admitting := Function.update r.admitting document (some r.slots) }

def closes (r : Registry) (document : ℕ) : Registry :=
  { r with admitting := Function.update r.admitting document none }

def admits (r : Registry) (document : ℕ) : Registry :=
  { r with
    made := r.made + 1
    sequencer := Function.update r.sequencer r.made ⟨document, false, 0, 0⟩ }

def inserts (r : Registry) (document q : ℕ) : Registry :=
  { r with resident := Function.update r.resident document (some q) }

def touches (r : Registry) (q : ℕ) (s : Sequencer) : Registry :=
  { r with sequencer := Function.update r.sequencer q s }

def sets (r : Registry) (w : Sweep) : Registry :=
  { r with sweeps := r.sweeps + 1, sweep := Function.update r.sweep r.sweeps w }

def sweeping (r : Registry) (i : ℕ) (w : Sweep) : Registry :=
  { r with sweep := Function.update r.sweep i w }

/-- Takes a document's sequencer out of the table. -/
def removes (r : Registry) (document : ℕ) : Registry :=
  { r with
    resident := Function.update r.resident document none
    retired := match r.resident document with
      | some q => if (r.sequencer q).fenced then (q, r.calls) :: r.retired else r.retired
      | none => r.retired }

def find (r : Registry) (k : ℕ) : Option Registry :=
  match (r.call k).pc with
  | .start =>
    match r.resident (r.call k).document with
    | some existing => some (r.goes k (.holding existing))
    | none => some (r.goes k .queueing)
  | _ => none

def queue (r : Registry) (k : ℕ) : Option Registry :=
  match (r.call k).pc with
  | .queueing =>
    match r.admitting (r.call k).document with
    | some slot => some (r.goes k (.waiting slot))
    | none => some ((r.opens (r.call k).document).goes k (.waiting r.slots))
  | _ => none

def lock (r : Registry) (k : ℕ) : Option Registry :=
  match (r.call k).pc with
  | .waiting slot =>
    if r.locked slot then none
    else match (r.slot slot).content with
    | some existing => some (r.goes k (.holding existing))
    | none => some (r.goes k (.checking slot))
  | _ => none

def check (r : Registry) (k : ℕ) : Option Registry :=
  match (r.call k).pc with
  | .checking slot =>
    if r.admitting (r.call k).document = some slot then some (r.goes k (.rechecking slot))
    else some (r.goes k .start)
  | _ => none

/-- The second look at the resident table; a hit returns without releasing the slot. -/
def recheck (r : Registry) (k : ℕ) : Option Registry :=
  match (r.call k).pc with
  | .rechecking slot =>
    match r.resident (r.call k).document with
    | some existing => some ((r.fills slot existing).goes k (.holding existing))
    | none => some (r.goes k (.admitting slot))
  | _ => none

def admission (r : Registry) (k : ℕ) (admitted : Bool) : Option Registry :=
  match (r.call k).pc with
  | .admitting slot =>
    if admitted then some ((r.admits (r.call k).document).goes k (.inserting slot r.made))
    else some (r.goes k (.releasing slot none))
  | _ => none

def insert (r : Registry) (k : ℕ) : Option Registry :=
  match (r.call k).pc with
  | .inserting slot q =>
    some (((r.inserts (r.call k).document q).fills slot q).goes k (.releasing slot (some q)))
  | _ => none

/-- Removes the slot from `admitting` only if it is still the mapped one, and returns. -/
def releaseSlot (r : Registry) (k : ℕ) : Option Registry :=
  match (r.call k).pc with
  | .releasing slot result =>
    let left := if r.admitting (r.call k).document = some slot then r.closes (r.call k).document
      else r
    some (left.goes k (result.elim .finished .holding))
  | _ => none

def dropped (r : Registry) (k : ℕ) : Option Registry :=
  match (r.call k).pc with
  | .holding _ => some (r.goes k .finished)
  | _ => none

/-- The resident sequencer, with no admission. -/
def look (r : Registry) (document : ℕ) : Option Registry :=
  (r.resident document).map fun q => r.starts ⟨document, .holding q⟩

/-- A holder calls its sequencer. -/
def calling (r : Registry) (k : ℕ) (f : Sequencer → Sequencer) : Option Registry :=
  match (r.call k).pc with
  | .holding q => some (r.touches q (f (r.sequencer q)))
  | _ => none

/-- A sweep looks at one sequencer, and lets go of it unless it is the one asked about. -/
def sample (r : Registry) (i : ℕ) : Option Registry :=
  match r.sweep i with
  | .idle (q :: todo) found =>
    some (r.sweeping i (.idle todo
      (if (r.sequencer q).idle then found ++ [(r.sequencer q).document] else found)))
  | .fenced (q :: todo) found =>
    some (r.sweeping i (.fenced todo
      (if (r.sequencer q).fenced then found ++ [(r.sequencer q).document] else found)))
  | .empty q false => some (r.sweeping i (if (r.sequencer q).idle then .empty q true else .finished))
  | _ => none

/-- Takes a document's sequencer out when the table holds the only clone of it. -/
def removesIdle (r : Registry) (document : ℕ) : Registry :=
  match r.resident document with
  | some q => if r.strongCount q = 1 then r.removes document else r
  | none => r

/-- A sweep that has looked at everything takes out what it has found. -/
def finish (r : Registry) (i : ℕ) : Option Registry :=
  match r.sweep i with
  | .idle [] found => some ((found.foldl removesIdle r).sweeping i .finished)
  | .fenced [] found => some ((found.foldl removes r).sweeping i .finished)
  | .empty q true =>
    let document := (r.sequencer q).document
    if r.resident document = some q ∧ r.strongCount q = 2 then
      some ((r.removes document).sweeping i .finished)
    else some (r.sweeping i .finished)
  | _ => none

end Registry

def Sequencer.ingest (s : Sequencer) : Sequencer :=
  if s.fenced then s else { s with buffered := s.buffered + 1 }

def Sequencer.flush (take : ℕ) (s : Sequencer) : Sequencer :=
  { s with buffered := s.buffered - take }

def Sequencer.subscribe (s : Sequencer) : Sequencer :=
  if s.fenced then s else { s with subscribers := s.subscribers + 1 }

def Sequencer.unsubscribe (s : Sequencer) : Sequencer :=
  { s with subscribers := s.subscribers - 1 }

def Sequencer.fence (s : Sequencer) : Sequencer :=
  { s with fenced := true, subscribers := 0 }

inductive Op where
  | get (document : ℕ)
  | find (k : ℕ)
  | queue (k : ℕ)
  | lock (k : ℕ)
  | check (k : ℕ)
  | recheck (k : ℕ)
  | admission (k : ℕ) (admitted : Bool)
  | insert (k : ℕ)
  | releaseSlot (k : ℕ)
  | drop (k : ℕ)
  | resident (document : ℕ)
  | ingest (k : ℕ)
  | flush (k take : ℕ)
  | subscribe (k : ℕ)
  | unsubscribe (k : ℕ)
  | fence (k : ℕ)
  | retireIdle
  | retireFenced
  | retireEmpty (document : ℕ)
  | sample (i : ℕ)
  | finish (i : ℕ)
deriving DecidableEq

/-- One step of a call, of a holder or of a sweep. -/
def step (r : Registry) : Op → Option Registry
  | .get document => some (r.starts ⟨document, .start⟩)
  | .find k => r.find k
  | .queue k => r.queue k
  | .lock k => r.lock k
  | .check k => r.check k
  | .recheck k => r.recheck k
  | .admission k admitted => r.admission k admitted
  | .insert k => r.insert k
  | .releaseSlot k => r.releaseSlot k
  | .drop k => r.dropped k
  | .resident document => r.look document
  | .ingest k => r.calling k Sequencer.ingest
  | .flush k take => r.calling k (Sequencer.flush take)
  | .subscribe k => r.calling k Sequencer.subscribe
  | .unsubscribe k => r.calling k Sequencer.unsubscribe
  | .fence k => r.calling k Sequencer.fence
  | .retireIdle => some (r.sets (.idle r.all []))
  | .retireFenced => some (r.sets (.fenced r.all []))
  | .retireEmpty document => (r.resident document).map fun q => r.sets (.empty q false)
  | .sample i => r.sample i
  | .finish i => r.finish i

/-- The registries that are reached from an empty one by steps that `allowed` admits. -/
inductive Reachable (allowed : Registry → Op → Prop) : Registry → Prop
  | first : Reachable allowed .empty
  | step {r t : Registry} (op : Op) : Reachable allowed r → allowed r op → step r op = some t →
      Reachable allowed t

/-- Takes steps one after another. -/
def runOps (r : Registry) : List Op → Option Registry
  | [] => some r
  | op :: ops => (step r op).bind fun t => runOps t ops

/-- A run of steps that are allowed wherever they are taken. -/
lemma Reachable.runOps {allowed : Registry → Op → Prop} {r t : Registry} (ops : List Op)
    (h : Reachable allowed r) (hops : ∀ op ∈ ops, ∀ s, allowed s op)
    (hs : runOps r ops = some t) : Reachable allowed t := by
  induction ops generalizing r with
  | nil => exact Option.some.inj hs ▸ h
  | cons op ops ih =>
    obtain ⟨s, hstep, hrest⟩ := Option.bind_eq_some_iff.1 hs
    have hop := hops op List.mem_cons_self r
    exact ih (h.step op hop hstep) (fun o ho => hops o (List.mem_cons_of_mem op ho)) hrest

end LibrePaper.Resident
