import LibrePaper.Library.Vectors

/-!
# A document as one client holds it

The state of `createProjectSession` and what each of its entry points does to it. Loro
is a parameter with the few laws that the session relies on. A call returns the state
after it and what it did on the way, in order: updates imported, messages handed to the
transport, and reports of whether this browser's work is safe. A join step is an
asynchronous function; it runs one turn at a time, from one `await` to the next.
-/
namespace LibrePaper.Client
open Library

/-- The Loro document: a local edit returns the update that carries it, an export holds
everything beyond the given vector. -/
structure Replica (P : Type) [DecidableEq P] where
  Doc : Type
  Update : Type
  Edit : Type
  blank : Doc
  oplogVersion : Doc → VersionVector P
  importUpdate : Doc → Update → Doc
  edit : Doc → Edit → Doc × Update
  exportFrom : Doc → VersionVector P → Update
  start : Update → VersionVector P
  stop : Update → VersionVector P
  sha256Hex : Update → String
  blank_version : operations (oplogVersion blank) = ∅
  import_mono : ∀ d u, operations (oplogVersion d) ⊆ operations (oplogVersion (importUpdate d u))
  edit_version : ∀ d e, operations (oplogVersion (edit d e).1) =
    operations (oplogVersion d) ∪ operations (stop (edit d e).2)
  export_covers : ∀ d v,
    operations (oplogVersion d) ⊆ operations v ∪ operations (stop (exportFrom d v))

/-- The options of a session. `adapter` says that a persistence adapter restores a local
copy after the session was opened. -/
structure Config where
  mayEdit : Bool
  standalone : Bool
  adapter : Bool
  canFetch : Bool
deriving DecidableEq

variable {P : Type} [DecidableEq P]

/-- The server's answer to `doc-open`, or its first part. -/
structure DocState (R : Replica P) where
  protocol : String
  vector : Option (VersionVector P)
  durableVector : Option (VersionVector P)
  ref : Option String
  digest : Option String
  base : Option R.Update
  updates : List R.Update

/-- The rows that the vector of `doc-open` did not cover. -/
structure DocRows (R : Replica P) where
  protocol : String
  vector : Option (VersionVector P)
  durableVector : Option (VersionVector P)
  updates : List R.Update

inductive JoinFrame (R : Replica P) where
  | state (frame : DocState R)
  | rows (frame : DocRows R)

def JoinFrame.vector {R : Replica P} : JoinFrame R → Option (VersionVector P)
  | .state f => f.vector
  | .rows f => f.vector

def JoinFrame.durableVector {R : Replica P} : JoinFrame R → Option (VersionVector P)
  | .state f => f.durableVector
  | .rows f => f.durableVector

def JoinFrame.updates {R : Replica P} : JoinFrame R → List R.Update
  | .state f => f.updates
  | .rows f => f.updates

def JoinFrame.protocol {R : Replica P} : JoinFrame R → String
  | .state f => f.protocol
  | .rows f => f.protocol

/-- Where a join step waits. -/
inductive Stage (R : Replica P) where
  | queued
  | hydrating
  | fetching
  | hashing (referenced : R.Update)

/-- A join step: `mark` is the connection it was scheduled on, `arrival` the number of
join frames that came before its own. -/
structure JoinStep (R : Replica P) where
  mark : ℕ
  arrival : ℕ
  frame : JoinFrame R
  stage : Stage R

/-- The answer to the request for a referenced base. -/
inductive Fetched (R : Replica P) where
  | bytes (referenced : R.Update)
  | restartBaseline
  | failed

inductive Failure where
  | newerVersion
  | cannotFetchReference
  | fetch
  | integrity
deriving DecidableEq

inductive Message (R : Replica P) where
  | docOpen (vector : VersionVector P)
  | docUpdate (update : R.Update) (seq : ℕ)
  | docPresence

structure Report where
  pending : ℕ
  isLocal : Bool
  localPending : ℕ
  localError : String
  joined : Bool
deriving DecidableEq

inductive Effect (R : Replica P) where
  | imported (update : R.Update)
  | sent (message : Message R)
  | reported (reading : Report)
  | rejected (why : Failure)

/-- The session. `hydrating` says that the adapter's promise is unresolved, `gate` is the
chain of join steps, `abandoned` the chains that a dropped connection left behind, and
`pressureTimer` holds the delay of the armed retry. -/
structure Session (R : Replica P) where
  doc : R.Doc
  saveTarget : Option (VersionVector P)
  durableCoverage : Option (VersionVector P)
  hydrating : Bool
  hydrationCaptured : Bool
  remoteDuringHydration : List R.Update
  unacknowledged : List ℕ
  seq : ℕ
  joined : Bool
  left : Bool
  announced : Bool
  isLocal : Bool
  localPending : ℕ
  localError : String
  pressureTimer : Option ℕ
  pressureDelay : ℕ
  pressureVector : Option (VersionVector P)
  generation : ℕ
  arrivals : ℕ
  gate : List (JoinStep R)
  abandoned : List (List (JoinStep R))

variable {R : Replica P}

def PRESSURE_RETRY_MS : ℕ := 1000
def PRESSURE_RETRY_MAX_MS : ℕ := 30000
def PROTOCOL : String := "librepaper.room.v3"

/-- The elementwise maximum; a vector that is not there counts for nothing. -/
def mergeVectors : Option (VersionVector P) → Option (VersionVector P) → VersionVector P
  | none, second => second.getD ∅
  | some first, none => first
  | some first, some second => merge first second

def rememberLocalTarget (c : Config) (s : Session R) : Session R :=
  if c.mayEdit then
    { s with saveTarget := some (mergeVectors s.saveTarget (some (R.oplogVersion s.doc))) }
  else s

def captureHydratedTarget (c : Config) (s : Session R) : Session R :=
  if s.hydrationCaptured || !c.mayEdit then s
  else { rememberLocalTarget c s with hydrationCaptured := true }

def coveredByDurable (s : Session R) : Bool :=
  match s.saveTarget with
  | none => true
  | some target =>
    target.entries.isEmpty ||
      match s.durableCoverage with
      | none => false
      | some coverage => covers coverage target

def mergeDurableCoverage (vector : Option (VersionVector P)) (s : Session R) : Session R :=
  match vector with
  | none => s
  | some next => { s with durableCoverage := some (mergeVectors s.durableCoverage (some next)) }

/-- What the session says of itself. -/
def reading (c : Config) (s : Session R) : Report where
  pending :=
    if c.standalone then s.localPending
    else if c.mayEdit && !coveredByDurable s then 1 else 0
  isLocal := s.isLocal
  localPending := s.localPending
  localError := s.localError
  joined := s.joined

/-- A session that has been left has nobody to report to. -/
def report (c : Config) (s : Session R) : List (Effect R) :=
  if s.left then [] else [.reported (reading c s)]

def openMessage (s : Session R) : Message R := .docOpen (R.oplogVersion s.doc)

/-- One call after another, with what both did. -/
def andThen (first : Session R × List (Effect R))
    (next : Session R → Session R × List (Effect R)) : Session R × List (Effect R) :=
  ((next first.1).1, first.2 ++ (next first.1).2)

def importBatch (updates : List R.Update) (s : Session R) : Session R × List (Effect R) :=
  ({ s with doc := updates.foldl R.importUpdate s.doc }, updates.map .imported)

def flushRemoteDuringHydration (s : Session R) : Session R × List (Effect R) :=
  importBatch s.remoteDuringHydration { s with remoteDuringHydration := [] }

/-- Everything this browser has beyond `vector`, as one update. -/
def catchUp (c : Config) (vector : Option (VersionVector P)) (s : Session R) :
    Session R × List (Effect R) :=
  let whole := R.exportFrom s.doc (vector.getD ∅)
  let s := { s with seq := s.seq + 1, unacknowledged := [s.seq + 1] }
  (s, report c s ++ [.sent (.docUpdate whole s.seq)])

def announcePresence (c : Config) (s : Session R) : Session R × List (Effect R) :=
  if !c.mayEdit || s.left || s.announced then (s, [])
  else ({ s with announced := true }, [.sent .docPresence])

/-- The join is finished only when the local graph covers the advertised head. -/
def finishJoin (c : Config) (vector durableVector : Option (VersionVector P)) (s : Session R) :
    Session R × List (Effect R) :=
  let s := mergeDurableCoverage durableVector s
  if !covers (R.oplogVersion s.doc) (vector.getD ∅) then (s, report c s)
  else
    andThen (announcePresence c { s with joined := true }) fun s =>
      if c.mayEdit then catchUp c vector s else (s, report c s)

/-- What a join step does with its frame once it has everything: the base, then the
rows, then what was relayed meanwhile, then the end of the join. -/
def receive (c : Config) (base : List R.Update) (frame : JoinFrame R) (s : Session R) :
    Session R × List (Effect R) :=
  andThen (importBatch (base ++ frame.updates) s) fun s =>
    andThen (flushRemoteDuringHydration s) (finishJoin c frame.vector frame.durableVector)

def speaksForThisJoin (s : Session R) (step : JoinStep R) : Bool :=
  !s.left && step.mark == s.generation

/-- What a turn leaves: the step at its next `await`, or nothing once it has ended. -/
structure Turned (R : Replica P) where
  step : Option (JoinStep R)
  session : Session R
  effects : List (Effect R)

def Turned.ended (s : Session R) (effects : List (Effect R)) : Turned R := ⟨none, s, effects⟩

/-- The turn after hydration: the target is captured even when the connection is gone. -/
def hydratedTurn (c : Config) (step : JoinStep R) (s : Session R) : Turned R :=
  if s.left then .ended s []
  else
    let s := captureHydratedTarget c s
    if !speaksForThisJoin s step then .ended s []
    else if step.frame.protocol ≠ PROTOCOL then .ended s [.rejected .newerVersion]
    else
      match step.frame with
      | .rows _ =>
        let received := receive c [] step.frame s
        .ended received.1 received.2
      | .state f =>
        if f.ref.isSome then
          if !c.canFetch then .ended s [.rejected .cannotFetchReference]
          else ⟨some { step with stage := .fetching }, s, []⟩
        else
          let received := receive c f.base.toList step.frame s
          .ended received.1 received.2

def JoinFrame.digest : JoinFrame R → Option String
  | .state f => f.digest
  | .rows _ => none

def fetchedTurn (step : JoinStep R) (answer : Fetched R) (s : Session R) : Turned R :=
  if !speaksForThisJoin s step then .ended s []
  else
    match answer with
    | .restartBaseline => .ended s [.sent (openMessage s)]
    | .failed => .ended s [.rejected .fetch]
    | .bytes referenced =>
      if step.frame.digest.isSome then ⟨some { step with stage := .hashing referenced }, s, []⟩
      else .ended s [.rejected .integrity]

def hashedTurn (c : Config) (step : JoinStep R) (referenced : R.Update) (s : Session R) :
    Turned R :=
  if !speaksForThisJoin s step then .ended s []
  else if step.frame.digest ≠ some (R.sha256Hex referenced) then .ended s [.rejected .integrity]
  else
    let received := receive c [referenced] step.frame s
    .ended received.1 received.2

/-- One turn of a join step, from where it waits to its next `await`; a step that waits
for hydration has no turn before the adapter is done. -/
def turn (c : Config) (step : JoinStep R) (answer : Fetched R) (s : Session R) :
    Option (Turned R) :=
  match step.stage with
  | .queued =>
    some (if !speaksForThisJoin s step then .ended s []
      else ⟨some { step with stage := .hydrating }, s, []⟩)
  | .hydrating => if s.hydrating then none else some (hydratedTurn c step s)
  | .fetching => some (fetchedTurn step answer s)
  | .hashing referenced => some (hashedTurn c step referenced s)

/-- A chain of join steps: the current gate, or one that was abandoned. -/
inductive Chain where
  | gate
  | abandoned (i : ℕ)
deriving DecidableEq

def Session.chain (s : Session R) : Chain → List (JoinStep R)
  | .gate => s.gate
  | .abandoned i => (s.abandoned[i]?).getD []

def Session.setChain (s : Session R) (steps : List (JoinStep R)) : Chain → Session R
  | .gate => { s with gate := steps }
  | .abandoned i => { s with abandoned := s.abandoned.set i steps }

/-- The first step of a chain takes its turn; the next one runs when it has ended,
however it ended. -/
def advance (c : Config) (at_ : Chain) (answer : Fetched R) (s : Session R) :
    Option (Session R × List (Effect R)) :=
  match s.chain at_ with
  | [] => none
  | step :: rest =>
    (turn c step answer s).map fun t => (t.session.setChain (t.step.toList ++ rest) at_, t.effects)

/-- `start` and `rows`: the room is reported as not joined at once, and the frame waits
its turn in the gate. -/
def sequenceJoin (c : Config) (frame : JoinFrame R) (s : Session R) :
    Session R × List (Effect R) :=
  let s := { s with joined := false }
  ({ s with
      gate := s.gate ++ [⟨s.generation, s.arrivals, frame, .queued⟩]
      arrivals := s.arrivals + 1 }, report c s)

def abandonQueuedJoins (s : Session R) : Session R :=
  { s with generation := s.generation + 1, gate := [], abandoned := s.abandoned ++ [s.gate] }

/-- A local edit, through the subscription to local updates. -/
def localEdit (c : Config) (e : R.Edit) (s : Session R) : Session R × List (Effect R) :=
  let edited := R.edit s.doc e
  let s := { s with doc := edited.1 }
  if c.mayEdit && !c.standalone then
    let s := { s with seq := s.seq + 1, unacknowledged := s.unacknowledged ++ [s.seq + 1] }
    let s := rememberLocalTarget c s
    (s, report c s ++ [.sent (.docUpdate edited.2 s.seq)])
  else (s, [])

def apply (update : R.Update) (s : Session R) : Session R × List (Effect R) :=
  if s.left then (s, [])
  else if !s.hydrationCaptured then
    ({ s with remoteDuringHydration := s.remoteDuringHydration ++ [update] }, [])
  else importBatch [update] s

def pressureEased (s : Session R) : Session R := { s with pressureDelay := 0 }

def acknowledge (c : Config) (upTo : ℕ) (s : Session R) : Session R × List (Effect R) :=
  if s.left then (s, [])
  else
    let s := pressureEased s
    let s := { s with unacknowledged := s.unacknowledged.filter fun mine => !decide (mine ≤ upTo) }
    (s, report c s)

/-- Covered work needs no retry. -/
def clearWhenCovered (s : Session R) : Session R :=
  if coveredByDurable s then pressureEased { s with pressureTimer := none, pressureVector := none }
  else s

def durable (c : Config) (vector : Option (VersionVector P)) (s : Session R) :
    Session R × List (Effect R) :=
  if s.left || vector.isNone then (s, [])
  else
    let s := clearWhenCovered (mergeDurableCoverage vector s)
    (s, report c s)

def gap (c : Config) (vector : Option (VersionVector P)) (s : Session R) :
    Session R × List (Effect R) :=
  if s.left || !c.mayEdit then (s, []) else catchUp c vector (pressureEased s)

/-- How long the next retry waits, after one that waited `delay`. -/
def nextDelay (delay : ℕ) : ℕ :=
  if delay = 0 then PRESSURE_RETRY_MS else min (delay * 2) PRESSURE_RETRY_MAX_MS

/-- At most one retry is outstanding. -/
def armRetry (s : Session R) : Session R :=
  if s.pressureTimer.isSome then s
  else
    { s with
      pressureDelay := nextDelay s.pressureDelay
      pressureTimer := some (nextDelay s.pressureDelay) }

/-- `retryAfterPressure`: the retry exports from the newest refused head. -/
def pressure (c : Config) (vector : Option (VersionVector P)) (s : Session R) : Session R :=
  if s.left || !c.mayEdit then s
  else armRetry { s with pressureVector := vector.or s.pressureVector }

/-- The armed retry fires. -/
def pressureFired (c : Config) (s : Session R) : Session R × List (Effect R) :=
  let s := { s with pressureTimer := none }
  if s.left || !s.joined then (s, [])
  else if coveredByDurable s then (s, [])
  else catchUp c (some (mergeVectors (some (s.pressureVector.getD ∅)) s.durableCoverage)) s

def disconnected (c : Config) (s : Session R) : Session R × List (Effect R) :=
  let s := abandonQueuedJoins { s with joined := false, announced := false }
  let s := { s with pressureTimer := none }
  (s, report c s)

def leave (s : Session R) : Session R :=
  abandonQueuedJoins { s with pressureTimer := none, left := true }

/-- The adapter imports a piece of the stored state. -/
def restore (update : R.Update) (s : Session R) : Session R × List (Effect R) :=
  importBatch [update] s

/-- The end of hydration, with what the adapter says of it. -/
inductive Hydration where
  | hydrated
  | failed (error : String)
  | silent
deriving DecidableEq

def failed (c : Config) (error : String) (s : Session R) : Session R × List (Effect R) :=
  let s := { s with isLocal := false, localPending := 0, localError := error }
  (s, report c s)

/-- A standalone session is joined once its adapter has settled. -/
def settled (c : Config) (s : Session R) : Session R × List (Effect R) :=
  if c.standalone then
    let s := { s with joined := true }
    (s, report c s)
  else (s, [])

def endHydration (c : Config) (h : Hydration) (s : Session R) : Session R × List (Effect R) :=
  let s := { s with hydrating := false }
  match h with
  | .hydrated =>
    let s := captureHydratedTarget c { s with isLocal := true }
    andThen (s, report c s) (settled c)
  | .failed error => andThen (failed c error s) (settled c)
  | .silent => settled c s

def writing (c : Config) (count : ℕ) (s : Session R) : Session R × List (Effect R) :=
  let s := { s with localPending := count }
  let s := if count = 0 then s else { s with localError := "" }
  (s, report c s)

def persisted (c : Config) (s : Session R) : Session R × List (Effect R) :=
  let s := { s with isLocal := true, localPending := 0, localError := "" }
  (s, report c s)

/-- What happens to a session. -/
inductive Op (R : Replica P) where
  | edit (e : R.Edit)
  | restore (update : R.Update)
  | hydration (h : Hydration)
  | writing (count : ℕ)
  | persisted
  | failed (error : String)
  | join (frame : JoinFrame R)
  | turn (at_ : Chain) (answer : Fetched R)
  | apply (update : R.Update)
  | acknowledge (upTo : ℕ)
  | durable (vector : Option (VersionVector P))
  | gap (vector : Option (VersionVector P))
  | pressure (vector : Option (VersionVector P))
  | timer
  | disconnected
  | leave

/-- One event; `none` when it cannot happen in this state. -/
def step (c : Config) (s : Session R) : Op R → Option (Session R × List (Effect R))
  | .edit e => some (localEdit c e s)
  | .restore update => if s.hydrating then some (restore update s) else none
  | .hydration h => if s.hydrating then some (endHydration c h s) else none
  | .writing count => some (writing c count s)
  | .persisted => some (persisted c s)
  | .failed error => some (failed c error s)
  | .join frame => some (sequenceJoin c frame s)
  | .turn at_ answer => advance c at_ answer s
  | .apply update => some (apply update s)
  | .acknowledge upTo => some (acknowledge c upTo s)
  | .durable vector => some (durable c vector s)
  | .gap vector => some (gap c vector s)
  | .pressure vector => some (pressure c vector s, [])
  | .timer => if s.pressureTimer.isSome then some (pressureFired c s) else none
  | .disconnected => some (disconnected c s)
  | .leave => some (leave s, [])

/-- The session as its constructor leaves it. -/
def createProjectSession (R : Replica P) (c : Config) : Session R :=
  let s : Session R :=
    { doc := R.blank, saveTarget := none, durableCoverage := none, hydrating := c.adapter,
      hydrationCaptured := !c.mayEdit, remoteDuringHydration := [], unacknowledged := [],
      seq := 0, joined := c.standalone && !c.adapter, left := false, announced := false,
      isLocal := !c.mayEdit, localPending := 0, localError := "", pressureTimer := none,
      pressureDelay := 0, pressureVector := none, generation := 0, arrivals := 0, gate := [],
      abandoned := [] }
  if c.adapter then s else captureHydratedTarget c s

end LibrePaper.Client
