import LibrePaper.Log.Sequencer

/-!
# A sequencer and its log

The system is one sequencer, the durable log, and what is under way between them. A
flush and a join hold the transaction gate while they wait for storage, and ingest goes
on meanwhile; a command and the activation of a base hold both locks. A write whose
reply is lost may reach storage at any later time or never, and another writer may add
a row.
-/
namespace LibrePaper.Log
open Library

variable {V K D : Type} [SemilatticeSup V] [OrderBot V]

/-- Who holds the transaction gate, and how far it is. -/
inductive Gate (P : Platform V K D) where
  | idle
  | flushing (f : Flight P)
  | resolving (f : Flight P)
  | written (f : Flight P) (sequence : ℕ)
  | joining (j : JoinRead V)
  | joined (r : Registration V)

/-- The state of the whole. `lost` are the attempts that got no answer and have not
reached storage; `accepted` are the batches that ingest has appended since admission,
and `stored` those in the rows that this sequencer has written. -/
structure Sys (P : Platform V K D) where
  durable : Durable V K D
  inner : Inner P
  gate : Gate P
  lost : List (Attempt P)
  snapshots : List (Snapshot V)
  accepted : List (Pending P)
  stored : List (Pending P)

variable {P : Platform V K D}

/-- A sequencer that has just been admitted on a log. -/
def Sys.start (P : Platform V K D) (d : Durable V K D) : Sys P :=
  ⟨d, admitDocument P d, .idle, [], [], [], []⟩

/-- What storage answers to a command's transaction. -/
inductive CommandOutcome where
  | committed
  | refused
  | lost
deriving DecidableEq

/-- What storage answers to the activation of a base: a reply, or an error after which
the base may be active. `reread` says whether the reads that settle it succeed. -/
inductive Activation where
  | replied (reread : Bool)
  | failed (committed reread : Bool)
deriving DecidableEq

inductive Op (V : Type) where
  | ingest (o : Outside) (socket : ℕ) (peerKey : String) (clientSeq : ℤ) (bytes : List UInt8)
  | flush
  | flushWritten
  | flushFailed (sent : Bool)
  | resolve (sequenceRead rowsRead : Bool)
  | flushRetired (full : List ℕ)
  | cancel (sent : Bool)
  | land (i : ℕ)
  | otherRow (batches : List Batch)
  | command (edit : Option (ℤ × List UInt8)) (outcome : CommandOutcome) (imported : Bool)
      (full : List ℕ)
  | joinRead (client : V)
  | joinRegister (socket : ℕ) (subscriber : Subscriber)
  | joinReply
  | unsubscribe (socket : ℕ)
  | broadcast (full : List ℕ)
  | build (readable : Bool)
  | dropCache
  | recover
  | snapshot
  | activate (i snapshotBytes : ℕ) (shallow : Bool) (outcome : Activation)

/-- A step's outcome: the next state and what it shows. -/
abbrev Next (P : Platform V K D) := Option (Sys P × List (Event V))

section Steps

variable [DecidableEq V] [DecidableLE V] [DecidableEq K] [DecidableEq D]

def Sys.ingest (c : Config) (s : Sys P) (o : Outside) (socket : ℕ) (peerKey : String)
    (clientSeq : ℤ) (bytes : List UInt8) : Next P :=
  let r := Log.ingest c o s.durable s.inner socket peerKey clientSeq bytes
  some ({ s with
      durable := r.durable
      inner := r.inner
      accepted := s.accepted ++ r.appended.toList },
    (r.appended.toList.map fun p => .installed (some socket) p.bytes) ++ r.events ++
      [.answered socket r.answer])

def Sys.flush (s : Sys P) : Next P :=
  match s.gate, s.inner.snapshotBuffer with
  | .idle, some f => some ({ s with gate := .flushing f }, [])
  | _, _ => none

/-- An attempt reaches storage. -/
def Sys.commit (s : Sys P) (a : Attempt P) : Option (Sys P) :=
  (a.write s.durable).map fun d => { s with durable := d, stored := s.stored ++ a.taken }

def Sys.flushWritten (s : Sys P) : Next P :=
  match s.gate with
  | .flushing f => (s.commit f.attempt).map fun s' =>
      ({ s' with gate := .written f s'.durable.updateSequence }, [])
  | _ => none

def Sys.flushFailed (s : Sys P) (sent : Bool) : Next P :=
  match s.gate with
  | .flushing f => some ({ s with
      gate := .resolving f
      lost := if sent then s.lost ++ [f.attempt] else s.lost }, [])
  | _ => none

def Sys.fence (s : Sys P) (why : String) : Sys P × List (Event V) :=
  let fenced := s.inner.fence why
  ({ s with inner := fenced.1, gate := .idle }, fenced.2)

def Sys.resolve (s : Sys P) (sequenceRead rowsRead : Bool) : Next P :=
  match s.gate with
  | .resolving f =>
    match resolveAmbiguousFlush s.durable sequenceRead rowsRead
        f.attempt.expected f.attempt.vector with
    | .written sequence => some ({ s with gate := .written f sequence }, [])
    | .retry => some ({ s with gate := .idle }, [])
    | .fenced why => some (s.fence why)
  | _ => none

def Sys.flushRetired (s : Sys P) (full : List ℕ) : Next P :=
  match s.gate with
  | .written f sequence =>
    let done := s.inner.finishFlush full f sequence
    some ({ s with inner := done.1, gate := .idle }, done.2)
  | _ => none

/-- The holder of the gate is dropped; a row that it sent may still reach storage. -/
def Sys.cancel (s : Sys P) (sent : Bool) : Next P :=
  match s.gate with
  | .idle => none
  | .flushing f => some ({ s with
      gate := .idle
      lost := if sent then s.lost ++ [f.attempt] else s.lost }, [])
  | _ => some ({ s with gate := .idle }, [])

def Sys.land (s : Sys P) (i : ℕ) : Next P :=
  match s.lost[i]? with
  | some a => (s.commit a).map fun s' => ({ s' with lost := s.lost.eraseIdx i }, [])
  | none => none

/-- Another writer's row follows the last one without a gap. -/
def Sys.otherRow (s : Sys P) (batches : List Batch) : Next P :=
  let vector := reach (s.durable.coverage P) (P.extents batches)
  if GapFree (s.durable.coverage P) (P.extents batches) then
    some ({ s with durable := s.durable.push batches vector s.durable.reservations }, [])
  else none

/-- A command whose precondition holds, with the update its draft exported from the
head; an exported update starts at or below the version it is exported from. -/
def Sys.command (c : Config) (s : Sys P) (edit : Option (ℤ × List UInt8))
    (outcome : CommandOutcome) (imported : Bool) (full : List ℕ) : Next P :=
  match s.gate with
  | .idle =>
    if s.inner.fenced.isSome ∨ s.inner.unreadable.isSome ∨ s.inner.cache = none then none
    else if edit.any fun e => ¬ (P.extent e.2).start ≤ s.inner.headVector then none
    else match edit.elim (.ok none) fun e => prepare P e.1 e.2 with
    | .error _ => none
    | .ok prepared =>
      let a := s.inner.commandAttempt c prepared
      let wrote := s.inner.commandAcks c prepared ≠ []
      match outcome with
      | .refused => some (s, [])
      | .lost => some ({ s with lost := if wrote then s.lost ++ [a] else s.lost }, [])
      | .committed =>
        (if wrote then s.commit a else some s).map fun s' =>
          let done := s.inner.finishCommand c full imported prepared s'.durable.updateSequence
          ({ s' with inner := done.1 },
            (prepared.toList.map fun p => .installed none p.bytes) ++ done.2)
  | _ => none

def Sys.joinRead (s : Sys P) (client : V) : Next P :=
  match s.gate with
  | .idle => some ({ s with gate := .joining ⟨client, s.durable.logCoverage⟩ }, [])
  | _ => none

def Sys.joinRegister (s : Sys P) (socket : ℕ) (subscriber : Subscriber) : Next P :=
  match s.gate with
  | .joining j =>
    if s.inner.fenced.isSome then some ({ s with gate := .idle }, [])
    else
      let taken := s.inner.register socket subscriber j
      some ({ s with inner := taken.1, gate := .joined taken.2 }, [.registered socket])
  | _ => none

def Sys.joinReply (s : Sys P) : Next P :=
  match s.gate with
  | .joined r => some ({ s with gate := .idle }, [.joined r.socket (r.reply s.durable)])
  | _ => none

def Sys.unsubscribe (s : Sys P) (socket : ℕ) : Next P :=
  let left := s.inner.subscribers.filter fun x => x.1 ≠ socket
  some ({ s with inner := { s.inner with subscribers := left } },
    [.closed socket "unsubscribed"])

/-- Frames of other kinds, which close the subscribers whose queue is full. -/
def Sys.broadcast (s : Sys P) (full : List ℕ) : Next P :=
  let left := s.inner.subscribers.filter fun x => x.1 ∉ full
  some ({ s with inner := { s.inner with subscribers := left } },
    (s.inner.subscribers.filter fun x => x.1 ∈ full).map fun x =>
      .closed x.1 "subscriber too slow; reconnect")

def Sys.build (s : Sys P) (readable : Bool) : Next P :=
  match s.inner.fenced, s.inner.cache, Log.build s.durable s.inner with
  | none, none, some v =>
    let read := if readable then { s.inner with cache := some v }
      else { s.inner with unreadable := some "a build breached a bound" }
    some ({ s with inner := read }, [])
  | _, _, _ => none

def Sys.snapshot (s : Sys P) : Next P :=
  s.inner.snapshotAtLogVector.map fun n => ({ s with snapshots := s.snapshots ++ [n] }, [])

/-- Moves the sequencer onto the base that storage has, when that is the one asked for. -/
def Sys.reconcile (s : Sys P) (d : Durable V K D) (reread : Bool)
    (isWanted : LogBase V → Bool) : Sys P × List (Event V) :=
  let moved := { s with durable := d }
  if reread then
    match d.base with
    | some b => if isWanted b then ({ moved with inner := s.inner.noteCompacted b d }, [])
        else (moved, [])
    | none => (moved, [])
  else moved.fence "compaction outcome could not be reconciled"

def Sys.activate (s : Sys P) (i snapshotBytes : ℕ) (shallow : Bool) (outcome : Activation) :
    Next P :=
  match s.gate, s.snapshots[i]? with
  | .idle, some n =>
    let same := fun b : LogBase V =>
      decide (b.throughUpdateSequence = n.through ∧ b.vector = n.logVector)
    match outcome, s.durable.activateLogBase n.through n.logVector snapshotBytes shallow with
    | .replied _, .ok (some d) =>
      let noted := s.inner.noteCompacted ⟨n.through, n.logVector, snapshotBytes⟩ d
      let reset := if shallow then noted.resetAfterTrim "history trimmed" else (noted, [])
      some ({ s with durable := d, inner := reset.1 }, reset.2)
    | .replied reread, .ok none =>
      some (s.reconcile s.durable reread fun b => decide (b.throughUpdateSequence ≥ n.through))
    | .replied reread, .error _ => some (s.reconcile s.durable reread same)
    | .failed true reread, .ok (some d) => some (s.reconcile d reread same)
    | .failed _ reread, _ => some (s.reconcile s.durable reread same)
  | _, _ => none

/-- One step of the system. -/
def step (c : Config) (s : Sys P) : Op V → Next P
  | .ingest o socket peerKey clientSeq bytes => s.ingest c o socket peerKey clientSeq bytes
  | .flush => s.flush
  | .flushWritten => s.flushWritten
  | .flushFailed sent => s.flushFailed sent
  | .resolve sequenceRead rowsRead => s.resolve sequenceRead rowsRead
  | .flushRetired full => s.flushRetired full
  | .cancel sent => s.cancel sent
  | .land i => s.land i
  | .otherRow batches => s.otherRow batches
  | .command edit outcome imported full => s.command c edit outcome imported full
  | .joinRead client => s.joinRead client
  | .joinRegister socket subscriber => s.joinRegister socket subscriber
  | .joinReply => s.joinReply
  | .unsubscribe socket => s.unsubscribe socket
  | .broadcast full => s.broadcast full
  | .build readable => s.build readable
  | .dropCache => some ({ s with inner := { s.inner with cache := none } }, [])
  | .recover => some ({ s with inner := { s.inner with unreadable := none } }, [])
  | .snapshot => s.snapshot
  | .activate i snapshotBytes shallow outcome => s.activate i snapshotBytes shallow outcome

/-- Takes steps one after another. -/
def runOps (c : Config) (s : Sys P) : List (Op V) → Next P
  | [] => some (s, [])
  | op :: ops =>
    (step c s op).bind fun r => (runOps c r.1 ops).map fun r' => (r'.1, r.2 ++ r'.2)

/-- A run from one state to another, with everything it shows, in order. -/
inductive Run (c : Config) : Sys P → List (Event V) → Sys P → Prop
  | refl (s : Sys P) : Run c s [] s
  | step {s t u : Sys P} {shown more : List (Event V)} (op : Op V) :
      Run c s shown t → step c t op = some (u, more) → Run c s (shown ++ more) u

/-- The states that a sequencer and its log reach from an empty log, by any order of
steps and with a new sequencer admitted on the log at any time. -/
inductive Reachable (c : Config) : Sys P → Prop
  | first : Reachable c (Sys.start P .empty)
  | admitted {s : Sys P} : Reachable c s → Reachable c (Sys.start P s.durable)
  | step {s t : Sys P} {shown : List (Event V)} (op : Op V) :
      Reachable c s → step c s op = some (t, shown) → Reachable c t

variable {c : Config} {s t : Sys P}

lemma Reachable.runOps {shown : List (Event V)} {ops : List (Op V)} (h : Reachable c s)
    (hs : runOps c s ops = some (t, shown)) : Reachable c t := by
  induction ops generalizing s shown with
  | nil =>
    cases hs
    exact h
  | cons op ops ih =>
    obtain ⟨⟨u, first⟩, hu, hrest⟩ := Option.bind_eq_some_iff.1 hs
    obtain ⟨⟨v, rest⟩, hv, hlast⟩ := Option.map_eq_some_iff.1 hrest
    cases hlast
    exact ih (h.step op hu) hv

lemma Reachable.run {shown : List (Event V)} (h : Reachable c s) (hrun : Run c s shown t) :
    Reachable c t := by
  induction hrun with
  | refl => exact h
  | step op _ hstep ih => exact ih.step op hstep

end Steps

end LibrePaper.Log
