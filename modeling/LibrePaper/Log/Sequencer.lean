import LibrePaper.Log.Durable

/-!
# The sequencer of one document

The state behind a sequencer's lock and what each section under the lock does to it:
ingest, the snapshot and the retirement of a flush, a command, the registration of a
join, and the compaction gate. A section that sends frames returns them as events.
-/
namespace LibrePaper.Log
open Library

/-- What a subscriber may do, which decides what it is sent. -/
inductive SubscriberClass where
  | editor
  | reader
deriving DecidableEq

structure Subscriber where
  role : SubscriberClass
  peerKey : String
deriving DecidableEq

structure Config where
  logQuotaBytes : ℕ
  deploymentPeerKey : String

def flushTriggerBytes : ℕ := 1024 * 1024

def bufferCeilingBytes : ℕ := flushTriggerBytes * 4

/-- One update may be as large as the log quota. -/
def maxUpdateBytes (logQuotaBytes : ℕ) : ℕ := logQuotaBytes

/-- A frame on one subscriber's queue. -/
inductive Frame (V : Type) where
  | docUpdate (update : List UInt8)
  | docAck (upTo : ℤ)
  | docDurable (vector : V)
deriving DecidableEq

/-- What a refused but retryable answer carries: the head to export from again. -/
structure Retry (V : Type) where
  why : String
  reason : String
  pressure : Bool
  vector : V
deriving DecidableEq

/-- What ingest decided. -/
inductive Ingested (V : Type) where
  | accepted
  | gap (vector : V)
  | invalid (why : String)
  | retryable (retry : Retry V)
  | refused (why : String)
deriving DecidableEq

/-- What a join is answered with. The base is named by the version that it holds. -/
structure Joined (V : Type) where
  vector : V
  durableVector : V
  base : Option V
  batches : List (List UInt8)
  fromRows : Bool
deriving DecidableEq

/-- What a step shows outside the lock. `installed` marks a batch that became part of
the head, with the socket it came from. -/
inductive Event (V : Type) where
  | sent (socket : ℕ) (frame : Frame V)
  | closed (socket : ℕ) (why : String)
  | answered (socket : ℕ) (answer : Ingested V)
  | registered (socket : ℕ)
  | joined (socket : ℕ) (reply : Joined V)
  | installed (socket : Option ℕ) (update : List UInt8)
deriving DecidableEq

variable {V K D : Type} [SemilatticeSup V] [OrderBot V]

/-- One batch in the buffer, with the reservation that admitted it. -/
structure Pending (P : Platform V K D) where
  peerKey : String
  clientSeq : ℤ
  bytes : List UInt8
  stop : V
  charge : ℕ
  durableCharge : ℕ
  durableKey : K
  durableDigest : D
  stop_eq : stop = (P.extent bytes).stop
  charge_eq : charge = bytes.length + overhead peerKey
  durableCharge_eq : durableCharge = charge + rowHeaderBytes
  digest_eq : durableDigest = P.digestOf bytes
  key_eq : durableKey = P.durableReservationKey peerKey clientSeq durableDigest
deriving DecidableEq

variable {P : Platform V K D}

def Pending.batch (p : Pending P) : Batch := ⟨p.peerKey, p.clientSeq, p.bytes⟩

/-- The updates of a list of buffered batches. -/
def pendingExtents (l : List (Pending P)) : List (Extent V) :=
  P.extents (l.map Pending.batch)

/-- Everything the sequencer owns behind its lock. -/
structure Inner (P : Platform V K D) where
  nextSequence : ℕ
  logVector : V
  headVector : V
  buffer : List (Pending P)
  bufferBytes : ℕ
  chargedBytes : ℕ
  subscribers : List (ℕ × Subscriber)
  cache : Option V
  unreadable : Option String
  fenced : Option String
  baseBytes : ℕ
  rowBytes : ℕ
  uncompactedCount : ℕ
  baseVector : V
  hasBase : Bool

/-- Admits a document: reads the head of its log, and nothing else. -/
def admitDocument (P : Platform V K D) (d : Durable V K D) : Inner P where
  nextSequence := d.updateSequence + 1
  logVector := d.logHeadVector
  headVector := d.logHeadVector
  buffer := []
  bufferBytes := 0
  chargedBytes := 0
  subscribers := []
  cache := none
  unreadable := none
  fenced := none
  baseBytes := (d.base.map LogBase.snapshotBytes).getD 0
  rowBytes := d.uncompactedBytes
  uncompactedCount := d.rows.length
  baseVector := d.baseVector
  hasBase := d.base.isSome

def Inner.logBytes (inner : Inner P) : ℕ := inner.baseBytes + inner.rowBytes

/-- What the first `take` batches are charged. -/
def Inner.chargeOf (inner : Inner P) (take : ℕ) : ℕ :=
  ((inner.buffer.take take).map Pending.charge).sum

/-- Who is owed an acknowledgement for the first `take` batches. -/
def Inner.ackPrefix (inner : Inner P) (take : ℕ) : List (String × ℤ) :=
  (inner.buffer.take take).map fun p => (p.peerKey, p.clientSeq)

/-- The vector the log would cover if the first `take` batches flushed. -/
def Inner.vectorThrough (inner : Inner P) (take : ℕ) : V :=
  (inner.buffer.take take).foldl (fun v p => v ⊔ p.stop) inner.logVector

/-- Drops a committed prefix of the buffer and moves the log vector onto it. -/
def Inner.retire (inner : Inner P) (take written : ℕ) (vector : V) (rowBytes : ℕ) : Inner P :=
  let buffer := inner.buffer.drop take
  { inner with
    nextSequence := written + 1
    logVector := vector
    buffer := buffer
    bufferBytes := (buffer.map fun p => p.bytes.length).sum
    chargedBytes := (buffer.map Pending.charge).sum
    rowBytes := inner.rowBytes + rowBytes
    uncompactedCount := inner.uncompactedCount + 1 }

/-- Sends one frame to every subscriber that `frame` produces one for, and closes the
ones whose queue is full. -/
def fanOut (full : List ℕ) (frame : ℕ → Subscriber → Option (Frame V)) (inner : Inner P) :
    Inner P × List (Event V) :=
  let slow := fun s : ℕ × Subscriber => decide (s.1 ∈ full) && (frame s.1 s.2).isSome
  ({ inner with subscribers := inner.subscribers.filter fun s => !slow s },
    (inner.subscribers.filterMap fun s =>
      if s.1 ∈ full then none else (frame s.1 s.2).map (Event.sent s.1)) ++
    (inner.subscribers.filter slow).map fun s =>
      Event.closed s.1 "subscriber too slow; reconnect")

/-- Copies one update to every editor but the sender. -/
def relay (full : List ℕ) (skip : Option ℕ) (bytes : List UInt8) (inner : Inner P) :
    Inner P × List (Event V) :=
  fanOut full (fun id s => if some id ≠ skip ∧ s.role = .editor then some (.docUpdate bytes)
    else none) inner

/-- Acknowledges a batch that held no changes. -/
def acknowledgePeer (full : List ℕ) (peerKey : String) (upTo : ℤ) (inner : Inner P) :
    Inner P × List (Event V) :=
  fanOut full (fun _ s => if s.peerKey = peerKey then some (.docAck upTo) else none) inner

/-- Each peer's highest sequence number among the batches. -/
def ackTargets (acknowledged : List (String × ℤ)) (peerKey : String) : Option ℤ :=
  acknowledged.foldl (fun highest a =>
    if a.1 = peerKey then some (highest.elim a.2 fun seq => max seq a.2) else highest) none

/-- Acknowledges to each peer whose batches were in the row. -/
def acknowledge (full : List ℕ) (acknowledged : List (String × ℤ)) (inner : Inner P) :
    Inner P × List (Event V) :=
  fanOut full (fun _ s => (ackTargets acknowledged s.peerKey).map .docAck) inner

/-- Announces the vector through the row that has just committed. -/
def notifyDurable (full : List ℕ) (inner : Inner P) : Inner P × List (Event V) :=
  fanOut full (fun _ s => if s.role = .editor then some (.docDurable inner.logVector)
    else none) inner

/-- Closes every subscriber. -/
def Inner.closeAll (inner : Inner P) (why : String) : Inner P × List (Event V) :=
  ({ inner with subscribers := [] }, inner.subscribers.map fun s => Event.closed s.1 why)

/-- Marks this sequencer fenced and closes every socket on it. -/
def Inner.fence (inner : Inner P) (why : String) : Inner P × List (Event V) :=
  { inner with fenced := some why }.closeAll s!"fenced: {why}; reconnect"

/-- What ingest asks of everything outside the document: the rate limiter, the storage
ledger, the pending budget, the durable reservation and whether its reply is lost, the
cache, and the queues. -/
structure Outside where
  rate : Bool
  ledger : Option String
  retained : Bool
  reserved : Bool
  reservationLost : Bool
  cacheGrows : Bool
  imported : Bool
  full : List ℕ

/-- The cached document after an import, when the entry is kept. -/
def importInto (P : Platform V K D) [DecidableLE V] (cache : Option V) (bytes : List UInt8)
    (kept : Bool) : Option V :=
  if kept then
    cache.map fun v => if (P.extent bytes).start ≤ v then v ⊔ (P.extent bytes).stop else v
  else none

def Inner.retryable (inner : Inner P) (why reason : String) (pressure : Bool) : Ingested V :=
  .retryable ⟨why, reason, pressure, inner.headVector⟩

/-- What a decoded batch is refused for, in the order the checks are made. -/
def Inner.refusal [DecidableLE V] (c : Config) (o : Outside) (inner : Inner P)
    (header : ImportBlobMetadata V) (charge : ℕ) : Option (Ingested V) :=
  if o.rate = false then
    some (inner.retryable "too many updates; slow down and they will be accepted" "rate" false)
  else if inner.logBytes ≥ c.logQuotaBytes then
    some (inner.retryable "this document's log is at its quota and is waiting to be compacted"
      "log_quota" false)
  else match o.ledger with
  | some reason => some (inner.retryable "this account's storage is full" reason false)
  | none =>
    if inner.buffer ≠ [] ∧ inner.chargedBytes + charge > bufferCeilingBytes then
      some (inner.retryable "sync_delayed: this server cannot save work right now"
        "document_buffer" true)
    else if ¬ header.partialStartVv ≤ inner.headVector then some (.gap inner.headVector)
    else if o.retained = false then
      some (inner.retryable
        "sync_delayed: this deployment is holding all the unsaved work it can"
        "pending_budget" true)
    else none

/-- The batch that ingest appends. -/
def pendingOf (P : Platform V K D) (peerKey : String) (clientSeq : ℤ) (bytes : List UInt8)
    (header : ImportBlobMetadata V) (h : P.decodeImportBlobMeta bytes = .ok header) :
    Pending P where
  peerKey := peerKey
  clientSeq := clientSeq
  bytes := bytes
  stop := header.partialEndVv
  charge := bytes.length + overhead peerKey
  durableCharge := bytes.length + overhead peerKey + rowHeaderBytes
  durableKey := P.durableReservationKey peerKey clientSeq (P.digestOf bytes)
  durableDigest := P.digestOf bytes
  stop_eq := by rw [Platform.extent_ok h]
  charge_eq := rfl
  durableCharge_eq := rfl
  digest_eq := rfl
  key_eq := rfl

/-- Appends an admitted batch: head, charges, cache, relay, buffer. -/
def Inner.appendPending [DecidableLE V] (inner : Inner P) (o : Outside) (socket : ℕ)
    (p : Pending P) : Inner P × List (Event V) :=
  let grown := { inner with
    headVector := inner.headVector ⊔ p.stop
    bufferBytes := inner.bufferBytes + p.bytes.length
    chargedBytes := inner.chargedBytes + p.charge
    cache := importInto P inner.cache p.bytes (o.cacheGrows && o.imported) }
  let sent := relay o.full (some socket) p.bytes grown
  ({ sent.1 with buffer := sent.1.buffer ++ [p] }, sent.2)

/-- One run of ingest: its answer, the new state, what it reserved, what it sent, and
the batch it appended when it appended one. -/
structure IngestResult (P : Platform V K D) where
  answer : Ingested V
  inner : Inner P
  durable : Durable V K D
  events : List (Event V)
  appended : Option (Pending P)

/-- Header check, gap check, append, relay, opportunistic cache import. -/
def ingest [DecidableLE V] [DecidableEq K] [DecidableEq D] (c : Config) (o : Outside)
    (d : Durable V K D) (inner : Inner P) (socket : ℕ) (peerKey : String) (clientSeq : ℤ)
    (bytes : List UInt8) : IngestResult P :=
  let unchanged := fun answer => (⟨answer, inner, d, [], none⟩ : IngestResult P)
  let full := inner.retryable "this account's storage is full" "storage_quota" false
  if bytes = [] then unchanged (.invalid "an update with no bytes")
  else if bytes.length > maxUpdateBytes c.logQuotaBytes then
    unchanged (.refused "that update is larger than this deployment accepts")
  else if peerKey.utf8ByteSize > maxPeerKey then
    unchanged (.refused "that editor's identity is too long to record")
  else match h : P.decodeImportBlobMeta bytes with
  | .error why => unchanged (.invalid why)
  | .ok header =>
    let p := pendingOf P peerKey clientSeq bytes header h
    if inner.fenced.isSome then
      unchanged (.refused "this server no longer holds this document; reconnect")
    else if (inner.buffer.find? fun q => q.durableKey = p.durableKey).any
        fun q => q.durableDigest = p.durableDigest then
      unchanged .accepted
    else if header.changeNum = 0 then
      let sent := acknowledgePeer o.full peerKey clientSeq inner
      ⟨.accepted, sent.1, d, sent.2, none⟩
    else match inner.refusal c o header p.charge with
    | some answer => unchanged answer
    | none =>
      match d.reservePendingLogBytes o.reserved p.durableKey p.durableCharge p.durableDigest with
      | none => unchanged full
      | some reserved =>
        if o.reservationLost then ⟨full, inner, reserved, [], none⟩
        else
          let sent := inner.appendPending o socket p
          ⟨.accepted, sent.1, reserved, sent.2, some p⟩

/-- A row on its way to storage: the buffered batches that it carries, and the ones that
a command added. -/
structure Attempt (P : Platform V K D) where
  expected : ℕ
  taken : List (Pending P)
  added : List Batch
  vector : V

/-- The row of an attempt. -/
def Attempt.row (a : Attempt P) : FlushRow V where
  expectedUpdateSequence := a.expected
  batches := a.taken.map Pending.batch ++ a.added
  vector := a.vector

/-- Makes the write of an attempt, in exchange for the reservations of its batches. -/
def Attempt.write [DecidableEq K] (a : Attempt P) (d : Durable V K D) :
    Option (Durable V K D) :=
  d.insertLogRowReserved a.row (a.taken.map Pending.durableKey)
    (a.taken.map Pending.durableCharge).sum

/-- What a flush took from the buffer under the lock. -/
structure Flight (P : Platform V K D) where
  take : ℕ
  acknowledged : List (String × ℤ)
  attempt : Attempt P

/-- The attempt to write the first `take` batches. -/
def Inner.attemptOf (inner : Inner P) (take : ℕ) : Attempt P where
  expected := inner.nextSequence - 1
  taken := inner.buffer.take take
  added := []
  vector := inner.vectorThrough take

/-- The buffer snapshot of a flush: nothing when the sequencer is fenced or the buffer
is empty. -/
def Inner.snapshotBuffer (inner : Inner P) : Option (Flight P) :=
  if inner.fenced.isSome ∨ inner.buffer = [] then none
  else some ⟨inner.buffer.length, inner.ackPrefix inner.buffer.length,
    inner.attemptOf inner.buffer.length⟩

/-- How an ambiguous flush is resolved. -/
inductive Resolution where
  | written (sequence : ℕ)
  | retry
  | fenced (why : String)
deriving DecidableEq

/-- Asks the log whether an attempt that got no answer is in it. `sequenceRead` and
`rowsRead` say whether the two reads succeed. -/
def resolveAmbiguousFlush [DecidableEq V] (d : Durable V K D) (sequenceRead rowsRead : Bool)
    (expected : ℕ) (attempted : V) : Resolution :=
  if sequenceRead = false then .retry
  else if d.updateSequence = expected then .retry
  else if d.updateSequence ≠ expected + 1 then
    .fenced s!"the log is at {d.updateSequence} and this server expected {expected}"
  else if rowsRead = false then .retry
  else match (d.logRows expected (some (expected + 1))).head? with
  | some row => if row.vector = attempted then .written (expected + 1)
      else .fenced "another writer holds this document's log"
  | none => .retry

/-- Retires what a flush wrote, acknowledges it, and announces the new log vector. -/
def Inner.finishFlush (inner : Inner P) (full : List ℕ) (f : Flight P) (written : ℕ) :
    Inner P × List (Event V) :=
  let retired := inner.retire f.take written f.attempt.vector
    (encode f.attempt.row.batches).length
  let acked := acknowledge full f.acknowledged retired
  let told := notifyDurable full acked.1
  (told.1, acked.2 ++ told.2)

/-- Source a command produced, from the update that its draft exported. -/
structure Prepared (P : Platform V K D) where
  clientSeq : ℤ
  bytes : List UInt8
  header : ImportBlobMetadata V
  decoded : P.decodeImportBlobMeta bytes = .ok header
  changes : header.changeNum ≠ 0

/-- Reads the exported update back; one that carries no change is no source. -/
def prepare (P : Platform V K D) (clientSeq : ℤ) (exported : List UInt8) :
    Except String (Option (Prepared P)) :=
  match h : P.decodeImportBlobMeta exported with
  | .error why => .error why
  | .ok header =>
    if hc : header.changeNum = 0 then .ok none
    else .ok (some ⟨clientSeq, exported, header, h, hc⟩)

/-- The batches that a command adds to the buffered ones. -/
def preparedBatches (c : Config) (prepared : Option (Prepared P)) : List Batch :=
  prepared.toList.map fun s => ⟨c.deploymentPeerKey, s.clientSeq, s.bytes⟩

/-- Who is owed an acknowledgement for a command's row. -/
def Inner.commandAcks (c : Config) (inner : Inner P) (prepared : Option (Prepared P)) :
    List (String × ℤ) :=
  inner.ackPrefix inner.buffer.length ++
    prepared.toList.map fun s => (c.deploymentPeerKey, s.clientSeq)

/-- A command's row: the buffer as it stands, and the prepared batch. -/
def Inner.commandAttempt (c : Config) (inner : Inner P) (prepared : Option (Prepared P)) :
    Attempt P :=
  let a := inner.attemptOf inner.buffer.length
  { a with
    added := preparedBatches c prepared
    vector := prepared.elim a.vector fun s => a.vector ⊔ s.header.partialEndVv }

/-- Installs a prepared batch in the head and relays it. -/
def Inner.install [DecidableLE V] (full : List ℕ) (imported : Bool) (inner : Inner P)
    (prepared : Option (Prepared P)) : Inner P × List (Event V) :=
  match prepared with
  | none => (inner, [])
  | some s =>
    relay full none s.bytes { inner with
      headVector := inner.headVector ⊔ s.header.partialEndVv
      cache := importInto P inner.cache s.bytes imported }

/-- After the commit: retire the flushed batches, install the prepared one, relay it,
and acknowledge. Without a row nothing is retired or announced. -/
def Inner.finishCommand [DecidableLE V] (c : Config) (full : List ℕ) (imported : Bool)
    (inner : Inner P) (prepared : Option (Prepared P)) (written : ℕ) :
    Inner P × List (Event V) :=
  let a := inner.commandAttempt c prepared
  if inner.commandAcks c prepared = [] then (inner, [])
  else
    let retired := inner.retire inner.buffer.length written a.vector
      (encode a.row.batches).length
    let installed := retired.install full imported prepared
    let acked := acknowledge full (inner.commandAcks c prepared) installed.1
    let told := notifyDurable full acked.1
    (told.1, installed.2 ++ acked.2 ++ told.2)

/-- The earliest row a client does not cover, scanning backwards from the head. -/
def firstUncovered [DecidableLE V] (client : V) (coverage : List (ℕ × V)) : Option ℕ :=
  ((coverage.reverse.takeWhile fun r => ¬ r.2 ≤ client).getLast?).map Prod.fst

/-- What a join has read before the lock: the client's vector and the coverage. -/
structure JoinRead (V : Type) where
  client : V
  coverage : List (ℕ × V)

/-- What a join took under the lock. -/
structure Registration (V : Type) where
  socket : ℕ
  client : V
  coverage : List (ℕ × V)
  vector : V
  durableVector : V
  baseCovered : Bool
  buffer : List (List UInt8)

/-- Whether a client needs no base. A base with an empty vector does not count as
covered. -/
def Inner.baseCovered [DecidableEq V] [DecidableLE V] (inner : Inner P) (client : V) : Bool :=
  match inner.hasBase, decide (inner.baseVector = ⊥) with
  | false, _ => true
  | true, true => false
  | true, false => decide (inner.baseVector ≤ client)

/-- Registers a subscriber and takes its view of the head in one step. -/
def Inner.register [DecidableEq V] [DecidableLE V] (inner : Inner P) (socket : ℕ)
    (subscriber : Subscriber) (j : JoinRead V) : Inner P × Registration V :=
  ({ inner with
      subscribers := (socket, subscriber) :: inner.subscribers.filter fun s => s.1 ≠ socket },
    { socket := socket
      client := j.client
      coverage := j.coverage
      vector := inner.headVector
      durableVector := inner.logVector
      baseCovered := inner.baseCovered j.client
      buffer := inner.buffer.map Pending.bytes })

/-- The first row that a reply carries. -/
def Registration.fromRow [DecidableLE V] (r : Registration V) : Option ℕ :=
  if r.baseCovered then firstUncovered r.client r.coverage
  else r.coverage.head?.map Prod.fst

/-- The reply of a join, from the rows and the base as storage has them now. -/
def Registration.reply [DecidableLE V] (r : Registration V) (d : Durable V K D) : Joined V where
  vector := r.vector
  durableVector := r.durableVector
  base := if r.baseCovered then none else some d.baseVector
  batches := r.fromRow.elim [] (fun from_ =>
      (d.logRows (from_ - 1) none).flatMap fun row => row.batches.map Batch.bytes) ++ r.buffer
  fromRows := r.baseCovered && (firstUncovered r.client r.coverage).isSome

/-- Reads the base, every row, then the buffer, importing one batch at a time. -/
def build [DecidableLE V] (d : Durable V K D) (inner : Inner P) : Option V :=
  replay d.baseVector (P.rowExtents d.rows ++ pendingExtents inner.buffer)

/-- A snapshot of the document, waiting to become the base. -/
structure Snapshot (V : Type) where
  through : ℕ
  logVector : V
deriving DecidableEq

/-- A snapshot of an entry whose version is the log vector, with an empty buffer. -/
def Inner.snapshotAtLogVector [DecidableEq V] (inner : Inner P) : Option (Snapshot V) :=
  if inner.fenced.isSome ∨ inner.buffer ≠ [] ∨ inner.unreadable.isSome then none
  else if inner.cache ≠ some inner.logVector then none
  else if inner.nextSequence - 1 = 0 then none
  else some ⟨inner.nextSequence - 1, inner.logVector⟩

/-- Moves the sequencer's accounting onto the base that storage has. -/
def Inner.noteCompacted (inner : Inner P) (base : LogBase V) (d : Durable V K D) : Inner P :=
  { inner with
    baseVector := base.vector
    hasBase := true
    baseBytes := base.snapshotBytes
    rowBytes := d.uncompactedBytes
    uncompactedCount := d.rows.length }

/-- Drops the cache and closes every subscriber so that it rejoins from the new base. -/
def Inner.resetAfterTrim (inner : Inner P) (why : String) : Inner P × List (Event V) :=
  { inner with cache := none }.closeAll s!"{why}; reconnect"

end LibrePaper.Log
