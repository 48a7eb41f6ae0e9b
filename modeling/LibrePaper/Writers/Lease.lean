import LibrePaper.Library.Runs

/-!
# Processes that claim the writer lease

Any number of server processes share one database. A process that holds the advisory lock moves the
durable epoch, and a write transaction compares it with the epoch that its process stored last. The
sequencers of a process outlive its claims. Every read, lock and commit is a step of its own, and a
reply can be lost.
-/
namespace LibrePaper.Writers
open Library

/-- A row of the log: its sequence number and the vector of all up to it. -/
structure Row (V : Type*) where
  sequence : ℕ
  vector : V
deriving DecidableEq

structure Base (V : Type*) where
  through : ℕ
  vector : V
deriving DecidableEq

/-- A base that goes as far already. An equal one may be replaced. -/
def Base.goesAsFar {V : Type*} (b : Base V) (through : ℕ) (replaceEqual : Bool) : Bool :=
  if replaceEqual = true then through < b.through else through ≤ b.through

/-- A document's log. Nothing reads `history`, the vector that each sequence number was written
with. -/
structure Document (V : Type*) where
  updateSequence : ℕ
  updates : List (Row V)
  base : Option (Base V)
  history : ℕ → V

structure Reservation where
  key : ℕ
  document : ℕ
  epoch : ℕ
  bytes : ℕ
  digest : ℕ
deriving DecidableEq

structure Database (V : Type*) where
  epoch : ℕ
  documents : ℕ → Document V
  reservations : List Reservation

/-- What a write transaction does once it holds its locks. -/
inductive Body (V : Type*) where
  | row (document expected : ℕ) (vector : V) (keys : List ℕ) (bytes : ℕ)
  | reserve (document key bytes digest : ℕ)
  | clear (epoch : ℕ)
  | activate (document through : ℕ) (vector : V) (replaceEqual : Bool)
deriving DecidableEq

namespace Database
variable {V : Type*}

/-- The reservations that a row replaces. -/
def reserved (db : Database V) (document epoch : ℕ) (keys : List ℕ) : List Reservation :=
  db.reservations.filter fun r => r.document = document ∧ r.epoch = epoch ∧ r.key ∈ keys

def setDocument (db : Database V) (document : ℕ) (d : Document V) : Database V :=
  { db with documents := Function.update db.documents document d }

/-- One more row, if the head is the expected one, in place of the reservations of its batches. -/
def insertLogRow (db : Database V) (epoch document expected : ℕ) (vector : V) (keys : List ℕ)
    (bytes : ℕ) : Option (Database V) :=
  let d := db.documents document
  let removed := db.reserved document epoch keys
  if ¬(keys = [] ↔ bytes = 0) then none
  else if bytes ≠ 0 ∧ (removed.length ≠ keys.length ∨ (removed.map (·.bytes)).sum ≠ bytes) then none
  else if d.updateSequence ≠ expected then none
  else some { db.setDocument document { d with
      updateSequence := d.updateSequence + 1
      updates := d.updates ++ [⟨d.updateSequence + 1, vector⟩]
      history := Function.update d.history (d.updateSequence + 1) vector } with
    reservations := db.reservations.filter (· ∉ removed) }

/-- A reservation is made once, and found again only by the batch it was made for. -/
def reservePendingLogBytes (db : Database V) (epoch document key bytes digest : ℕ) :
    Option (Database V) :=
  match db.reservations.find? (·.key = key) with
  | some r => if r = ⟨key, document, epoch, bytes, digest⟩ then some db else none
  | none => some { db with
      reservations := db.reservations ++ [⟨key, document, epoch, bytes, digest⟩] }

def clearStalePendingLogReservations (db : Database V) (epoch : ℕ) : Database V :=
  { db with reservations := db.reservations.filter (·.epoch = epoch) }

/-- A base replaces the rows it goes through, unless the current base goes as far. -/
def activateLogBase (db : Database V) (document through : ℕ) (vector : V) (replaceEqual : Bool) :
    Option (Database V) :=
  let d := db.documents document
  if d.updateSequence < through then none
  else if d.base.any (·.goesAsFar through replaceEqual) = true then some db
  else some (db.setDocument document { d with
    updates := d.updates.filter (through < ·.sequence)
    base := some ⟨through, vector⟩ })

/-- A transaction's writes, under the epoch that its body reads. -/
def apply (db : Database V) (epoch : ℕ) : Body V → Option (Database V)
  | .row document expected vector keys bytes =>
    db.insertLogRow epoch document expected vector keys bytes
  | .reserve document key bytes digest =>
    db.reservePendingLogBytes epoch document key bytes digest
  | .clear stale => some (db.clearStalePendingLogReservations stale)
  | .activate document through vector replaceEqual =>
    db.activateLogBase document through vector replaceEqual

end Database

/-- The epoch that a process compares, and the one that it claimed last. Nothing reads the latter. -/
structure Process where
  writerEpoch : ℕ
  claimed : ℕ
deriving DecidableEq

inductive ClaimPhase where
  | locked
  | updated (epoch : ℕ)
  | held (epoch : ℕ)
deriving DecidableEq

structure Claim where
  process : ℕ
  phase : ClaimPhase
deriving DecidableEq

/-- A transaction has begun, has read its process's epoch, holds the writer's row shared, has read
the epoch for its writes, or is over, with whether it was committed. -/
inductive Phase where
  | begun
  | expecting (epoch : ℕ)
  | fenced
  | writing (epoch : ℕ)
  | over (epoch : ℕ) (committed : Bool)
  | refused
deriving DecidableEq

structure Transaction (V : Type*) where
  process : ℕ
  body : Body V
  phase : Phase
deriving DecidableEq

/-- A batch in the buffer. Nothing reads the last two fields: the epoch that its reservation was
made under, and the one that its process had claimed last when it was buffered. -/
structure Pending (V : Type*) where
  stop : V
  durableKey : ℕ
  durableCharge : ℕ
  durableDigest : ℕ
  reservedUnder : ℕ
  bufferedUnder : ℕ
deriving DecidableEq

inductive CallPhase where
  | transacting
  | resolving
  | comparing
deriving DecidableEq

/-- A flush or a command in flight. -/
structure Call (V : Type*) where
  command : Bool
  take : ℕ
  expected : ℕ
  vector : V
  transaction : ℕ
  phase : CallPhase
deriving DecidableEq

structure Sequencer (V : Type*) where
  process : ℕ
  document : ℕ
  nextSequence : ℕ
  logVector : V
  buffer : List (Pending V)
  fenced : Bool
  call : Option (Call V)
deriving DecidableEq

namespace Sequencer
variable {V : Type*} [SemilatticeSup V]

/-- The vector once the whole buffer is written. -/
def vectorThrough (q : Sequencer V) : V := q.buffer.foldl (fun v p => v ⊔ p.stop) q.logVector

def reservedKeys (q : Sequencer V) : List ℕ := q.buffer.map (·.durableKey)

def reservedBytes (q : Sequencer V) : ℕ := (q.buffer.map (·.durableCharge)).sum

/-- The first batches are in the row that was written. -/
def retire (q : Sequencer V) (take written : ℕ) (vector : V) : Sequencer V :=
  { q with
    nextSequence := written + 1
    logVector := vector
    buffer := q.buffer.drop take
    call := none }

end Sequencer

/-- A sequencer that is being admitted: the head's sequence is read, then the last row, then the
base. -/
inductive Admission (V : Type*) where
  | sequence (process document updateSequence : ℕ)
  | lastRow (process document updateSequence : ℕ) (vector : Option V)
deriving DecidableEq

/-- The deployment. The lock names the claim whose session holds it, and `sharing` the transactions
that hold the writer's row shared. -/
structure Deployment (V : Type*) where
  database : Database V
  lock : Option ℕ
  sharing : List ℕ
  processes : ℕ → Process
  claims : ℕ → Option Claim
  transactions : ℕ → Option (Transaction V)
  sequencers : ℕ → Option (Sequencer V)
  admissions : ℕ → Option (Admission V)
  ingests : ℕ → Option (ℕ × Pending V)

inductive Op (V : Type*) where
  | tryLock (claim process : ℕ)
  | updateEpoch (claim : ℕ)
  | storeEpoch (claim : ℕ)
  | loseSession
  | expect (x : ℕ)
  | fence (x : ℕ)
  | readEpoch (x : ℕ)
  | commit (x : ℕ)
  | abort (x : ℕ)
  | readSequence (a process document : ℕ)
  | readLastRow (a : ℕ)
  | readBase (a sequencer : ℕ)
  | flush (sequencer x : ℕ)
  | command (sequencer x : ℕ) (source : Option V)
  | reply (sequencer : ℕ)
  | fail (sequencer : ℕ)
  | cancel (sequencer : ℕ)
  | readHead (sequencer : ℕ)
  | readRow (sequencer : ℕ)
  | closeFenced (sequencer : ℕ)
  | ingest (sequencer x : ℕ) (batch : Pending V)
  | accept (x : ℕ) (matching : Bool)
  | compact (sequencer x : ℕ) (replaceEqual : Bool)
  | clear (process x : ℕ)
deriving DecidableEq

namespace Deployment
variable {V : Type*}

def setTransaction (s : Deployment V) (x : ℕ) (t : Transaction V) : Deployment V :=
  { s with transactions := Function.update s.transactions x (some t) }

def setSequencer (s : Deployment V) (i : ℕ) (q : Sequencer V) : Deployment V :=
  { s with sequencers := Function.update s.sequencers i (some q) }

/-- A transaction begins under an id of its own. -/
def start (s : Deployment V) (x process : ℕ) (body : Body V) : Option (Deployment V) :=
  if s.transactions x = none then some (s.setTransaction x ⟨process, body, .begun⟩) else none

/-- A transaction is over, and with it its share of the writer's row. -/
def finish (s : Deployment V) (x : ℕ) (t : Transaction V) (phase : Phase) : Deployment V :=
  { s.setTransaction x { t with phase := phase } with sharing := s.sharing.filter (· ≠ x) }

def tryLock (s : Deployment V) (c process : ℕ) : Option (Deployment V) :=
  if s.lock = none ∧ s.claims c = none then
    some { s with lock := some c, claims := Function.update s.claims c (some ⟨process, .locked⟩) }
  else none

/-- The claim's update waits for every transaction that holds the row shared. -/
def updateEpoch (s : Deployment V) (c : ℕ) : Option (Deployment V) :=
  match s.claims c with
  | some ⟨process, .locked⟩ =>
    if s.lock = some c ∧ s.sharing = [] then
      let epoch := s.database.epoch + 1
      some { s with
        database := { s.database with epoch := epoch }
        processes := Function.update s.processes process
          { s.processes process with claimed := epoch }
        claims := Function.update s.claims c (some ⟨process, .updated epoch⟩) }
    else none
  | _ => none

def storeEpoch (s : Deployment V) (c : ℕ) : Option (Deployment V) :=
  match s.claims c with
  | some ⟨process, .updated epoch⟩ =>
    some { s with
      processes := Function.update s.processes process
        { s.processes process with writerEpoch := epoch }
      claims := Function.update s.claims c (some ⟨process, .held epoch⟩) }
  | _ => none

def expect (s : Deployment V) (x : ℕ) : Option (Deployment V) :=
  match s.transactions x with
  | some ⟨process, body, .begun⟩ =>
    let epoch := (s.processes process).writerEpoch
    some (s.setTransaction x
      ⟨process, body, if epoch = 0 then .refused else .expecting epoch⟩)
  | _ => none

/-- The durable epoch is compared, and held until the transaction is over. -/
def fence (s : Deployment V) (x : ℕ) : Option (Deployment V) :=
  match s.transactions x with
  | some ⟨process, body, .expecting epoch⟩ =>
    if s.database.epoch = epoch then
      some { s.setTransaction x ⟨process, body, .fenced⟩ with sharing := x :: s.sharing }
    else some (s.setTransaction x ⟨process, body, .refused⟩)
  | _ => none

def readEpoch (s : Deployment V) (x : ℕ) : Option (Deployment V) :=
  match s.transactions x with
  | some ⟨process, body, .fenced⟩ =>
    some (s.setTransaction x ⟨process, body, .writing (s.processes process).writerEpoch⟩)
  | _ => none

def commit (s : Deployment V) (x : ℕ) : Option (Deployment V) :=
  match s.transactions x with
  | some ⟨process, body, .writing epoch⟩ =>
    match s.database.apply epoch body with
    | some db => some { s.finish x ⟨process, body, .writing epoch⟩ (.over epoch true) with
        database := db }
    | none => some (s.finish x ⟨process, body, .writing epoch⟩ (.over epoch false))
  | _ => none

def abort (s : Deployment V) (x : ℕ) : Option (Deployment V) :=
  match s.transactions x with
  | some ⟨_, _, .over ..⟩ | some ⟨_, _, .refused⟩ | none => none
  | some ⟨process, body, .writing epoch⟩ =>
    some (s.finish x ⟨process, body, .writing epoch⟩ (.over epoch false))
  | some t => some (s.finish x t .refused)

def readSequence (s : Deployment V) (a process document : ℕ) : Option (Deployment V) :=
  if s.admissions a = none then
    let n := (s.database.documents document).updateSequence
    some { s with
      admissions := Function.update s.admissions a (some (.sequence process document n)) }
  else none

def readLastRow (s : Deployment V) (a : ℕ) : Option (Deployment V) :=
  match s.admissions a with
  | some (.sequence process document n) =>
    let vector := (s.database.documents document).updates.getLast?.map (·.vector)
    some { s with
      admissions := Function.update s.admissions a (some (.lastRow process document n vector)) }
  | _ => none

/-- The head's vector is the last row's, or else the base's. -/
def readBase [LE V] [OrderBot V] (s : Deployment V) (a i : ℕ) : Option (Deployment V) :=
  match s.admissions a, s.sequencers i with
  | some (.lastRow process document n row), none =>
    let vector := row.getD ((s.database.documents document).base.elim ⊥ (·.vector))
    some { s.setSequencer i ⟨process, document, n + 1, vector, [], false, none⟩ with
      admissions := Function.update s.admissions a none }
  | _, _ => none

/-- A call takes the whole buffer, and its transaction begins. -/
def transact [SemilatticeSup V] (s : Deployment V) (i x : ℕ) (command : Bool)
    (source : Option V) : Option (Deployment V) :=
  match s.sequencers i with
  | some q =>
    if q.fenced = false ∧ q.call = none ∧ (q.buffer ≠ [] ∨ source.isSome = true) then
      let vector := source.elim q.vectorThrough (q.vectorThrough ⊔ ·)
      (s.start x q.process (.row q.document (q.nextSequence - 1) vector q.reservedKeys
        q.reservedBytes)).map fun s => s.setSequencer i { q with
          call := some
            ⟨command, q.buffer.length, q.nextSequence - 1, vector, x, .transacting⟩ }
    else none
  | none => none

def reply (s : Deployment V) (i : ℕ) : Option (Deployment V) :=
  match s.sequencers i with
  | some q => match q.call with
    | some ⟨_, take, expected, vector, x, .transacting⟩ => match s.transactions x with
      | some ⟨_, _, .over _ true⟩ =>
        some (s.setSequencer i (q.retire take (expected + 1) vector))
      | _ => none
    | _ => none
  | none => none

/-- A call gets an error. A flush then asks the database what became of it. -/
def fail (s : Deployment V) (i : ℕ) : Option (Deployment V) :=
  match s.sequencers i with
  | some q => match q.call with
    | some ⟨command, take, expected, vector, x, .transacting⟩ =>
      some (s.setSequencer i { q with
        call := if command = true then none
          else some ⟨command, take, expected, vector, x, .resolving⟩ })
    | _ => none
  | none => none

def cancel (s : Deployment V) (i : ℕ) : Option (Deployment V) :=
  (s.sequencers i).map fun q => s.setSequencer i { q with call := none }

def closeFenced (s : Deployment V) (i : ℕ) : Option (Deployment V) :=
  (s.sequencers i).map fun q => s.setSequencer i { q with fenced := true, call := none }

def readHead (s : Deployment V) (i : ℕ) : Option (Deployment V) :=
  match s.sequencers i with
  | some q => match q.call with
    | some ⟨command, take, expected, vector, x, .resolving⟩ =>
      let current := (s.database.documents q.document).updateSequence
      some (s.setSequencer i
        (if current = expected then { q with call := none }
        else if current ≠ expected + 1 then { q with fenced := true, call := none }
        else { q with call := some ⟨command, take, expected, vector, x, .comparing⟩ }))
    | _ => none
  | none => none

def readRow [DecidableEq V] (s : Deployment V) (i : ℕ) : Option (Deployment V) :=
  match s.sequencers i with
  | some q => match q.call with
    | some ⟨_, take, expected, vector, _, .comparing⟩ =>
      let row := (s.database.documents q.document).updates.find? (·.sequence = expected + 1)
      some (s.setSequencer i (match row with
        | none => { q with call := none }
        | some row =>
          if row.vector = vector then q.retire take (expected + 1) vector
          else { q with fenced := true, call := none }))
    | _ => none
  | none => none

/-- A batch that is not in the buffer yet is reserved for. -/
def ingest (s : Deployment V) (i x : ℕ) (batch : Pending V) : Option (Deployment V) :=
  match s.sequencers i with
  | some q =>
    if q.fenced = false ∧ ¬q.buffer.any (fun p => p.durableKey = batch.durableKey ∧
        p.durableDigest = batch.durableDigest) then
      (s.start x q.process (.reserve q.document batch.durableKey batch.durableCharge
        batch.durableDigest)).map fun s =>
          { s with ingests := Function.update s.ingests x (some (i, batch)) }
    else none
  | none => none

/-- A batch enters the buffer. -/
def push (s : Deployment V) (x i : ℕ) (q : Sequencer V) (batch : Pending V) (epoch : ℕ) :
    Deployment V :=
  let pending := { batch with
    reservedUnder := epoch, bufferedUnder := (s.processes q.process).claimed }
  { s.setSequencer i { q with buffer := q.buffer ++ [pending] } with
    ingests := Function.update s.ingests x none }

/-- The reservation of a batch is there, made under this epoch. -/
def pendingLogReservationMatches (s : Deployment V) (q : Sequencer V) (batch : Pending V)
    (epoch : ℕ) : Bool :=
  s.database.reservations.find? (·.key = batch.durableKey) = some
    ⟨batch.durableKey, q.document, epoch, batch.durableCharge, batch.durableDigest⟩

/-- A batch whose reservation is made enters the buffer. When the reply was lost, the reservation
is looked for. -/
def accept (s : Deployment V) (x : ℕ) (matching : Bool) : Option (Deployment V) :=
  match s.ingests x with
  | some (i, batch) => match s.sequencers i, s.transactions x with
    | some q, some ⟨_, _, .over epoch committed⟩ =>
      if matching = false ∧ committed = true ∨
          matching = true ∧ s.pendingLogReservationMatches q batch epoch then
        some (s.push x i q batch epoch)
      else none
    | some q, some ⟨_, _, .writing epoch⟩ =>
      if matching = true ∧ s.pendingLogReservationMatches q batch epoch then
        some (s.push x i q batch epoch)
      else none
    | _, _ => none
  | none => none

/-- A base is exported from a sequencer with an empty buffer, and activated at some later time. -/
def compact (s : Deployment V) (i x : ℕ) (replaceEqual : Bool) : Option (Deployment V) :=
  match s.sequencers i with
  | some q =>
    if q.fenced = false ∧ q.buffer = [] ∧ 0 < q.nextSequence - 1 then
      s.start x q.process (.activate q.document (q.nextSequence - 1) q.logVector replaceEqual)
    else none
  | none => none

/-- The epoch to keep is read before the transaction begins. -/
def clear (s : Deployment V) (process x : ℕ) : Option (Deployment V) :=
  let epoch := (s.processes process).writerEpoch
  if epoch = 0 then none else s.start x process (.clear epoch)

def step [DecidableEq V] [SemilatticeSup V] [OrderBot V] (s : Deployment V) :
    Op V → Option (Deployment V)
  | .tryLock c process => s.tryLock c process
  | .updateEpoch c => s.updateEpoch c
  | .storeEpoch c => s.storeEpoch c
  | .loseSession => some { s with lock := none }
  | .expect x => s.expect x
  | .fence x => s.fence x
  | .readEpoch x => s.readEpoch x
  | .commit x => s.commit x
  | .abort x => s.abort x
  | .readSequence a process document => s.readSequence a process document
  | .readLastRow a => s.readLastRow a
  | .readBase a i => s.readBase a i
  | .flush i x => s.transact i x false none
  | .command i x source => s.transact i x true source
  | .reply i => s.reply i
  | .fail i => s.fail i
  | .cancel i => s.cancel i
  | .readHead i => s.readHead i
  | .readRow i => s.readRow i
  | .closeFenced i => s.closeFenced i
  | .ingest i x batch => s.ingest i x batch
  | .accept x matching => s.accept x matching
  | .compact i x replaceEqual => s.compact i x replaceEqual
  | .clear process x => s.clear process x

/-- Before anything was claimed or written. -/
def fresh [LE V] [OrderBot V] : Deployment V where
  database := ⟨0, fun _ => ⟨0, [], none, fun _ => ⊥⟩, []⟩
  lock := none
  sharing := []
  processes _ := ⟨0, 0⟩
  claims _ := none
  transactions _ := none
  sequencers _ := none
  admissions _ := none
  ingests _ := none

end Deployment
end LibrePaper.Writers
