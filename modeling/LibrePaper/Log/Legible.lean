import LibrePaper.Log.Bookkeeping
import LibrePaper.Log.Reading
import LibrePaper.Log.Shown

/-!
# Rows that can be read back

A row that a flush or a command hands to storage is read back exactly when no update in it is
longer than a frame may claim. Ingest bounds an update by the log quota, which the configuration
bounds only from below.
-/
namespace LibrePaper.Log
open Library List Option

/-- The least that a document is taken to cost. -/
def estimateFloor : ℕ := 64 * 1024

def buildTransientExpansion : ℕ := 8

def scratchSlack : ℕ := 8 * 1024

/-- What a document is expected to cost in memory. -/
def estimate (encodedBytes expansion : ℕ) : ℕ := max (encodedBytes * expansion) estimateFloor

/-- The most that the pending batches of one document are charged. -/
def maxPendingCharge (logQuotaBytes : ℕ) : ℕ :=
  max (maxUpdateBytes logQuotaBytes + batchHeaderBytes + maxPeerKey) bufferCeilingBytes

def maxRowBytes (logQuotaBytes : ℕ) : ℕ := rowHeaderBytes + maxPendingCharge logQuotaBytes

/-- The memory that writing a row takes: the row and both buffers of the driver. -/
def scratchFor (rowBytes : ℕ) : ℕ := rowBytes + (rowBytes + scratchSlack) * 4

/-- The sizes that a deployment is configured with. -/
structure Budgets where
  logQuotaBytes : ℕ
  memoryBudgetBytes : ℕ
  cacheExpansion : ℕ
  pendingBytes : ℕ
  pendingScratchBytes : ℕ
deriving DecidableEq

/-- The log quota holds a buffer, and the memory builds one document at the quota. -/
def Budgets.validateBudgets (b : Budgets) : Bool :=
  bufferCeilingBytes ≤ b.logQuotaBytes &&
    estimate b.logQuotaBytes b.cacheExpansion + estimate b.logQuotaBytes buildTransientExpansion ≤
      b.memoryBudgetBytes

/-- The pending work of one document fits, and so does the writing of its largest row. -/
def Budgets.validatePending (b : Budgets) : Bool :=
  b.pendingBytes ≠ 0 && b.pendingScratchBytes ≠ 0 &&
    maxPendingCharge b.logQuotaBytes ≤ b.pendingBytes &&
      scratchFor (maxRowBytes b.logQuotaBytes) ≤ b.pendingScratchBytes

def Budgets.Valid (b : Budgets) : Prop := b.validateBudgets = true ∧ b.validatePending = true

variable {V K D : Type} [SemilatticeSup V] [OrderBot V] {P : Platform V K D}

section Steps
variable [DecidableEq V] [DecidableLE V] [DecidableEq K] [DecidableEq D] {c : Config}
  {s t : Sys P} {op : Op V} {shown : List (Event V)}

/-- The row that a step hands to storage. -/
def handed (c : Config) (s : Sys P) : Op V → Option (List Batch)
  | .flush =>
    match s.gate with
    | .idle => s.inner.snapshotBuffer.map fun f => f.attempt.row.batches
    | _ => none
  | .command edit _ _ _ =>
    match s.gate with
    | .idle =>
      if s.inner.fenced.isSome ∨ s.inner.unreadable.isSome ∨ s.inner.cache = none then none
      else if edit.any fun e => ¬ (P.extent e.2).start ≤ s.inner.headVector then none
      else match edit.elim (.ok none) fun e => prepare P e.1 e.2 with
      | .error _ => none
      | .ok prepared =>
        if s.inner.commandAcks c prepared = [] then none
        else some (s.inner.commandAttempt c prepared).row.batches
    | _ => none
  | _ => none

/-- The sequence numbers of a step fit their field. -/
def Op.Typed : Op V → Prop
  | .ingest _ _ _ clientSeq _ => FitsI64 clientSeq
  | .command (some e) _ _ _ => FitsI64 e.1
  | _ => True

/-- The updates of a step are not longer than a frame may claim. -/
def Op.Fits (c : Config) : Op V → Prop
  | .ingest _ _ _ _ bytes => c.logQuotaBytes ≤ maxBatchBytes ∨ bytes.length ≤ maxBatchBytes
  | .command (some e) _ _ _ => e.2.length ≤ maxBatchBytes
  | _ => True

/-- The states that are reached from an empty log by steps that meet a condition. -/
inductive ReachedBy (c : Config) (ok : Op V → Prop) : Sys P → Prop
  | first : ReachedBy c ok (Sys.start P .empty)
  | admitted {s : Sys P} : ReachedBy c ok s → ReachedBy c ok (Sys.start P s.durable)
  | step {s t : Sys P} {shown : List (Event V)} (op : Op V) (hop : ok op) :
      ReachedBy c ok s → step c s op = some (t, shown) → ReachedBy c ok t

lemma ReachedBy.reachable {ok : Op V → Prop} (h : ReachedBy c ok s) : Reachable c s := by
  induction h with
  | first => exact .first
  | admitted _ ih => exact ih.admitted
  | step op _ _ hs ih => exact ih.step op hs

variable {clientSeq : ℤ} {batches : List Batch}

omit [DecidableEq V] in
/-- What ingest appends is the batch it was given, within its bounds. -/
lemma ingest_appended {o : Outside} {d : Durable V K D} {inner : Inner P} {socket : ℕ}
    {peerKey : String} {bytes : List UInt8} {p : Pending P}
    (h : (ingest c o d inner socket peerKey clientSeq bytes).appended = some p) :
    p.batch = ⟨peerKey, clientSeq, bytes⟩ ∧ bytes.length ≤ maxUpdateBytes c.logQuotaBytes ∧
      peerKey.utf8ByteSize ≤ maxPeerKey := by
  unfold ingest at h
  dsimp only at h
  split at h
  · cases h
  split at h
  · cases h
  · next hbytes =>
    split at h
    · cases h
    · next hpeer =>
      refine ⟨?_, not_lt.1 hbytes, not_lt.1 hpeer⟩
      split at h
      · cases h
      split at h
      · cases h
      split at h
      · cases h
      split at h
      · cases h
      split at h
      · cases h
      split at h
      · cases h
      split at h
      · cases h
      · cases h
        rfl

/-- The accepted batches are those before, and what an ingest appended. -/
lemma accepted_step (hs : step c s op = some (t, shown)) : ∀ p ∈ t.accepted, p ∈ s.accepted ∨
    ∃ o socket peerKey clientSeq bytes, op = .ingest o socket peerKey clientSeq bytes ∧
      (ingest c o s.durable s.inner socket peerKey clientSeq bytes).appended = some p := by
  intro p hp
  cases op with
  | ingest o socket peerKey clientSeq bytes =>
    cases hs
    rcases mem_append.1 hp with hp | hp
    · exact .inl hp
    · exact .inr ⟨o, socket, peerKey, clientSeq, bytes, rfl, mem_toList.1 hp⟩
  | _ =>
    refine .inl ?_
    cases (step_does hs).shows with
    | ingested o socket peerKey clientSeq bytes r hop => cases hop
    | closing hacc => exact hacc ▸ hp
    | registered _ _ _ hacc => exact hacc ▸ hp
    | joined _ _ hacc => exact hacc ▸ hp
    | retired _ _ _ _ hacc => exact hacc ▸ hp
    | committed _ _ _ _ _ hacc => exact hacc ▸ hp

/-- What every ingest of a run appends, every buffered batch is. -/
lemma ReachedBy.buffer {ok : Op V → Prop} {Q : Batch → Prop}
    (hQ : ∀ peerKey clientSeq bytes, peerKey.utf8ByteSize ≤ maxPeerKey →
      bytes.length ≤ maxUpdateBytes c.logQuotaBytes →
      (∃ o socket, ok (.ingest o socket peerKey clientSeq bytes)) → Q ⟨peerKey, clientSeq, bytes⟩)
    (h : ReachedBy c ok s) : ∀ p ∈ s.inner.buffer, Q p.batch := by
  have haccepted : ∀ p ∈ s.accepted, Q p.batch := by
    induction h with
    | first => exact nofun
    | admitted => exact nofun
    | step op hop _ hs ih =>
      intro p hp
      rcases accepted_step hs p hp with hp | ⟨o, socket, peerKey, clientSeq, bytes, rfl, happended⟩
      · exact ih p hp
      · obtain ⟨hbatch, hbytes, hpeer⟩ := ingest_appended happended
        rw [hbatch]
        exact hQ peerKey clientSeq bytes hpeer hbytes ⟨o, socket, hop⟩
  obtain ⟨gone, t, hgone, -⟩ := h.reachable.inv.history
  exact fun p hp => haccepted p (hgone ▸ mem_append_right _ hp)

omit [SemilatticeSup V] [OrderBot V] [DecidableEq V] [DecidableLE V] [DecidableEq K]
  [DecidableEq D] in
lemma prepare_eq {exported : List UInt8} {q : Prepared P}
    (h : prepare P clientSeq exported = .ok (some q)) :
    q.clientSeq = clientSeq ∧ q.bytes = exported := by
  unfold prepare at h
  split at h
  · cases h
  · split_ifs at h
    · cases h
    · obtain rfl := some.inj (Except.ok.inj h)
      exact ⟨rfl, rfl⟩

omit [DecidableEq V] [DecidableEq K] [DecidableEq D] in
/-- A row holds buffered batches and what a command prepared. -/
lemma mem_handed (h : handed c s op = some batches) :
    ∀ b ∈ batches, (∃ p ∈ s.inner.buffer, b = p.batch) ∨ ∃ e outcome imported full,
      op = .command (some e) outcome imported full ∧ b = ⟨c.deploymentPeerKey, e.1, e.2⟩ := by
  cases op with
  | flush =>
    intro b hb
    dsimp only [handed] at h
    split at h
    · obtain ⟨f, hf, rfl⟩ := map_eq_some_iff.1 h
      unfold Inner.snapshotBuffer at hf
      split_ifs at hf
      cases hf
      rcases mem_append.1 hb with hb | hb
      · obtain ⟨p, hp, rfl⟩ := mem_map.1 hb
        exact .inl ⟨p, mem_of_mem_take hp, rfl⟩
      · cases hb
    · cases h
  | command edit outcome imported full =>
    intro b hb
    dsimp only [handed] at h
    split at h
    · split_ifs at h
      split at h
      · cases h
      · next prepared hprepared =>
        split_ifs at h
        cases h
        rcases mem_append.1 hb with hb | hb
        · obtain ⟨p, hp, rfl⟩ := mem_map.1 hb
          exact .inl ⟨p, mem_of_mem_take hp, rfl⟩
        · obtain ⟨q, hq, rfl⟩ := mem_map.1 hb
          obtain rfl := mem_toList.1 hq
          cases edit with
          | none => cases hprepared
          | some e =>
            obtain ⟨hseq, hbytes⟩ := prepare_eq hprepared
            exact .inr ⟨e, outcome, imported, full, rfl, by rw [hseq, hbytes]⟩
    · cases h
  | _ => cases h

/-- A row is read back, and of it cut short only the batches before a cut between batches. -/
def ReadsBack (batches : List Batch) : Prop :=
  decode (encode batches) = .ok batches ∧ ∀ n ≤ (encode batches).length,
    (∃ k, n = (encode (batches.take k)).length) ∨ ∃ e, decode ((encode batches).take n) = .error e

lemma readsBack_of_legible (h : ∀ b ∈ batches, Legible b) : ReadsBack batches := by
  refine ⟨decode_encode h, fun n hn => ?_⟩
  cases hread : decode ((encode batches).take n) with
  | error e => exact .inr ⟨e, rfl⟩
  | ok read => exact .inl (decode_take h hn hread)

/-- Batches within the limits are read back; a row that a run hands to storage is read back
exactly when none of its updates is longer than a frame may claim; and in a run whose updates are
not longer than that, every row is. -/
theorem rows_read_back (c : Config) (hkey : c.deploymentPeerKey.utf8ByteSize ≤ maxPeerKey) :
    (∀ batches : List Batch, (∀ b ∈ batches, Legible b) → ReadsBack batches) ∧
    (∀ s : Sys P, ReachedBy c Op.Typed s → ∀ op : Op V, op.Typed → ∀ batches,
      handed c s op = some batches → (decode (encode batches) = .ok batches ↔
        ∀ b ∈ batches, b.bytes.length ≤ maxBatchBytes)) ∧
    ∀ s : Sys P, ReachedBy c (fun op => op.Typed ∧ op.Fits c) s →
      ∀ op : Op V, op.Typed → op.Fits c → ∀ batches, handed c s op = some batches →
        ReadsBack batches := by
  refine ⟨fun _ => readsBack_of_legible, fun s hs op hop batches hrow => ?_,
    fun s hs op hop hfits batches hrow => readsBack_of_legible fun b hb => ?_⟩
  · refine decode_encode_iff fun b hb => ?_
    have hbuffer := hs.buffer (Q := fun b => b.peerKey.utf8ByteSize ≤ maxPeerKey ∧
      FitsI64 b.clientSeq) fun _ _ _ hpeer _ hseq => by
        obtain ⟨_, _, hseq⟩ := hseq
        exact ⟨hpeer, hseq⟩
    rcases mem_handed hrow b hb with ⟨p, hp, rfl⟩ | ⟨e, outcome, imported, full, rfl, rfl⟩
    · exact hbuffer p hp
    · exact ⟨hkey, hop⟩
  · have hbuffer := hs.buffer (Q := Legible) fun _ _ _ hpeer hbytes hok => by
      obtain ⟨_, _, hseq, hfit⟩ := hok
      exact ⟨hpeer, hseq, hfit.elim hbytes.trans id⟩
    rcases mem_handed hrow b hb with ⟨p, hp, rfl⟩ | ⟨e, outcome, imported, full, rfl, rfl⟩
    · exact hbuffer p hp
    · exact ⟨hkey, hop, hfits⟩

end Steps

/-- A platform on which every update is one change from the start. -/
def firstPlatform : Platform ℕ ℕ Unit where
  decodeImportBlobMeta _ := .ok ⟨1, 0, 1⟩
  digestOf _ := ()
  durableReservationKey _ _ _ := 0

/-- A deployment with a larger log quota, and the memory that it takes. -/
def largeBudgets : Budgets :=
  ⟨128 * 1024 * 1024, 2048 * 1024 * 1024, 6, 192 * 1024 * 1024, 1024 * 1024 * 1024⟩

def largeConfig : Config := ⟨largeBudgets.logQuotaBytes, "deployment"⟩

def largeStart : Sys firstPlatform := .start firstPlatform .empty

/-- The state after a first update. -/
def largeAfter (bytes : List UInt8) : Sys firstPlatform :=
  { largeStart with
    inner := (largeStart.inner.appendPending sampleOutside 7
      (pendingOf firstPlatform "7" 1 bytes ⟨1, 0, 1⟩ rfl)).1
    durable := { largeStart.durable with
      reservations := [⟨0, bytes.length + overhead "7" + rowHeaderBytes, ()⟩] }
    accepted := [pendingOf firstPlatform "7" 1 bytes ⟨1, 0, 1⟩ rfl] }

lemma fitsI64_one : FitsI64 1 := by
  unfold FitsI64
  decide

lemma largeAfter_reached {bytes : List UInt8} (hne : bytes ≠ [])
    (hlength : bytes.length ≤ largeBudgets.logQuotaBytes) :
    ReachedBy largeConfig Op.Typed (largeAfter bytes) := by
  have hstep : (step largeConfig largeStart (.ingest sampleOutside 7 "7" 1 bytes)).map Prod.fst =
      some (largeAfter bytes) := by
    have hquota : ¬bytes.length > maxUpdateBytes largeConfig.logQuotaBytes := not_lt.2 hlength
    have hpeer : ¬"7".utf8ByteSize > maxPeerKey := by decide
    simp only [step, Sys.ingest, ingest, if_neg hne, if_neg hquota, if_neg hpeer]
    rfl
  obtain ⟨⟨t, shown⟩, hs, rfl⟩ := map_eq_some_iff.1 hstep
  exact ReachedBy.step (.ingest sampleOutside 7 "7" 1 bytes) fitsI64_one .first hs

/-- Under a validated configuration, an update that ingest admits is written in a row that cannot
be read back. -/
theorem long_update_is_lost : largeBudgets.Valid ∧
    ∃ s : Sys firstPlatform, ReachedBy largeConfig Op.Typed s ∧
      ∃ batches, handed largeConfig s .flush = some batches ∧
        decode (encode batches) ≠ .ok batches := by
  refine ⟨by unfold Budgets.Valid; decide, largeAfter (replicate (maxBatchBytes + 1) 0),
    largeAfter_reached ?_ ?_, [⟨"7", 1, replicate (maxBatchBytes + 1) 0⟩], rfl, fun hno => ?_⟩
  · rw [replicate_succ]
    exact cons_ne_nil _ _
  · rw [length_replicate]
    decide
  · have hlength := decode_bytes hno _ (mem_singleton_self _)
    rw [length_replicate] at hlength
    exact absurd hlength (Nat.not_succ_le_self _)

/-- The row of a short update is read back. -/
theorem short_update_is_read : ReadsBack [⟨"7", 1, [0]⟩] :=
  (rows_read_back (P := firstPlatform) largeConfig (by decide)).2.2 (largeAfter [0])
    (.step (.ingest sampleOutside 7 "7" 1 [0]) ⟨fitsI64_one, .inr (by decide)⟩ .first rfl) .flush trivial trivial _ rfl

end LibrePaper.Log
