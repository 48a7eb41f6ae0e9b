import LibrePaper.Library.Causal
import LibrePaper.Log.Frame

/-!
# The durable log

A document's log is a compaction base and the rows after it. A row is inserted only
after the row that it expects, and a base takes the rows it covers with it. Every row
carries the version that the log reaches through it.
-/
namespace LibrePaper.Log
open Library List Option

/-- What an update's header says about it. -/
structure ImportBlobMetadata (V : Type) where
  changeNum : ℕ
  partialStartVv : V
  partialEndVv : V
deriving Repr

/-- The library calls that a sequencer makes: the header decoder, the payload digest,
and the hash that names a reservation. -/
structure Platform (V K D : Type) where
  decodeImportBlobMeta : List UInt8 → Except String (ImportBlobMetadata V)
  digestOf : List UInt8 → D
  durableReservationKey : String → ℤ → D → K

variable {V K D : Type} [SemilatticeSup V] [OrderBot V]

/-- The versions that an update's header names. -/
def Platform.extent (P : Platform V K D) (bytes : List UInt8) : Extent V :=
  match P.decodeImportBlobMeta bytes with
  | .ok header => ⟨header.partialStartVv, header.partialEndVv⟩
  | .error _ => ⟨⊥, ⊥⟩

lemma Platform.extent_ok {P : Platform V K D} {bytes : List UInt8}
    {header : ImportBlobMetadata V} (h : P.decodeImportBlobMeta bytes = .ok header) :
    P.extent bytes = ⟨header.partialStartVv, header.partialEndVv⟩ := by
  simp only [Platform.extent, h]

def Platform.extents (P : Platform V K D) (batches : List Batch) : List (Extent V) :=
  batches.map fun b => P.extent b.bytes

@[simp] lemma Platform.extents_append (P : Platform V K D) (l m : List Batch) :
    P.extents (l ++ m) = P.extents l ++ P.extents m := map_append

/-- One row of the log. -/
structure LogRow (V : Type) where
  updateSequence : ℕ
  batches : List Batch
  vector : V
deriving DecidableEq

/-- The compaction base, covering every row at or below `throughUpdateSequence`. -/
structure LogBase (V : Type) where
  throughUpdateSequence : ℕ
  vector : V
  snapshotBytes : ℕ
deriving DecidableEq

/-- Durable quota held for an accepted batch until the row that carries it. -/
structure Reservation (K D : Type) where
  key : K
  bytes : ℕ
  digest : D
deriving DecidableEq

structure Durable (V K D : Type) where
  updateSequence : ℕ
  base : Option (LogBase V)
  rows : List (LogRow V)
  reservations : List (Reservation K D)
deriving DecidableEq

/-- What a flush writes, and what it expects to find. -/
structure FlushRow (V : Type) where
  expectedUpdateSequence : ℕ
  batches : List Batch
  vector : V

/-- A log nobody has typed into yet. -/
def Durable.empty : Durable V K D := ⟨0, none, [], []⟩

def Durable.baseVector (d : Durable V K D) : V := (d.base.map LogBase.vector).getD ⊥

def Durable.baseThrough (d : Durable V K D) : ℕ :=
  (d.base.map LogBase.throughUpdateSequence).getD 0

/-- Every row's sequence and coverage, oldest first. -/
def Durable.logCoverage (d : Durable V K D) : List (ℕ × V) :=
  d.rows.map fun r => (r.updateSequence, r.vector)

/-- The rows after `after`, through `through` when there is one, in order. -/
def Durable.logRows (d : Durable V K D) (after : ℕ) (through : Option ℕ) : List (LogRow V) :=
  d.rows.filter fun r => decide (after < r.updateSequence) &&
    through.all fun k => decide (r.updateSequence ≤ k)

/-- The version of the last row, or of the base when every row is compacted away. -/
def Durable.logHeadVector (d : Durable V K D) : V :=
  ((d.rows.getLast?).map LogRow.vector).getD d.baseVector

def Durable.uncompactedBytes (d : Durable V K D) : ℕ :=
  (d.rows.map fun r => (encode r.batches).length).sum

/-- Reserves quota under a key; the same reservation again is no change, and a key in
use for other bytes is refused. -/
def Durable.reservePendingLogBytes [DecidableEq K] [DecidableEq D] (d : Durable V K D)
    (room : Bool) (key : K) (bytes : ℕ) (digest : D) : Option (Durable V K D) :=
  match d.reservations.find? fun r => r.key = key with
  | some r => if r.bytes = bytes ∧ r.digest = digest then some d else none
  | none => if room then some { d with reservations := ⟨key, bytes, digest⟩ :: d.reservations }
      else none

/-- Inserts a row after the one it expects, in exchange for its reservations. -/
def Durable.insertLogRowReserved [DecidableEq K] (d : Durable V K D) (row : FlushRow V)
    (reservedKeys : List K) (reservedBytes : ℕ) : Option (Durable V K D) :=
  let removed := d.reservations.filter fun r => r.key ∈ reservedKeys
  if reservedKeys.isEmpty != (reservedBytes == 0) then none
  else if reservedBytes > 0 ∧ (removed.length ≠ reservedKeys.length ∨
      (removed.map Reservation.bytes).sum ≠ reservedBytes) then none
  else if d.updateSequence ≠ row.expectedUpdateSequence then none
  else some
    { d with
      updateSequence := d.updateSequence + 1
      rows := d.rows ++ [⟨d.updateSequence + 1, row.batches, row.vector⟩]
      reservations := d.reservations.filter fun r => r.key ∉ reservedKeys }

/-- Whether a base would move backwards, or be replaced by an equal one in vain. -/
def LogBase.keepsOut (b : LogBase V) (through : ℕ) (replaceEqual : Bool) : Bool :=
  if replaceEqual then b.throughUpdateSequence > through
  else b.throughUpdateSequence ≥ through

omit [SemilatticeSup V] [OrderBot V] in
lemma LogBase.keepsOut_cases (b : LogBase V) (through : ℕ) (replaceEqual : Bool) :
    (b.keepsOut through replaceEqual = true → through ≤ b.throughUpdateSequence) ∧
      (b.keepsOut through replaceEqual = false → b.throughUpdateSequence ≤ through) := by
  cases replaceEqual <;> simp [LogBase.keepsOut] <;> omega

/-- Activates a base and deletes the rows it covers. A base ahead of the log is an
error, and one that would move the base backwards is no change. -/
def Durable.activateLogBase (d : Durable V K D) (through : ℕ) (vector : V)
    (snapshotBytes : ℕ) (replaceEqual : Bool) : Except Unit (Option (Durable V K D)) :=
  if through > d.updateSequence then .error ()
  else if d.base.any fun b => b.keepsOut through replaceEqual then .ok none
  else .ok (some
    { d with
      base := some ⟨through, vector, snapshotBytes⟩
      rows := d.rows.filter fun r => ¬ r.updateSequence ≤ through })

/-! The rows of a log form a chain: consecutive sequences, no gap in the batches, and
the version reached through every row. -/

def Chained (P : Platform V K D) : ℕ → V → List (LogRow V) → Prop
  | _, _, [] => True
  | n, v, r :: rows => r.updateSequence = n + 1 ∧ GapFree v (P.extents r.batches) ∧
      r.vector = reach v (P.extents r.batches) ∧ Chained P (n + 1) r.vector rows

/-- The version that a chain of rows ends at. -/
def endVector (v : V) : List (LogRow V) → V
  | [] => v
  | r :: rows => endVector r.vector rows

/-- The updates of a list of rows. -/
def Platform.rowExtents (P : Platform V K D) (rows : List (LogRow V)) : List (Extent V) :=
  P.extents (rows.flatMap LogRow.batches)

@[simp] lemma Platform.rowExtents_cons (P : Platform V K D) (r : LogRow V)
    (rows : List (LogRow V)) :
    P.rowExtents (r :: rows) = P.extents r.batches ++ P.rowExtents rows := by
  simp [Platform.rowExtents]

@[simp] lemma Platform.rowExtents_append (P : Platform V K D) (l m : List (LogRow V)) :
    P.rowExtents (l ++ m) = P.rowExtents l ++ P.rowExtents m := by
  simp [Platform.rowExtents]

omit [SemilatticeSup V] [OrderBot V] in
lemma endVector_append (v : V) (l m : List (LogRow V)) :
    endVector v (l ++ m) = endVector (endVector v l) m := by
  induction l generalizing v with
  | nil => rfl
  | cons r l ih => exact ih _

variable {n k bytes through : ℕ} {equal : Bool}

lemma chained_append {P : Platform V K D} {v : V} {l m : List (LogRow V)} :
    Chained P n v (l ++ m) ↔ Chained P n v l ∧ Chained P (n + l.length) (endVector v l) m := by
  induction l generalizing n v with
  | nil => simp [Chained, endVector]
  | cons r l ih =>
    simp only [cons_append, Chained, ih, endVector, length_cons, and_assoc,
      show n + 1 + l.length = n + (l.length + 1) by omega]

lemma Chained.reach {P : Platform V K D} {v : V} {l : List (LogRow V)} (h : Chained P n v l) :
    reach v (P.rowExtents l) = endVector v l := by
  induction l generalizing n v with
  | nil => rfl
  | cons r l ih => rw [Platform.rowExtents_cons, reach_append, ← h.2.2.1, ih h.2.2.2, endVector]

lemma Chained.gapFree {P : Platform V K D} {v : V} {l : List (LogRow V)} (h : Chained P n v l) :
    GapFree v (P.rowExtents l) := by
  induction l generalizing n v with
  | nil => trivial
  | cons r l ih =>
    rw [Platform.rowExtents_cons, gapFree_append, ← h.2.2.1]
    exact ⟨h.2.1, ih h.2.2.2⟩

/-- The rows after a sequence are the rest of the chain. -/
lemma Chained.filter_after {P : Platform V K D} {v : V} {l : List (LogRow V)}
    (h : Chained P n v l) (k : ℕ) :
    l.filter (fun r => decide (k < r.updateSequence)) = l.drop (k - n) := by
  induction l generalizing n v with
  | nil => simp
  | cons r l ih =>
    rw [filter_cons, ih h.2.2.2, h.1]
    by_cases hk : k ≤ n
    · simp [show k < n + 1 by omega, show k - n = 0 by omega, show k - (n + 1) = 0 by omega]
    · rw [if_neg (by simpa using by omega), show k - n = k - (n + 1) + 1 by omega,
        drop_succ_cons]

lemma Chained.sequence_le {P : Platform V K D} {v : V} {l : List (LogRow V)}
    (h : Chained P n v l) : ∀ r ∈ l, n < r.updateSequence ∧ r.updateSequence ≤ n + l.length := by
  induction l generalizing n v with
  | nil => simp
  | cons r l ih =>
    intro x hx
    rcases mem_cons.1 hx with rfl | hx
    · exact ⟨by have := h.1; omega, by have := h.1; simp; omega⟩
    · have := ih h.2.2.2 x hx
      exact ⟨by omega, by simp; omega⟩

lemma Chained.le_endVector {P : Platform V K D} {v : V} {l : List (LogRow V)}
    (h : Chained P n v l) : v ≤ endVector v l := h.reach ▸ le_reach _ _

/-- What every log that a sequencer finds or leaves looks like. -/
structure Durable.Sound (P : Platform V K D) (d : Durable V K D) : Prop where
  chained : Chained P d.baseThrough d.baseVector d.rows
  head : d.baseThrough + d.rows.length = d.updateSequence

/-- What the base and the rows cover. -/
def Durable.coverage (P : Platform V K D) (d : Durable V K D) : V :=
  reach d.baseVector (P.rowExtents d.rows)

/-- What the log covers through row `k`. -/
def Durable.vectorAt (d : Durable V K D) (k : ℕ) : V :=
  endVector d.baseVector (d.rows.take (k - d.baseThrough))

variable {P : Platform V K D} {d : Durable V K D}

lemma Durable.Sound.split (h : d.Sound P) (k : ℕ) :
    Chained P d.baseThrough d.baseVector (d.rows.take k) ∧
      Chained P (d.baseThrough + (d.rows.take k).length) (endVector d.baseVector (d.rows.take k))
        (d.rows.drop k) :=
  chained_append.1 ((take_append_drop k d.rows).symm ▸ h.chained)

lemma Durable.Sound.vectorAt_eq (h : d.Sound P) (k : ℕ) :
    d.vectorAt k = reach d.baseVector (P.rowExtents (d.rows.take (k - d.baseThrough))) :=
  (h.split _).1.reach.symm

lemma Durable.Sound.vectorAt_head (h : d.Sound P) :
    d.vectorAt d.updateSequence = d.coverage P := by
  rw [h.vectorAt_eq, Durable.coverage, take_of_length_le (by have := h.head; omega)]

lemma Durable.Sound.vectorAt_mono (h : d.Sound P) {j : ℕ} (hjk : j ≤ k) :
    d.vectorAt j ≤ d.vectorAt k := by
  rw [h.vectorAt_eq, h.vectorAt_eq, ← take_append_drop (j - d.baseThrough)
    (d.rows.take (k - d.baseThrough)), take_take,
    show min (j - d.baseThrough) (k - d.baseThrough) = j - d.baseThrough by omega,
    Platform.rowExtents_append, reach_append]
  exact le_reach _ _

lemma Durable.Sound.baseVector_le (h : d.Sound P) (k : ℕ) : d.baseVector ≤ d.vectorAt k :=
  (h.split _).1.le_endVector

lemma Durable.Sound.vectorAt_le (h : d.Sound P) (k : ℕ) : d.vectorAt k ≤ d.coverage P := by
  rcases le_total k d.updateSequence with hk | hk
  · exact h.vectorAt_head ▸ h.vectorAt_mono hk
  · rw [h.vectorAt_eq, Durable.coverage, take_of_length_le (by have := h.head; omega)]

lemma Durable.Sound.logHeadVector (h : d.Sound P) : d.logHeadVector = d.coverage P := by
  rw [Durable.coverage, h.chained.reach, Durable.logHeadVector]
  rcases eq_nil_or_concat d.rows with hr | ⟨l, r, hr⟩
  · simp [hr, endVector]
  · simp [hr, endVector_append, endVector]

/-- The rows after a sequence, when the far end bounds none of them. -/
lemma Durable.Sound.logRows (h : d.Sound P) (k : ℕ) {through : Option ℕ}
    (hthrough : ∀ t ∈ through, d.updateSequence ≤ t) :
    d.logRows k through = d.rows.drop (k - d.baseThrough) := by
  rw [← h.chained.filter_after k, Durable.logRows]
  refine filter_congr fun r hr => ?_
  have hle := (h.chained.sequence_le r hr).2
  have := h.head
  cases through with
  | none => simp
  | some t =>
    have := hthrough t rfl
    simp [show r.updateSequence ≤ t by omega]

lemma Durable.vectorAt_succ (hk : d.baseThrough ≤ k) {row : LogRow V}
    (hrow : (d.rows.drop (k - d.baseThrough)).head? = some row) :
    d.vectorAt (k + 1) = row.vector := by
  rw [head?_drop] at hrow
  rw [Durable.vectorAt, show k + 1 - d.baseThrough = k - d.baseThrough + 1 by omega,
    take_add_one, hrow, endVector_append]
  rfl

lemma Durable.Sound.empty : (Durable.empty : Durable V K D).Sound P := ⟨trivial, rfl⟩

/-- The log with one row more. -/
def Durable.push (d : Durable V K D) (batches : List Batch) (vector : V)
    (reservations : List (Reservation K D)) : Durable V K D :=
  { d with
    updateSequence := d.updateSequence + 1
    rows := d.rows ++ [⟨d.updateSequence + 1, batches, vector⟩]
    reservations := reservations }

omit [SemilatticeSup V] [OrderBot V] in
lemma Durable.insertLogRowReserved_spec [DecidableEq K] {row : FlushRow V} {keys : List K}
    {d' : Durable V K D} (h : d.insertLogRowReserved row keys bytes = some d') :
    d.updateSequence = row.expectedUpdateSequence ∧
      ∃ left, d' = d.push row.batches row.vector left := by
  simp only [Durable.insertLogRowReserved] at h
  split_ifs at h with _ _ hseq
  exact ⟨not_not.1 hseq, _, (some.inj h).symm⟩

variable {batches : List Batch} {vector : V} {left : List (Reservation K D)}

lemma Durable.Sound.push (h : d.Sound P) (hgap : GapFree (d.coverage P) (P.extents batches))
    (hvec : vector = reach (d.coverage P) (P.extents batches)) :
    (d.push batches vector left).Sound P := by
  refine ⟨chained_append.2 ⟨h.chained, ?_, ?_, ?_, trivial⟩, ?_⟩
  · exact congrArg (· + 1) h.head.symm
  · exact h.chained.reach ▸ hgap
  · exact h.chained.reach ▸ hvec
  · have := h.head
    simp only [Durable.push, Durable.baseThrough, List.length_append, List.length_singleton] at *
    omega

lemma Durable.coverage_push (d : Durable V K D) :
    (d.push batches vector left).coverage P = reach (d.coverage P) (P.extents batches) := by
  simp [Durable.coverage, Durable.push, Platform.rowExtents, Durable.baseVector]

lemma Durable.Sound.vectorAt_push (h : d.Sound P) (hk : k ≤ d.updateSequence) :
    (d.push batches vector left).vectorAt k = d.vectorAt k := by
  have := h.head
  simp only [Durable.vectorAt, Durable.push, Durable.baseThrough, Durable.baseVector] at *
  rw [take_append_of_le_length (by omega)]

lemma Durable.Sound.vectorAt_push_self (h : d.Sound P) :
    (d.push batches vector left).vectorAt (d.updateSequence + 1) = vector := by
  have := h.head
  simp only [Durable.vectorAt, Durable.push, Durable.baseThrough, Durable.baseVector] at *
  rw [take_of_length_le (by simp; omega), endVector_append]
  rfl

/-- The log under a new base. -/
def Durable.rebase (d : Durable V K D) (through : ℕ) (vector : V) (snapshotBytes : ℕ) :
    Durable V K D :=
  { d with
    base := some ⟨through, vector, snapshotBytes⟩
    rows := d.rows.filter fun r => ¬ r.updateSequence ≤ through }

omit [SemilatticeSup V] [OrderBot V] in
lemma Durable.activateLogBase_spec {d' : Durable V K D}
    (h : d.activateLogBase through vector bytes equal = .ok (some d')) :
    through ≤ d.updateSequence ∧ d.baseThrough ≤ through ∧ d' = d.rebase through vector bytes := by
  simp only [Durable.activateLogBase] at h
  split_ifs at h with hhead hstale
  · cases h
  · refine ⟨not_lt.1 hhead, ?_, (some.inj (Except.ok.inj h)).symm⟩
    rw [Durable.baseThrough]
    cases hb : d.base with
    | none => exact Nat.zero_le _
    | some b =>
      simp only [hb, any_some, Bool.not_eq_true] at hstale
      exact (b.keepsOut_cases through equal).2 hstale

omit [SemilatticeSup V] [OrderBot V] in
lemma Durable.activateLogBase_stale (h : d.activateLogBase through vector bytes equal = .ok none) :
    ∃ b, d.base = some b ∧ through ≤ b.throughUpdateSequence := by
  simp only [Durable.activateLogBase] at h
  split_ifs at h with hhead hstale
  · cases hb : d.base with
    | none => simp [hb] at hstale
    | some b =>
      rw [hb, any_some] at hstale
      exact ⟨b, rfl, (b.keepsOut_cases through equal).1 hstale⟩
  · cases h

section Rebase

variable {through bytes : ℕ} (h : d.Sound P) (hbase : d.baseThrough ≤ through)
  (hhead : through ≤ d.updateSequence) (hvec : vector = d.vectorAt through)

include h in
lemma Durable.Sound.rebase_rows :
    (d.rebase through vector bytes).rows = d.rows.drop (through - d.baseThrough) := by
  have := h.chained.filter_after through
  simpa [Durable.rebase] using this

include h hbase hvec in
lemma Durable.Sound.vectorAt_rebase (hk : through ≤ k) :
    (d.rebase through vector bytes).vectorAt k = d.vectorAt k := by
  rw [Durable.vectorAt, h.rebase_rows, Durable.vectorAt,
    show k - d.baseThrough = through - d.baseThrough + (k - through) by omega, take_add,
    endVector_append]
  exact congrArg (endVector · _) hvec

include h hbase hhead hvec

lemma Durable.Sound.rebase : (d.rebase through vector bytes).Sound P := by
  have hlen := h.head
  constructor
  · rw [h.rebase_rows]
    have hsplit := (h.split (through - d.baseThrough)).2
    rw [length_take, show d.baseThrough + min (through - d.baseThrough) d.rows.length =
      through by omega] at hsplit
    exact (congrArg (Chained P through · _) hvec).mpr hsplit
  · rw [h.rebase_rows, length_drop]
    simp only [Durable.rebase, Durable.baseThrough, map_some, getD_some] at *
    omega

lemma Durable.Sound.coverage_rebase :
    (d.rebase through vector bytes).coverage P = d.coverage P := by
  rw [← (h.rebase hbase hhead hvec).vectorAt_head, ← h.vectorAt_head]
  exact h.vectorAt_rebase hbase hvec hhead

end Rebase

end LibrePaper.Log
