import LibrePaper.Log.Steps

/-!
# The sequencer's quantities and the order of its log
-/
namespace LibrePaper.Log
open Library

variable {V K D : Type} [SemilatticeSup V] [OrderBot V] {P : Platform V K D}

/-- Updates of one editor, each a first and a last operation. -/
def samplePlatform : Platform ℕ (String × ℤ × List UInt8) (List UInt8) where
  decodeImportBlobMeta
    | [start, stop] => .ok ⟨stop.toNat - start.toNat, start.toNat, stop.toNat⟩
    | _ => .error "not an update"
  digestOf := id
  durableReservationKey peer seq digest := (peer, seq, digest)

def sampleConfig : Config := ⟨1024, "deployment"⟩

/-- Everything outside the document admits the update. -/
def sampleOutside : Outside := ⟨true, none, true, true, false, true, true, []⟩

def sampleStart : Sys samplePlatform := .start samplePlatform .empty

/-- A flush whose reply is lost. -/
def sampleLost : List (Op ℕ) :=
  [.ingest sampleOutside 7 "7" 1 [0, 1], .flush, .flushFailed true, .land 0, .resolve false false]

/-- What a run of the small platform ends in. -/
def sampleAfter (ops : List (Op ℕ)) : Option (Sys samplePlatform) :=
  (runOps sampleConfig sampleStart ops).map Prod.fst

lemma sampleAfter_reachable (ops : List (Op ℕ)) (h : (sampleAfter ops).isSome) :
    Reachable sampleConfig ((sampleAfter ops).get h) := by
  obtain ⟨⟨s, shown⟩, hrun, hs⟩ := Option.map_eq_some_iff.1 (Option.some_get h).symm
  exact hs ▸ Reachable.first.runOps hrun

/-- Two editors, the first one's work flushed and the second one's not. -/
def sampleTwo : List (Op ℕ) :=
  [.ingest sampleOutside 7 "7" 1 [0, 1], .flush, .flushWritten, .flushRetired [],
    .ingest sampleOutside 8 "8" 1 [1, 3]]

/-- An editor joins and sends an update. -/
def sampleJoined : List (Op ℕ) :=
  [.joinRead 0, .joinRegister 7 ⟨.editor, "7"⟩, .joinReply, .ingest sampleOutside 7 "7" 1 [0, 1]]

/-- A reader joins. -/
def sampleReader : List (Op ℕ) :=
  [.joinRead 0, .joinRegister 9 ⟨.reader, "9"⟩, .joinReply]

/-- An update with no changes. -/
def sampleEmpty : Op ℕ := .ingest sampleOutside 7 "7" 2 [1, 1]

/-- An update is written, sent again under its number, and written again. -/
def sampleAgain : List (Op ℕ) :=
  [.ingest sampleOutside 7 "7" 1 [0, 1], .flush, .flushWritten, .flushRetired [],
    .ingest sampleOutside 7 "7" 1 [0, 1], .flush, .flushWritten, .flushRetired []]

lemma samplePlatform_keysSeparate : samplePlatform.KeysSeparate := by
  intro peer seq digest peer' seq' digest' h
  exact congrArg (fun k => k.2.2) h

section Quantities

variable {inner : Inner P}

lemma Inner.Sound.encode_buffer (h : inner.Sound) :
    (encode (inner.buffer.map Pending.batch)).length = rowHeaderBytes + inner.chargedBytes := by
  rw [length_encode, h.chargedBytes, List.map_map]
  congr 2
  exact List.map_congr_left fun p _ => p.weight_eq

lemma Inner.Sound.headVector_foldl (h : inner.Sound) :
    inner.headVector = inner.buffer.foldl (fun v p => v ⊔ p.stop) inner.logVector := by
  rw [foldl_stop, h.headVector]

end Quantities

/-- Everything that a replay reads after the base, in the order it reads it. -/
def Sys.listing (s : Sys P) : List Batch :=
  s.durable.rows.flatMap LogRow.batches ++ s.inner.buffer.map Pending.batch

lemma Sys.listing_extents (s : Sys P) :
    P.extents s.listing = P.rowExtents s.durable.rows ++ pendingExtents s.inner.buffer :=
  P.extents_append _ _

variable {s : Sys P}

lemma Inv.logVector_le (h : Inv s) : s.inner.logVector ≤ s.durable.coverage P := by
  rw [h.tracks.logVector]
  exact h.durable.vectorAt_le _

lemma Inv.logVector_eq (h : Inv s) (hnow : s.inner.nextSequence = s.durable.updateSequence + 1) :
    s.inner.logVector = s.durable.coverage P := by
  rw [h.tracks.logVector, hnow, Nat.add_sub_cancel, h.durable.vectorAt_head]

lemma Inv.gapFree (h : Inv s) : GapFree s.durable.baseVector (P.extents s.listing) := by
  rw [s.listing_extents, gapFree_append]
  exact ⟨h.durable.chained.gapFree, h.inner.gapFree.mono h.logVector_le⟩

section Runs

variable [DecidableEq V] [DecidableLE V] [DecidableEq K] [DecidableEq D] {c : Config} {s : Sys P}

/-- In every reachable state the head is the log vector with the ends of the buffered
batches, the log vector is what the log covers through the last row that the sequencer
knows of, the charges are those of the buffer and the length of its frame, and every
buffered batch has a reservation key of its own. -/
theorem bookkeeping (h : Reachable c s) :
    s.inner.headVector = s.inner.buffer.foldl (fun v p => v ⊔ p.stop) s.inner.logVector ∧
    s.inner.logVector = s.durable.vectorAt (s.inner.nextSequence - 1) ∧
    s.inner.nextSequence ≤ s.durable.updateSequence + 1 ∧
    (s.inner.nextSequence = s.durable.updateSequence + 1 →
      s.inner.logVector = s.durable.coverage P) ∧
    s.inner.chargedBytes = (s.inner.buffer.map Pending.charge).sum ∧
    (encode (s.inner.buffer.map Pending.batch)).length = rowHeaderBytes + s.inner.chargedBytes ∧
    (P.KeysSeparate → (s.inner.buffer.map Pending.durableKey).Nodup) := by
  have hinv := h.inv
  exact ⟨hinv.inner.headVector_foldl, hinv.tracks.logVector, hinv.tracks.behind,
    hinv.logVector_eq, hinv.inner.chargedBytes, hinv.inner.encode_buffer, hinv.inner.keys⟩

theorem bookkeeping_two :
    (((sampleAfter sampleTwo).get rfl).inner.buffer.map Pending.durableKey).Nodup :=
  (bookkeeping (sampleAfter_reachable sampleTwo rfl)).2.2.2.2.2.2 samplePlatform_keysSeparate

/-- A row that got no answer is in the log before the sequencer knows of it. -/
theorem lost_reply_ahead :
    ∃ s : Sys samplePlatform, Reachable sampleConfig s ∧ s.inner.fenced = none ∧
      s.inner.logVector ≠ s.durable.coverage samplePlatform :=
  ⟨_, sampleAfter_reachable sampleLost rfl, rfl, by decide⟩

end Runs

end LibrePaper.Log
