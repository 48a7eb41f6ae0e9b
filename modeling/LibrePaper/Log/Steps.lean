import LibrePaper.Log.Invariant

/-!
# Every step keeps the invariant
-/
namespace LibrePaper.Log
open Library List

set_option linter.unusedSectionVars false

variable {V K D : Type} [SemilatticeSup V] [OrderBot V] {P : Platform V K D}

variable {inner : Inner P} {f : Flight P} {s : Sys P}

/-- What a prefix of the buffer adds to the log vector. -/
lemma Inner.Sound.split (h : inner.Sound) (take : ℕ) :
    GapFree inner.logVector (pendingExtents (inner.buffer.take take)) ∧
      GapFree (inner.vectorThrough take) (pendingExtents (inner.buffer.drop take)) ∧
      inner.headVector = reach (inner.vectorThrough take)
        (pendingExtents (inner.buffer.drop take)) := by
  have hsplit := take_append_drop take inner.buffer
  have hgap := h.gapFree
  have hhead := h.headVector
  rw [← hsplit, pendingExtents_append, gapFree_append] at hgap
  rw [← hsplit, pendingExtents_append, reach_append] at hhead
  rw [Inner.vectorThrough_eq]
  exact ⟨hgap.1, hgap.2, hhead⟩

/-- A flush's attempt is one that storage may take. -/
lemma Flight.Of.ready {d : Durable V K D} (h : f.Of inner) (hs : inner.Sound)
    (ht : Tracks inner d) : f.attempt.Ready inner (inner.buffer.take f.take) := by
  have hpos := ht.through
  rw [h.attempt]
  refine ⟨by simp only [Inner.attemptOf]; omega, fun _ => ?_, fun _ => ?_, fun _ => prefix_rfl⟩
  · rw [Inner.attemptOf_extents]
    exact (hs.split f.take).1
  · rw [Inner.attemptOf_extents]
    exact inner.vectorThrough_eq f.take

/-- `i` is `j` after one more batch. -/
structure Inner.Appends (p : Pending P) (i j : Inner P) : Prop where
  nextSequence : i.nextSequence = j.nextSequence
  logVector : i.logVector = j.logVector
  headVector : i.headVector = j.headVector ⊔ p.stop
  buffer : i.buffer = j.buffer ++ [p]
  bufferBytes : i.bufferBytes = j.bufferBytes + p.bytes.length
  chargedBytes : i.chargedBytes = j.chargedBytes + p.charge
  base : i.fenced = none →
    j.fenced = none ∧ i.baseVector = j.baseVector ∧ i.hasBase = j.hasBase
  subscribers : i.subscribers.Sublist j.subscribers

lemma Inner.appendPending_appends [DecidableLE V] (inner : Inner P) (o : Outside)
    (socket : ℕ) (p : Pending P) : Inner.Appends p (inner.appendPending o socket p).1 inner :=
  ⟨rfl, rfl, rfl, rfl, rfl, rfl, fun h => ⟨h, rfl, rfl⟩, filter_sublist⟩

section Append

variable {i j : Inner P} {p : Pending P} {d : Durable V K D}

lemma Inner.Appends.take (h : Inner.Appends p i j) {n : ℕ} (hn : n ≤ j.buffer.length) :
    i.buffer.take n = j.buffer.take n := by
  rw [h.buffer, take_append_of_le_length hn]

lemma Inner.Sound.append (hj : j.Sound) (h : Inner.Appends p i j)
    (hstart : (P.extent p.bytes).start ≤ j.headVector)
    (hkey : P.KeysSeparate → p.durableKey ∉ j.buffer.map Pending.durableKey) : i.Sound where
  headVector := by
    rw [h.headVector, h.logVector, h.buffer, pendingExtents_append, reach_append,
      ← hj.headVector, pendingExtents_cons, reach_cons, ← p.stop_eq, pendingExtents_nil, reach_nil]
  gapFree := by
    rw [h.logVector, h.buffer, pendingExtents_append, gapFree_append, ← hj.headVector]
    exact ⟨hj.gapFree, hstart, trivial⟩
  bufferBytes := by simp [h.bufferBytes, h.buffer, hj.bufferBytes]
  chargedBytes := by simp [h.chargedBytes, h.buffer, hj.chargedBytes]
  subscribers := (h.subscribers.map Prod.fst).nodup hj.subscribers
  keys := by
    intro hk
    rw [h.buffer, map_append]
    exact Nodup.append (hj.keys hk) (nodup_singleton _) (disjoint_singleton.2 (hkey hk))

lemma Tracks.append (hj : Tracks j d) (h : Inner.Appends p i j) : Tracks i d where
  through := h.nextSequence ▸ hj.through
  behind := h.nextSequence ▸ hj.behind
  logVector := by rw [h.logVector, h.nextSequence, hj.logVector]
  base := fun hi =>
    have hj' := h.base hi
    have hd := hj.base hj'.1
    ⟨hj'.2.1.trans hd.1, hj'.2.2.trans hd.2⟩

lemma Flight.Of.append (hf : f.Of j) (h : Inner.Appends p i j) : f.Of i where
  take_le := by
    have := hf.take_le
    rw [h.buffer, List.length_append]
    omega
  acknowledged := by
    rw [hf.acknowledged]
    exact Inner.ackPrefix_congr (h.take hf.take_le).symm
  attempt := by
    rw [hf.attempt]
    exact Inner.attemptOf_congr h.nextSequence.symm h.logVector.symm (h.take hf.take_le).symm

lemma JoinView.append {coverage : List (ℕ × V)} (hj : JoinView j d coverage)
    (h : Inner.Appends p i j) : JoinView i d coverage := by
  obtain ⟨n, hn, hcov, hnext⟩ := hj
  exact ⟨n, hn, hcov, h.nextSequence ▸ hnext⟩

lemma Attempt.Ready.append {u : List (Pending P)} {a : Attempt P} (ha : a.Ready j u)
    (h : Inner.Appends p i j) : a.Ready i u := by
  obtain ⟨hold, hgap, hvec, htaken⟩ := ha
  rw [← h.nextSequence] at hold hgap hvec htaken
  rw [← h.logVector] at hgap hvec
  exact ⟨hold, hgap, hvec, htaken⟩

lemma Gate.Ok.append {g : Gate P} (hg : g.Ok j d) (h : Inner.Appends p i j) :
    g.Ok i d ∧ g.underWay j.buffer <+: g.underWay i.buffer := by
  have hbuf : j.buffer <+: i.buffer := h.buffer ▸ prefix_append _ _
  cases g with
  | idle => exact ⟨trivial, hbuf⟩
  | flushing f => exact ⟨Flight.Of.append hg h, by simp [Gate.underWay, h.take hg.take_le]⟩
  | resolving f => exact ⟨Flight.Of.append hg h, by simp [Gate.underWay, h.take hg.take_le]⟩
  | written f n =>
    refine ⟨⟨hg.1.append h, hg.2.1.trans h.nextSequence.symm, hg.2.2⟩, ?_⟩
    simp [Gate.underWay, h.take hg.1.take_le]
  | joining j => exact ⟨JoinView.append hg h, hbuf⟩
  | joined r => exact ⟨⟨hg.view.append h, h.logVector ▸ hg.gapFree, h.logVector ▸ hg.vector,
      h.logVector ▸ hg.durableVector, hg.base⟩, hbuf⟩

lemma Inv.append {s : Sys P} (hs : Inv s) (h : Inner.Appends p inner s.inner)
    (hstart : (P.extent p.bytes).start ≤ s.inner.headVector)
    (hkey : P.KeysSeparate → p.durableKey ∉ s.inner.buffer.map Pending.durableKey) :
    Inv { s with inner := inner, accepted := s.accepted ++ [p] } where
  durable := hs.durable
  tracks := hs.tracks.append h
  inner := hs.inner.append h hstart hkey
  gate := (hs.gate.append h).1
  lost := fun a ha => ((hs.lost a ha).append h).mono (hs.gate.append h).2
  snapshots := fun n hn => ⟨h.nextSequence ▸ (hs.snapshots n hn).1, (hs.snapshots n hn).2⟩
  history := by
    obtain ⟨gone, t, hacc, hgone, ht, hsub, hsync⟩ := hs.history
    refine ⟨gone, t, ?_, h.logVector ▸ hgone, ht.trans (hs.gate.append h).2, hsub, ?_⟩
    · simp [hacc, h.buffer]
    · exact fun hn => hsync (h.nextSequence ▸ hn)

end Append

lemma Gate.Ok.reserve {d : Durable V K D} {g : Gate P} (h : g.Ok inner d)
    (left : List (Reservation K D)) : g.Ok inner { d with reservations := left } := by
  cases g with
  | idle => trivial
  | flushing f => exact h
  | resolving f => exact h
  | written f n => exact h
  | joining j => exact h
  | joined r => exact ⟨h.view, h.gapFree, h.vector, h.durableVector, h.base⟩

lemma Inv.reserve (h : Inv s) (left : List (Reservation K D)) :
    Inv { s with durable := { s.durable with reservations := left } } :=
  ⟨⟨h.durable.chained, h.durable.head⟩,
    ⟨h.tracks.through, h.tracks.behind, h.tracks.logVector, h.tracks.base⟩, h.inner, h.gate.reserve left, h.lost, h.snapshots, h.history⟩

/-- A buffered batch under the same key would have been found with the same payload. -/
lemma fresh_key [DecidableEq K] {p : Pending P} (hk : P.KeysSeparate)
    (hfresh : ∀ q, (inner.buffer.find? fun q => q.durableKey = p.durableKey) = some q →
      q.durableDigest ≠ p.durableDigest) : p.durableKey ∉ inner.buffer.map Pending.durableKey := by
  intro hmem
  obtain ⟨q, hq, hkey⟩ := mem_map.1 hmem
  have hsome : (inner.buffer.find? fun q => q.durableKey = p.durableKey).isSome :=
    find?_isSome.2 ⟨q, hq, decide_eq_true hkey⟩
  obtain ⟨r, hr⟩ := Option.isSome_iff_exists.1 hsome
  have hrkey := find?_some hr
  rw [decide_eq_true_eq, r.key_eq, p.key_eq] at hrkey
  exact hfresh r hr (hk _ _ _ _ _ _ hrkey)

/-- `i` is `j` after a row with its first `take` batches, which the log reaches `v` by. -/
structure Inner.Retires (take n : ℕ) (v : V) (i j : Inner P) : Prop where
  nextSequence : i.nextSequence = n + 1
  logVector : i.logVector = v
  headVector : i.headVector = reach v (pendingExtents (j.buffer.drop take))
  buffer : i.buffer = j.buffer.drop take
  bufferBytes : i.bufferBytes = ((j.buffer.drop take).map fun p => p.bytes.length).sum
  chargedBytes : i.chargedBytes = ((j.buffer.drop take).map Pending.charge).sum
  base : i.fenced = none →
    j.fenced = none ∧ i.baseVector = j.baseVector ∧ i.hasBase = j.hasBase
  subscribers : i.subscribers.Sublist j.subscribers
  covers : j.vectorThrough take ≤ v

section Retire

variable {i j : Inner P} {take n : ℕ} {v : V}

lemma Inner.Retires.quiet {i' : Inner P} (h : Inner.Retires take n v i j) (hq : i'.Quiet i) :
    Inner.Retires take n v i' j :=
  ⟨hq.nextSequence.trans h.1, hq.logVector.trans h.2, hq.headVector.trans h.3,
    hq.buffer.trans h.4, hq.bufferBytes.trans h.5, hq.chargedBytes.trans h.6, fun hi =>
      have hj := hq.base hi
      have hk := h.base hj.1
      ⟨hk.1, hj.2.1.trans hk.2.1, hj.2.2.trans hk.2.2⟩, hq.subscribers.trans h.8, h.9⟩

lemma Inner.Sound.retire (hj : j.Sound) (h : Inner.Retires take n v i j) : i.Sound where
  headVector := by rw [h.headVector, h.logVector, h.buffer]
  gapFree := by
    rw [h.logVector, h.buffer]
    exact (hj.split take).2.1.mono h.covers
  bufferBytes := by rw [h.bufferBytes, h.buffer]
  chargedBytes := by rw [h.chargedBytes, h.buffer]
  subscribers := (h.subscribers.map Prod.fst).nodup hj.subscribers
  keys := by
    intro hk
    rw [h.buffer]
    exact ((drop_sublist take j.buffer).map Pending.durableKey).nodup (hj.keys hk)

lemma Inv.retire (hs : Inv s) (h : Inner.Retires take n v inner s.inner)
    (hn : n = s.inner.nextSequence) (hle : n ≤ s.durable.updateSequence)
    (hv : s.durable.vectorAt n = v) (hu : s.underWay <+: s.inner.buffer.take take) :
    Inv { s with inner := inner, gate := .idle } where
  durable := hs.durable
  tracks :=
    { through := by
        have hthrough := hs.tracks.through
        rw [h.nextSequence, hn]
        exact hthrough.trans (Nat.le_succ _)
      behind := h.nextSequence ▸ Nat.succ_le_succ hle
      logVector := by rw [h.logVector, h.nextSequence, Nat.add_sub_cancel, hv]
      base := fun hi =>
        have hj := h.base hi
        have hd := hs.tracks.base hj.1
        ⟨hj.2.1.trans hd.1, hj.2.2.trans hd.2⟩ }
  inner := hs.inner.retire h
  gate := trivial
  lost := by
    intro a ha
    have hold := (hs.lost a ha).old
    have hnew : a.expected + 1 ≠ inner.nextSequence := by
      rw [h.nextSequence]
      omega
    exact ⟨by rw [h.nextSequence]; omega, fun hc => absurd hc hnew, fun hc => absurd hc hnew,
      fun hc => absurd hc hnew⟩
  snapshots := by
    intro m hm
    obtain ⟨hm1, hm2⟩ := hs.snapshots m hm
    exact ⟨by rw [h.nextSequence]; omega, hm2⟩
  history := by
    obtain ⟨gone, t, hacc, hgone, ht, hsub, -⟩ := hs.history
    have hthrough : s.inner.logVector ≤ s.inner.vectorThrough take := by
      rw [Inner.vectorThrough_eq]
      exact le_reach _ _
    refine ⟨gone ++ s.inner.buffer.take take, [], ?_, ?_, nil_prefix, ?_, fun _ => rfl⟩
    · rw [h.buffer, append_assoc, take_append_drop, hacc]
    · intro b hb
      rw [h.logVector]
      rcases mem_append.1 hb with hb | hb
      · exact (hgone b hb).trans (hthrough.trans h.covers)
      · refine le_trans ?_ h.covers
        rw [Inner.vectorThrough_eq]
        exact stop_le_reach_pending hb
    · rw [append_nil]
      exact hsub.trans ((Sublist.refl gone).append (ht.trans hu).sublist)

end Retire

lemma Inner.finishFlush_retires (hs : inner.Sound) (hf : f.Of inner) (full : List ℕ) (n : ℕ) :
    Inner.Retires f.take n f.attempt.vector (inner.finishFlush full f n).1 inner := by
  have hvec : f.attempt.vector = inner.vectorThrough f.take := by
    rw [hf.attempt]
    rfl
  have hretired : Inner.Retires f.take n f.attempt.vector
      (inner.retire f.take n f.attempt.vector (encode f.attempt.row.batches).length)
      inner := by
    refine ⟨rfl, rfl, ?_, rfl, rfl, rfl, fun h => ⟨h, rfl, rfl⟩, Sublist.refl _, hvec.ge⟩
    rw [hvec]
    exact (hs.split f.take).2.2
  exact hretired.quiet ((notifyDurable_quiet full _).trans (acknowledge_quiet full _ _))

section Steps

variable [DecidableEq V] [DecidableLE V] [DecidableEq K] [DecidableEq D] {c : Config}
  {s s' : Sys P} {shown : List (Event V)}

variable {socket i bytes : ℕ} {clientSeq : ℤ} {sent sequenceRead rowsRead reread : Bool}
  {full : List ℕ} {prepared : Option (Prepared P)} {edit : Option (ℤ × List UInt8)}

lemma Inv.ingest {o : Outside} {peerKey : String} {bytes : List UInt8} (h : Inv s)
    (hs : s.ingest c o socket peerKey clientSeq bytes = some (s', shown)) : Inv s' := by
  have hcases := ingest_cases c o s.durable s.inner socket peerKey clientSeq bytes
  unfold Sys.ingest at hs
  generalize Log.ingest c o s.durable s.inner socket peerKey clientSeq bytes = r at hcases hs
  cases hs
  cases hcases with
  | refused answer left => simpa using h.reserve left
  | duplicate => simpa using h
  | empty => simpa using h.quiet (acknowledgePeer_quiet _ _ _ _)
  | appended header hdecode left hfenced hfresh hstart =>
    refine (h.append (s.inner.appendPending_appends o socket _) ?_ fun hk => ?_).reserve left
    · rw [show (pendingOf P peerKey clientSeq bytes header hdecode).bytes = bytes from rfl,
        Platform.extent_ok hdecode]
      exact hstart
    · exact fresh_key hk hfresh

lemma Inv.flush (h : Inv s) (hs : s.flush = some (s', shown)) : Inv s' := by
  unfold Sys.flush at hs
  split at hs
  · rename_i f hgate hsnap
    cases hs
    unfold Inner.snapshotBuffer at hsnap
    split_ifs at hsnap
    cases hsnap
    refine h.regate _ ⟨le_rfl, rfl, rfl⟩ ?_
    simp only [Gate.underWay, take_length]
    exact s.gate.underWay_prefix _
  · cases hs

/-- The flight of a gate, ready for storage. -/
lemma Inv.flight (h : Inv s) (hgate : s.gate = .flushing f ∨ s.gate = .resolving f) :
    f.Of s.inner ∧ s.underWay = s.inner.buffer.take f.take ∧
      f.attempt.Ready s.inner s.underWay := by
  have hok := h.gate
  have hunder : s.underWay = s.inner.buffer.take f.take := by
    rcases hgate with hgate | hgate <;> simp only [Sys.underWay, hgate, Gate.underWay]
  have hf : f.Of s.inner := by rcases hgate with hgate | hgate <;> rwa [hgate] at hok
  exact ⟨hf, hunder, hunder ▸ hf.ready h.inner h.tracks⟩

lemma Inv.flushWritten (h : Inv s) (hs : s.flushWritten = some (s', shown)) : Inv s' := by
  unfold Sys.flushWritten at hs
  split at hs
  · rename_i f hgate
    obtain ⟨t, ht, hst⟩ := Option.map_eq_some_iff.1 hs
    cases hst
    obtain ⟨hf, hunder, hready⟩ := h.flight (.inl hgate)
    obtain ⟨hinv, hnow, left, rfl⟩ := h.commit hready ht
    refine hinv.regate _ ⟨hf, hnow.symm, le_rfl, h.durable.vectorAt_push_self⟩ ?_
    exact hunder.symm ▸ prefix_rfl
  · cases hs

lemma Inv.loseFlight (h : Inv s) (hgate : s.gate = .flushing f ∨ s.gate = .resolving f)
    (sent : Bool) : Inv { s with lost := if sent then s.lost ++ [f.attempt] else s.lost } := by
  cases sent
  · exact h
  · exact h.lose (h.flight hgate).2.2

lemma Inv.flushFailed (h : Inv s) (hs : s.flushFailed sent = some (s', shown)) : Inv s' := by
  unfold Sys.flushFailed at hs
  split at hs
  · rename_i f hgate
    cases hs
    obtain ⟨hf, hunder, -⟩ := h.flight (.inl hgate)
    exact (h.loseFlight (.inl hgate) sent).regate (.resolving f) hf (hunder.symm ▸ prefix_rfl)
  · cases hs

lemma Inv.fence (h : Inv s) (why : String) : Inv (s.fence why).1 :=
  (h.quiet (s.inner.fence_quiet why)).release

/-- A row under the next sequence that has the attempted vector settles the attempt. -/
lemma resolve_written {n : ℕ} (h : Inv s) (hf : f.Of s.inner)
    (hr : resolveAmbiguousFlush s.durable sequenceRead rowsRead
      f.attempt.expected f.attempt.vector = .written n) :
    n = s.inner.nextSequence ∧ n ≤ s.durable.updateSequence ∧
      s.durable.vectorAt n = f.attempt.vector := by
  have hthrough := h.tracks.through
  have hexp : f.attempt.expected = s.inner.nextSequence - 1 := by
    rw [hf.attempt]
    rfl
  unfold resolveAmbiguousFlush at hr
  split at hr
  · cases hr
  split at hr
  · cases hr
  split at hr
  · cases hr
  rename_i hhead
  split at hr
  · cases hr
  split at hr
  · rename_i row hrow
    split at hr
    · rename_i hvec
      obtain rfl := Resolution.written.inj hr
      refine ⟨by omega, by omega, ?_⟩
      rw [h.durable.logRows _ (by simp only [Option.mem_def, Option.some.injEq]; omega)] at hrow
      rw [Durable.vectorAt_succ (by omega) hrow, hvec]
    · cases hr
  · cases hr

lemma Inv.resolve (h : Inv s) (hs : s.resolve sequenceRead rowsRead = some (s', shown)) :
    Inv s' := by
  unfold Sys.resolve at hs
  split at hs
  · rename_i f hgate
    obtain ⟨hf, hunder, -⟩ := h.flight (.inr hgate)
    split at hs
    · rename_i n hr
      cases hs
      exact h.regate (.written f n) ⟨hf, resolve_written h hf hr⟩ (hunder.symm ▸ prefix_rfl)
    · cases hs
      exact h.release
    · rename_i why hr
      have hs' : s' = (s.fence why).1 := congrArg Prod.fst (Option.some.inj hs).symm
      exact hs' ▸ h.fence why
  · cases hs

lemma Inv.flushRetired (h : Inv s) (hs : s.flushRetired full = some (s', shown)) : Inv s' := by
  unfold Sys.flushRetired at hs
  split at hs
  · rename_i f n hgate
    cases hs
    have hok := h.gate
    rw [hgate] at hok
    obtain ⟨hf, hn, hle, hv⟩ := hok
    refine h.retire (Inner.finishFlush_retires h.inner hf full n) hn hle hv ?_
    simp [Sys.underWay, hgate, Gate.underWay]
  · cases hs

lemma Inv.cancel (h : Inv s) (hs : s.cancel sent = some (s', shown)) : Inv s' := by
  unfold Sys.cancel at hs
  split at hs
  · cases hs
  · rename_i f hgate
    cases hs
    exact (h.loseFlight (.inl hgate) sent).release
  · cases hs
    exact h.release

lemma Inv.forget {lost : List (Attempt P)} (h : Inv s) (hl : lost ⊆ s.lost) :
    Inv { s with lost := lost } :=
  ⟨h.durable, h.tracks, h.inner, h.gate, fun a ha => h.lost a (hl ha), h.snapshots, h.history⟩

lemma Inv.land (h : Inv s) (hs : s.land i = some (s', shown)) : Inv s' := by
  unfold Sys.land at hs
  split at hs
  · rename_i a ha
    obtain ⟨t, ht, hst⟩ := Option.map_eq_some_iff.1 hs
    cases hst
    obtain ⟨hinv, -, left, rfl⟩ := h.commit (h.lost a (mem_of_getElem? ha)) ht
    exact hinv.forget (eraseIdx_sublist s.lost i).subset
  · cases hs

lemma Inv.otherRow {batches : List Batch} (h : Inv s)
    (hs : s.otherRow batches = some (s', shown)) : Inv s' := by
  unfold Sys.otherRow at hs
  split at hs
  · rename_i hgap
    cases hs
    exact h.push hgap rfl (.inl rfl)
  · cases hs

lemma prepare_spec {exported : List UInt8} (h : prepare P clientSeq exported = .ok prepared) :
    ∀ p ∈ prepared, p.bytes = exported := by
  unfold prepare at h
  split at h
  · cases h
  · split_ifs at h
    · cases h
      simp
    · cases h
      simp

lemma preparedBatches_extents (prepared : Option (Prepared P)) :
    P.extents (preparedBatches c prepared) =
      prepared.toList.map fun p => ⟨p.header.partialStartVv, p.header.partialEndVv⟩ := by
  cases prepared with
  | none => rfl
  | some p => simp [preparedBatches, Platform.extents, Platform.extent_ok p.decoded]

lemma Inner.commandAttempt_vector (inner : Inner P) (prepared : Option (Prepared P)) :
    (inner.commandAttempt c prepared).vector =
      reach (inner.vectorThrough inner.buffer.length) (P.extents (preparedBatches c prepared)) := by
  rw [preparedBatches_extents]
  cases prepared <;> rfl

lemma Inner.commandAttempt_ready {d : Durable V K D} (hs : inner.Sound) (ht : Tracks inner d)
    (hstart : ∀ p ∈ prepared, p.header.partialStartVv ≤ inner.headVector) :
    (inner.commandAttempt c prepared).Ready inner inner.buffer := by
  have hpos := ht.through
  have hhead : inner.headVector = inner.vectorThrough inner.buffer.length := by
    simpa using (hs.split inner.buffer.length).2.2
  have hextents : P.extents (inner.commandAttempt c prepared).row.batches =
      pendingExtents (inner.buffer.take inner.buffer.length) ++
        P.extents (preparedBatches c prepared) := Attempt.extents _
  refine ⟨by simp only [Inner.commandAttempt, Inner.attemptOf]; omega, fun _ => ?_, fun _ => ?_,
    fun _ => ?_⟩
  · rw [hextents, gapFree_append]
    refine ⟨(hs.split inner.buffer.length).1, ?_⟩
    rw [preparedBatches_extents]
    cases prepared with
    | none => trivial
    | some p =>
      refine ⟨(hstart p rfl).trans ?_, trivial⟩
      exact (hhead.trans (inner.vectorThrough_eq _)).le
  · rw [Inner.commandAttempt_vector, Inner.vectorThrough_eq, hextents, reach_append]
  · simp [Inner.commandAttempt, Inner.attemptOf]

lemma Inner.finishCommand_retires (hs : inner.Sound) (full : List ℕ) (imported : Bool) (n : ℕ)
    (hacks : inner.commandAcks c prepared ≠ []) :
    Inner.Retires inner.buffer.length n (inner.commandAttempt c prepared).vector
      (inner.finishCommand c full imported prepared n).1 inner := by
  have hhead : inner.headVector = inner.vectorThrough inner.buffer.length := by
    simpa using (hs.split inner.buffer.length).2.2
  rw [Inner.finishCommand, if_neg hacks]
  refine Inner.Retires.quiet ?_ ((notifyDurable_quiet full _).trans (acknowledge_quiet full _ _))
  cases prepared with
  | none =>
    refine ⟨rfl, rfl, ?_, rfl, rfl, rfl, fun h => ⟨h, rfl, rfl⟩, Sublist.refl _, le_rfl⟩
    rw [drop_length]
    exact hhead
  | some p =>
    refine ⟨rfl, rfl, ?_, rfl, rfl, rfl, fun h => ⟨h, rfl, rfl⟩, filter_sublist, le_sup_left⟩
    rw [drop_length]
    exact congrArg (· ⊔ p.header.partialEndVv) hhead

/-- What a command evaluated at the head starts from. -/
lemma prepared_start
    (hedit : ¬ (edit.any fun e => ¬ (P.extent e.2).start ≤ s.inner.headVector) = true)
    (hprep : (edit.elim (.ok none) fun e => prepare P e.1 e.2) = .ok prepared) :
    ∀ p ∈ prepared, p.header.partialStartVv ≤ s.inner.headVector := by
  intro p hp
  cases edit with
  | none =>
    cases hprep
    cases hp
  | some e =>
    have hbytes := prepare_spec hprep p hp
    simp only [Option.any_some, decide_eq_true_eq, not_not, ← hbytes,
      Platform.extent_ok p.decoded] at hedit
    exact hedit

lemma Inv.command {outcome : CommandOutcome} {imported : Bool} (h : Inv s)
    (hs : s.command c edit outcome imported full = some (s', shown)) : Inv s' := by
  unfold Sys.command at hs
  split at hs
  · rename_i hgate
    split at hs
    · cases hs
    split at hs
    · cases hs
    rename_i hedit
    split at hs
    · cases hs
    rename_i prepared hprep
    have hunder : s.underWay = s.inner.buffer := by simp only [Sys.underWay, hgate, Gate.underWay]
    have hready := Inner.commandAttempt_ready (c := c) h.inner h.tracks (prepared_start hedit hprep)
    rw [← hunder] at hready
    split at hs
    · cases hs
      exact h
    · cases hs
      split_ifs
      · exact h.lose hready
      · exact h
    · obtain ⟨t, ht, hst⟩ := Option.map_eq_some_iff.1 hs
      cases hst
      split_ifs at ht with hwrote
      · obtain ⟨hinv, hnow, left, rfl⟩ := h.commit hready ht
        have hdone := hinv.retire (Inner.finishCommand_retires h.inner full imported
          (s.durable.updateSequence + 1) hwrote) hnow.symm le_rfl h.durable.vectorAt_push_self
          (by simp [Sys.underWay, hgate, Gate.underWay])
        obtain ⟨d, i, g, l, n, acc, st⟩ := s
        change g = .idle at hgate
        subst hgate
        exact hdone
      · cases ht
        rw [Inner.finishCommand, if_pos (not_not.1 hwrote)]
        exact h
  · cases hs

lemma Inv.joinRead {client : V} (h : Inv s) (hs : s.joinRead client = some (s', shown)) :
    Inv s' := by
  unfold Sys.joinRead at hs
  split at hs
  · cases hs
    refine h.regate _ ⟨s.durable.rows.length, le_rfl, ?_, ?_⟩ (s.gate.underWay_prefix _)
    · rw [take_length, Durable.logCoverage]
    · rw [h.durable.head]
      exact h.tracks.behind
  · cases hs

lemma Inner.baseCovered_le {d : Durable V K D} {client : V} (ht : Tracks inner d)
    (hf : inner.fenced = none) (h : inner.baseCovered client = true) : d.baseVector ≤ client := by
  obtain ⟨hvec, hhas⟩ := ht.base hf
  unfold Inner.baseCovered at h
  split at h
  · rename_i hnone
    rw [hnone] at hhas
    rw [Durable.baseVector, Option.isSome_eq_false_iff.1 hhas.symm |> Option.isNone_iff_eq_none.1]
    exact bot_le
  · cases h
  · exact hvec ▸ of_decide_eq_true h

lemma Inv.joinRegister {subscriber : Subscriber} (h : Inv s)
    (hs : s.joinRegister socket subscriber = some (s', shown)) : Inv s' := by
  unfold Sys.joinRegister at hs
  split at hs
  · rename_i j hgate
    split_ifs at hs with hfenced
    · cases hs
      exact h.release
    · cases hs
      have hview : JoinView s.inner s.durable j.coverage := by
        have := h.gate
        rwa [hgate] at this
      have hnodup : ((s.inner.register socket subscriber j).1.subscribers.map Prod.fst).Nodup := by
        refine nodup_cons.2 ⟨by simp, ?_⟩
        exact (filter_sublist.map Prod.fst).nodup h.inner.subscribers
      have hcore := h.core (s.inner.register socket subscriber j).1
        ⟨rfl, rfl, rfl, rfl, rfl, rfl, fun hf => ⟨hf, rfl, rfl⟩⟩ hnodup
      have hbuf : (s.inner.buffer.map Pending.bytes).map P.extent =
          pendingExtents s.inner.buffer := by
        rw [pendingExtents_eq, map_map]
        rfl
      refine hcore.regate (.joined _)
        ⟨hview, hbuf ▸ h.inner.gapFree, hbuf ▸ h.inner.headVector, rfl, ?_⟩
        (Gate.underWay_prefix _ _)
      exact Inner.baseCovered_le h.tracks (by simpa using hfenced)
  · cases hs

lemma Inv.joinReply (h : Inv s) (hs : s.joinReply = some (s', shown)) : Inv s' := by
  unfold Sys.joinReply at hs
  split at hs
  · cases hs
    exact h.release
  · cases hs

lemma Inv.build {readable : Bool} (h : Inv s) (hs : s.build readable = some (s', shown)) :
    Inv s' := by
  unfold Sys.build at hs
  split at hs
  · cases hs
    refine h.core _ ?_ ?_ <;> cases readable
    · exact ⟨rfl, rfl, rfl, rfl, rfl, rfl, fun hf => ⟨hf, rfl, rfl⟩⟩
    · exact ⟨rfl, rfl, rfl, rfl, rfl, rfl, fun hf => ⟨hf, rfl, rfl⟩⟩
    · exact h.inner.subscribers
    · exact h.inner.subscribers
  · cases hs

lemma Inv.snapshot (h : Inv s) (hs : s.snapshot = some (s', shown)) : Inv s' := by
  obtain ⟨n, hn, hst⟩ := Option.map_eq_some_iff.1 hs
  cases hst
  unfold Inner.snapshotAtLogVector at hn
  split_ifs at hn with _ _ hpos
  cases hn
  refine ⟨h.durable, h.tracks, h.inner, h.gate, h.lost, ?_, h.history⟩
  intro m hm
  rcases mem_append.1 hm with hm | hm
  · exact h.snapshots m hm
  · obtain rfl := mem_singleton.1 hm
    exact ⟨by dsimp only; omega, fun _ => h.tracks.logVector⟩

lemma Inner.Sound.noteCompacted (h : inner.Sound) (b : LogBase V) (d : Durable V K D) :
    (inner.noteCompacted b d).Sound :=
  ⟨h.headVector, h.gapFree, h.bufferBytes, h.chargedBytes, h.subscribers, h.keys⟩

lemma Attempt.Ready.noteCompacted {u : List (Pending P)} {a : Attempt P} (h : a.Ready inner u)
    (b : LogBase V) (d : Durable V K D) : a.Ready (inner.noteCompacted b d) u :=
  ⟨h.old, h.gapFree, h.vector, h.taken⟩

/-- The sequencer is moved onto the base that storage already has. -/
lemma Inv.note {b : LogBase V} (h : Inv s) (hgate : s.gate = .idle)
    (hb : s.durable.base = some b) :
    Inv { s with inner := s.inner.noteCompacted b s.durable } where
  durable := h.durable
  tracks :=
    { through := h.tracks.through
      behind := h.tracks.behind
      logVector := h.tracks.logVector
      base := fun _ => ⟨by simp [Inner.noteCompacted, Durable.baseVector, hb],
        by simp [Inner.noteCompacted, hb]⟩ }
  inner := h.inner.noteCompacted b s.durable
  gate := by
    dsimp only
    rw [hgate]
    trivial
  lost := fun a ha => (h.lost a ha).noteCompacted b s.durable
  snapshots := h.snapshots
  history := h.history

/-- A snapshot of the log vector becomes the base. -/
lemma Inv.rebase {n : Snapshot V} (h : Inv s) (bytes : ℕ) (hgate : s.gate = .idle)
    (hn : n ∈ s.snapshots) (hbase : s.durable.baseThrough ≤ n.through) :
    Inv { s with
      durable := s.durable.rebase n.through n.logVector bytes
      inner := s.inner.noteCompacted ⟨n.through, n.logVector, bytes⟩
        (s.durable.rebase n.through n.logVector bytes) } := by
  obtain ⟨hthrough, hvec⟩ := h.snapshots n hn
  have hbehind := h.tracks.behind
  have hhead : n.through ≤ s.durable.updateSequence := by omega
  exact
    { durable := h.durable.rebase hbase hhead (hvec hbase)
      tracks :=
        { through := hthrough
          behind := h.tracks.behind
          logVector := by
            rw [h.durable.vectorAt_rebase hbase (hvec hbase)
              (by simp only [Inner.noteCompacted]; omega)]
            exact h.tracks.logVector
          base := fun _ => ⟨rfl, rfl⟩ }
      inner := h.inner.noteCompacted _ _
      gate := by
        dsimp only
        rw [hgate]
        trivial
      lost := fun a ha => (h.lost a ha).noteCompacted _ _
      snapshots := by
        intro m hm
        obtain ⟨hm1, hm2⟩ := h.snapshots m hm
        refine ⟨hm1, fun hle => ?_⟩
        rw [h.durable.vectorAt_rebase hbase (hvec hbase) hle]
        exact hm2 (hbase.trans hle)
      history := h.history }

/-- The reads that settle an activation find the base that storage has. -/
lemma Inv.reconcile {isWanted : LogBase V → Bool} (h : Inv s) (hgate : s.gate = .idle) :
    Inv (s.reconcile s.durable reread isWanted).1 := by
  unfold Sys.reconcile
  dsimp only
  split
  · split
    · rename_i b hb
      split
      · exact h.note hgate hb
      · exact h
    · exact h
  · exact h.fence _

/-- An activation that storage made without an answer is noted or fenced. -/
lemma Inv.reconcile_rebase {n : Snapshot V} (h : Inv s) (hgate : s.gate = .idle)
    (hn : n ∈ s.snapshots) (hbase : s.durable.baseThrough ≤ n.through) :
    Inv (s.reconcile (s.durable.rebase n.through n.logVector bytes) reread fun b =>
      decide (b.throughUpdateSequence = n.through ∧ b.vector = n.logVector)).1 := by
  have hnoted := h.rebase bytes hgate hn hbase
  unfold Sys.reconcile
  cases reread
  · refine (hnoted.core (s.inner.fence _).1 ?_ nodup_nil).release
    exact ⟨rfl, rfl, rfl, rfl, rfl, rfl, nofun⟩
  · simpa [Durable.rebase] using hnoted

lemma Inv.activate {shallow : Bool} {outcome : Activation} (h : Inv s)
    (hs : s.activate i bytes shallow outcome = some (s', shown)) : Inv s' := by
  unfold Sys.activate at hs
  split at hs
  · rename_i n hgate hget
    have hn := mem_of_getElem? hget
    split at hs
    · rename_i d hact
      cases hs
      obtain ⟨-, hbase, rfl⟩ := Durable.activateLogBase_spec hact
      have hnoted := h.rebase bytes hgate hn hbase
      cases shallow
      · exact hnoted
      · refine hnoted.core _ ?_ nodup_nil
        exact ⟨rfl, rfl, rfl, rfl, rfl, rfl, fun hf => ⟨hf, rfl, rfl⟩⟩
    · exact (Option.some.inj hs ▸ h.reconcile hgate : Inv (s', shown).1)
    · exact (Option.some.inj hs ▸ h.reconcile hgate : Inv (s', shown).1)
    · rename_i d hact
      obtain ⟨-, hbase, rfl⟩ := Durable.activateLogBase_spec hact
      exact (Option.some.inj hs ▸ h.reconcile_rebase hgate hn hbase : Inv (s', shown).1)
    · exact (Option.some.inj hs ▸ h.reconcile hgate : Inv (s', shown).1)
  · cases hs

/-- Every step keeps the invariant. -/
lemma Inv.step {op : Op V} (h : Inv s) (hs : step c s op = some (s', shown)) : Inv s' := by
  cases op with
  | ingest o socket peerKey clientSeq bytes => exact h.ingest hs
  | flush => exact h.flush hs
  | flushWritten => exact h.flushWritten hs
  | flushFailed sent => exact h.flushFailed hs
  | resolve sequenceRead rowsRead => exact h.resolve hs
  | flushRetired full => exact h.flushRetired hs
  | cancel sent => exact h.cancel hs
  | land i => exact h.land hs
  | otherRow batches => exact h.otherRow hs
  | command edit outcome imported full => exact h.command hs
  | joinRead client => exact h.joinRead hs
  | joinRegister socket subscriber => exact h.joinRegister hs
  | joinReply => exact h.joinReply hs
  | unsubscribe socket =>
    cases hs
    exact h.quiet ⟨⟨rfl, rfl, rfl, rfl, rfl, rfl, fun hf => ⟨hf, rfl, rfl⟩⟩, filter_sublist⟩
  | broadcast full =>
    cases hs
    exact h.quiet ⟨⟨rfl, rfl, rfl, rfl, rfl, rfl, fun hf => ⟨hf, rfl, rfl⟩⟩, filter_sublist⟩
  | build readable => exact h.build hs
  | dropCache =>
    cases hs
    exact h.quiet ⟨⟨rfl, rfl, rfl, rfl, rfl, rfl, fun hf => ⟨hf, rfl, rfl⟩⟩, Sublist.refl _⟩
  | recover =>
    cases hs
    exact h.quiet ⟨⟨rfl, rfl, rfl, rfl, rfl, rfl, fun hf => ⟨hf, rfl, rfl⟩⟩, Sublist.refl _⟩
  | snapshot => exact h.snapshot hs
  | activate i bytes shallow outcome => exact h.activate hs

lemma Reachable.inv (h : Reachable c s) : Inv s := by
  induction h with
  | first => exact .start .empty
  | admitted _ ih => exact .start ih.durable
  | step op _ hs ih => exact ih.step hs

end Steps

end LibrePaper.Log
