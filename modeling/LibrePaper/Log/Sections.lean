import LibrePaper.Log.System

/-!
# What each section under the lock does

Sending frames only takes subscribers away. Ingest either leaves everything but the
subscribers as it was or appends one batch whose start the head covers, under a key
that no buffered batch has. A write that storage takes adds one row at the head.
-/
namespace LibrePaper.Log
open Library List Option

variable {V K D : Type} [SemilatticeSup V] [OrderBot V] {P : Platform V K D}

@[simp] lemma pendingExtents_nil : pendingExtents ([] : List (Pending P)) = [] := rfl

@[simp] lemma pendingExtents_append (l m : List (Pending P)) :
    pendingExtents (l ++ m) = pendingExtents l ++ pendingExtents m := by
  simp [pendingExtents]

@[simp] lemma pendingExtents_cons (p : Pending P) (l : List (Pending P)) :
    pendingExtents (p :: l) = P.extent p.bytes :: pendingExtents l := rfl

lemma pendingExtents_eq (l : List (Pending P)) :
    pendingExtents l = l.map fun p => P.extent p.bytes := by
  simp [pendingExtents, Platform.extents, Pending.batch, Function.comp_def]

lemma stop_le_reach_pending {v : V} {l : List (Pending P)} {p : Pending P} (h : p ∈ l) :
    p.stop ≤ reach v (pendingExtents l) := by
  rw [p.stop_eq]
  refine stop_le_reach ?_
  rw [pendingExtents_eq]
  exact mem_map_of_mem h

lemma foldl_stop (l : List (Pending P)) (v : V) :
    l.foldl (fun v p => v ⊔ p.stop) v = reach v (pendingExtents l) := by
  induction l generalizing v with
  | nil => rfl
  | cons p l ih => rw [foldl_cons, ih, pendingExtents_cons, reach_cons, p.stop_eq]

lemma Inner.vectorThrough_eq (inner : Inner P) (take : ℕ) :
    inner.vectorThrough take = reach inner.logVector (pendingExtents (inner.buffer.take take)) :=
  foldl_stop _ _

lemma Pending.weight_eq (p : Pending P) : p.batch.weight = p.charge := by
  rw [p.charge_eq]
  rfl

/-- Two states that differ in subscribers, cache and marks only; what a fenced state
says about the base does not matter. -/
structure Inner.SameCore (i j : Inner P) : Prop where
  nextSequence : i.nextSequence = j.nextSequence
  logVector : i.logVector = j.logVector
  headVector : i.headVector = j.headVector
  buffer : i.buffer = j.buffer
  bufferBytes : i.bufferBytes = j.bufferBytes
  chargedBytes : i.chargedBytes = j.chargedBytes
  base : i.fenced = none →
    j.fenced = none ∧ i.baseVector = j.baseVector ∧ i.hasBase = j.hasBase

lemma Inner.SameCore.trans {i j k : Inner P} (h : i.SameCore j) (h' : j.SameCore k) :
    i.SameCore k :=
  ⟨h.1.trans h'.1, h.2.trans h'.2, h.3.trans h'.3, h.4.trans h'.4, h.5.trans h'.5,
    h.6.trans h'.6, fun hi =>
      have hj := h.base hi
      have hk := h'.base hj.1
      ⟨hk.1, hj.2.1.trans hk.2.1, hj.2.2.trans hk.2.2⟩⟩

/-- A state that has the same core and no new subscriber. -/
structure Inner.Quiet (i j : Inner P) : Prop extends i.SameCore j where
  subscribers : i.subscribers.Sublist j.subscribers

lemma Inner.Quiet.trans {i j k : Inner P} (h : i.Quiet j) (h' : j.Quiet k) : i.Quiet k :=
  ⟨h.toSameCore.trans h'.toSameCore, h.subscribers.trans h'.subscribers⟩

lemma fanOut_quiet (full : List ℕ) (frame : ℕ → Subscriber → Option (Frame V))
    (inner : Inner P) : (fanOut full frame inner).1.Quiet inner :=
  ⟨⟨rfl, rfl, rfl, rfl, rfl, rfl, fun h => ⟨h, rfl, rfl⟩⟩, filter_sublist⟩

lemma acknowledgePeer_quiet (full : List ℕ) (peerKey : String) (upTo : ℤ) (inner : Inner P) :
    (acknowledgePeer full peerKey upTo inner).1.Quiet inner := fanOut_quiet _ _ _

lemma acknowledge_quiet (full : List ℕ) (acknowledged : List (String × ℤ)) (inner : Inner P) :
    (acknowledge full acknowledged inner).1.Quiet inner := fanOut_quiet _ _ _

lemma notifyDurable_quiet (full : List ℕ) (inner : Inner P) :
    (notifyDurable full inner).1.Quiet inner := fanOut_quiet _ _ _

lemma Inner.fence_quiet (inner : Inner P) (why : String) : (inner.fence why).1.Quiet inner :=
  ⟨⟨rfl, rfl, rfl, rfl, rfl, rfl, nofun⟩, nil_sublist _⟩

section Ingest

variable [DecidableLE V] [DecidableEq K] [DecidableEq D]

omit [SemilatticeSup V] [OrderBot V] [DecidableLE V] in
lemma Durable.reservePendingLogBytes_spec {d d' : Durable V K D} {room : Bool} {key : K}
    {bytes : ℕ} {digest : D} (h : d.reservePendingLogBytes room key bytes digest = some d') :
    ∃ left, d' = { d with reservations := left } := by
  unfold Durable.reservePendingLogBytes at h
  split at h
  · split_ifs at h
    exact ⟨d.reservations, (some.inj h).symm⟩
  · split_ifs at h
    exact ⟨_, (some.inj h).symm⟩

variable {c : Config} {o : Outside} {inner : Inner P} {charge : ℕ}

omit [DecidableEq K] [DecidableEq D] in
lemma Inner.refusal_none {header : ImportBlobMetadata V}
    (h : inner.refusal c o header charge = none) : header.partialStartVv ≤ inner.headVector := by
  by_contra hgap
  unfold Inner.refusal at h
  cases hledger : o.ledger <;> simp only [hledger, hgap, not_false_eq_true, if_true] at h <;>
    split_ifs at h

/-- What ingest did: nothing but a reservation, an acknowledgement of no work, or one
batch more. -/
inductive IngestCases (o : Outside) (d : Durable V K D) (inner : Inner P) (socket : ℕ)
    (peerKey : String) (clientSeq : ℤ) (bytes : List UInt8) : IngestResult P → Prop
  | refused (answer : Ingested V) (left : List (Reservation K D)) (h : answer ≠ .accepted) :
      IngestCases o d inner socket peerKey clientSeq bytes
        ⟨answer, inner, { d with reservations := left }, [], none⟩
  | duplicate (q : Pending P) (hq : q ∈ inner.buffer)
      (hkey : q.durableKey = P.durableReservationKey peerKey clientSeq (P.digestOf bytes))
      (hdigest : q.durableDigest = P.digestOf bytes) :
      IngestCases o d inner socket peerKey clientSeq bytes ⟨.accepted, inner, d, [], none⟩
  | empty (header : ImportBlobMetadata V) (h : P.decodeImportBlobMeta bytes = .ok header)
      (hempty : header.changeNum = 0) :
      IngestCases o d inner socket peerKey clientSeq bytes
        ⟨.accepted, (acknowledgePeer o.full peerKey clientSeq inner).1, d,
          (acknowledgePeer o.full peerKey clientSeq inner).2, none⟩
  | appended (header : ImportBlobMetadata V) (h : P.decodeImportBlobMeta bytes = .ok header)
      (left : List (Reservation K D))
      (hfenced : inner.fenced = none)
      (hfresh : ∀ q, (inner.buffer.find? fun q => q.durableKey =
        (pendingOf P peerKey clientSeq bytes header h).durableKey) = some q →
          q.durableDigest ≠ P.digestOf bytes)
      (hstart : header.partialStartVv ≤ inner.headVector) :
      IngestCases o d inner socket peerKey clientSeq bytes
        ⟨.accepted, (inner.appendPending o socket (pendingOf P peerKey clientSeq bytes header h)).1,
          { d with reservations := left },
          (inner.appendPending o socket (pendingOf P peerKey clientSeq bytes header h)).2,
          some (pendingOf P peerKey clientSeq bytes header h)⟩

omit [DecidableEq K] [DecidableEq D] in
lemma Inner.refusal_ne {header : ImportBlobMetadata V} {answer : Ingested V}
    (h : inner.refusal c o header charge = some answer) : answer ≠ .accepted := by
  unfold Inner.refusal Inner.retryable at h
  cases hledger : o.ledger <;> simp only [hledger] at h <;> split_ifs at h <;>
    simp [← some.inj h]

lemma ingest_cases (c : Config) (o : Outside) (d : Durable V K D) (inner : Inner P)
    (socket : ℕ) (peerKey : String) (clientSeq : ℤ) (bytes : List UInt8) :
    IngestCases o d inner socket peerKey clientSeq bytes
      (ingest c o d inner socket peerKey clientSeq bytes) := by
  unfold ingest
  dsimp only
  split
  · exact .refused _ d.reservations (by simp)
  split
  · exact .refused _ d.reservations (by simp)
  split
  · exact .refused _ d.reservations (by simp)
  split
  · exact .refused _ d.reservations (by simp)
  rename_i header hdecode
  split
  · exact .refused _ d.reservations (by simp)
  rename_i hfenced
  split
  · rename_i hdup
    obtain ⟨q, hfind, hq⟩ := (any_eq_true _ _).1 hdup
    have hkey := find?_some hfind
    exact .duplicate q (mem_of_find?_eq_some hfind) (of_decide_eq_true hkey) (of_decide_eq_true hq)
  rename_i hdup
  split
  · rename_i hempty
    exact .empty header hdecode hempty
  split
  · rename_i answer hrefused
    exact .refused answer d.reservations (Inner.refusal_ne hrefused)
  rename_i hrefused
  split
  · exact .refused _ d.reservations (by simp [Inner.retryable])
  · rename_i reserved hreserved
    obtain ⟨left, rfl⟩ := Durable.reservePendingLogBytes_spec hreserved
    split
    · exact .refused _ left (by simp [Inner.retryable])
    refine .appended header hdecode left (by simpa using hfenced) ?_ (Inner.refusal_none hrefused)
    intro q hq hsame
    exact hdup (by rw [hq]; exact decide_eq_true hsame)

end Ingest

lemma Attempt.write_spec [DecidableEq K] {a : Attempt P} {d d' : Durable V K D}
    (h : a.write d = some d') :
    d.updateSequence = a.expected ∧ ∃ left, d' = d.push a.row.batches a.vector left :=
  Durable.insertLogRowReserved_spec h

lemma Attempt.extents (a : Attempt P) :
    P.extents a.row.batches = pendingExtents a.taken ++ P.extents a.added :=
  P.extents_append _ _

lemma Inner.attemptOf_extents (inner : Inner P) (take : ℕ) :
    P.extents (inner.attemptOf take).row.batches = pendingExtents (inner.buffer.take take) :=
  ((inner.attemptOf take).extents).trans (append_nil _)

variable {i j : Inner P} {take : ℕ}

lemma Inner.attemptOf_congr (hnext : i.nextSequence = j.nextSequence)
    (hlog : i.logVector = j.logVector) (hbuf : i.buffer.take take = j.buffer.take take) :
    i.attemptOf take = j.attemptOf take := by
  simp only [Inner.attemptOf, Inner.vectorThrough, hnext, hlog, hbuf]

lemma Inner.ackPrefix_congr (hbuf : i.buffer.take take = j.buffer.take take) :
    i.ackPrefix take = j.ackPrefix take := by
  simp only [Inner.ackPrefix, hbuf]

end LibrePaper.Log
