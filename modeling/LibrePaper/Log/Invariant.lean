import LibrePaper.Log.Sections

/-!
# The invariant of a sequencer and its log

The log vector is what the log covers through the sequencer's last row, the buffer
continues it without a gap, and the log is at most ahead of the sequencer, never behind
it. An attempt that storage could still take continues the log vector, and carries
nothing but a prefix of the buffer and what the command added.
-/
namespace LibrePaper.Log
open Library List

variable {V K D : Type} [SemilatticeSup V] [OrderBot V] {P : Platform V K D}

/-- A reservation key names the payload that it was made for. -/
def Platform.KeysSeparate (P : Platform V K D) : Prop :=
  ∀ peer seq digest peer' seq' digest',
    P.durableReservationKey peer seq digest = P.durableReservationKey peer' seq' digest' →
      digest = digest'

/-- Where the sequencer stands in the log. -/
structure Tracks (inner : Inner P) (d : Durable V K D) : Prop where
  through : d.baseThrough + 1 ≤ inner.nextSequence
  behind : inner.nextSequence ≤ d.updateSequence + 1
  logVector : inner.logVector = d.vectorAt (inner.nextSequence - 1)
  base : inner.fenced = none →
    inner.baseVector = d.baseVector ∧ inner.hasBase = d.base.isSome

/-- What the sequencer's own quantities are to its buffer. -/
structure Inner.Sound (inner : Inner P) : Prop where
  headVector : inner.headVector = reach inner.logVector (pendingExtents inner.buffer)
  gapFree : GapFree inner.logVector (pendingExtents inner.buffer)
  bufferBytes : inner.bufferBytes = (inner.buffer.map fun p => p.bytes.length).sum
  chargedBytes : inner.chargedBytes = (inner.buffer.map Pending.charge).sum
  subscribers : (inner.subscribers.map Prod.fst).Nodup
  keys : P.KeysSeparate → (inner.buffer.map Pending.durableKey).Nodup

/-- What is known of an attempt that storage may still take. -/
structure Attempt.Ready (inner : Inner P) (underWay : List (Pending P)) (a : Attempt P) :
    Prop where
  old : a.expected + 1 ≤ inner.nextSequence
  gapFree : a.expected + 1 = inner.nextSequence →
    GapFree inner.logVector (P.extents a.row.batches)
  vector : a.expected + 1 = inner.nextSequence →
    a.vector = reach inner.logVector (P.extents a.row.batches)
  taken : a.expected + 1 = inner.nextSequence → a.taken <+: underWay

/-- A flush carries a prefix of the buffer as it stands. -/
structure Flight.Of (inner : Inner P) (f : Flight P) : Prop where
  take_le : f.take ≤ inner.buffer.length
  acknowledged : f.acknowledged = inner.ackPrefix f.take
  attempt : f.attempt = inner.attemptOf f.take

/-- The coverage that a join has read: a first part of the rows, past the log vector. -/
def JoinView (inner : Inner P) (d : Durable V K D) (coverage : List (ℕ × V)) : Prop :=
  ∃ n ≤ d.rows.length, coverage = (d.rows.take n).map (fun r => (r.updateSequence, r.vector)) ∧
    inner.nextSequence ≤ d.baseThrough + n + 1

/-- What a registered join holds, against the sequencer and the log as they stand. -/
structure Registration.Of (P : Platform V K D) (inner : Inner P) (d : Durable V K D)
    (r : Registration V) : Prop where
  view : JoinView inner d r.coverage
  gapFree : GapFree inner.logVector (r.buffer.map P.extent)
  vector : r.vector = reach inner.logVector (r.buffer.map P.extent)
  durableVector : r.durableVector = inner.logVector
  base : r.baseCovered = true → d.baseVector ≤ r.client

/-- What the holder of the gate relies on. -/
def Gate.Ok (inner : Inner P) (d : Durable V K D) : Gate P → Prop
  | .idle => True
  | .flushing f => f.Of inner
  | .resolving f => f.Of inner
  | .written f n => f.Of inner ∧ n = inner.nextSequence ∧ n ≤ d.updateSequence ∧
      d.vectorAt n = f.attempt.vector
  | .joining j => JoinView inner d j.coverage
  | .joined r => r.Of P inner d

/-- The part of the buffer that a row may already carry. -/
def Gate.underWay (buffer : List (Pending P)) : Gate P → List (Pending P)
  | .flushing f => buffer.take f.take
  | .resolving f => buffer.take f.take
  | .written f _ => buffer.take f.take
  | .idle => buffer
  | .joining _ => buffer
  | .joined _ => buffer

def Sys.underWay (s : Sys P) : List (Pending P) := s.gate.underWay s.inner.buffer

/-- What has become of the accepted batches: those no longer in the buffer are covered,
and the stored ones are accepted ones, each once and in order. -/
def Sys.History (s : Sys P) : Prop :=
  ∃ gone t, s.accepted = gone ++ s.inner.buffer ∧ (∀ b ∈ gone, b.stop ≤ s.inner.logVector) ∧
    t <+: s.underWay ∧ s.stored.Sublist (gone ++ t) ∧
    (s.inner.nextSequence = s.durable.updateSequence + 1 → t = [])

structure Inv (s : Sys P) : Prop where
  durable : s.durable.Sound P
  tracks : Tracks s.inner s.durable
  inner : s.inner.Sound
  gate : s.gate.Ok s.inner s.durable
  lost : ∀ a ∈ s.lost, a.Ready s.inner s.underWay
  snapshots : ∀ n ∈ s.snapshots, n.through + 1 ≤ s.inner.nextSequence ∧
    (s.durable.baseThrough ≤ n.through → n.logVector = s.durable.vectorAt n.through)
  history : s.History

lemma admitDocument_tracks {d : Durable V K D} (h : d.Sound P) :
    Tracks (admitDocument P d) d where
  through := by have := h.head; simp only [admitDocument]; omega
  behind := le_rfl
  logVector := h.logHeadVector.trans h.vectorAt_head.symm
  base := fun _ => ⟨rfl, rfl⟩

lemma admitDocument_sound (d : Durable V K D) : (admitDocument P d).Sound :=
  ⟨rfl, trivial, rfl, rfl, nodup_nil, fun _ => nodup_nil⟩

lemma Inv.start {d : Durable V K D} (h : d.Sound P) : Inv (Sys.start P d) where
  durable := h
  tracks := admitDocument_tracks h
  inner := admitDocument_sound d
  gate := trivial
  lost := by simp [Sys.start]
  snapshots := by simp [Sys.start]
  history := ⟨[], [], rfl, by simp, prefix_rfl, Sublist.refl _, fun _ => rfl⟩

section Push

variable {inner : Inner P} {d : Durable V K D} {batches : List Batch} {vector : V}
  {left : List (Reservation K D)}

lemma Tracks.push (h : d.Sound P) (ht : Tracks inner d) :
    Tracks inner (d.push batches vector left) where
  through := ht.through
  behind := ht.behind.trans (Nat.le_succ _)
  logVector := by
    have := ht.behind
    rw [h.vectorAt_push (by omega)]
    exact ht.logVector
  base := ht.base

lemma JoinView.push {coverage : List (ℕ × V)} (h : JoinView inner d coverage) :
    JoinView inner (d.push batches vector left) coverage := by
  obtain ⟨n, hn, hc, hnext⟩ := h
  refine ⟨n, by simp [Durable.push]; omega, ?_, hnext⟩
  rw [hc, Durable.push, take_append_of_le_length hn]

lemma Gate.Ok.push {g : Gate P} (h : d.Sound P) (hg : g.Ok inner d) :
    g.Ok inner (d.push batches vector left) := by
  cases g with
  | idle => trivial
  | flushing f => exact hg
  | resolving f => exact hg
  | written f n =>
    obtain ⟨hf, hn, hle, hv⟩ := hg
    exact ⟨hf, hn, hle.trans (Nat.le_succ _), (h.vectorAt_push hle).trans hv⟩
  | joining j => exact JoinView.push hg
  | joined r => exact ⟨hg.view.push, hg.gapFree, hg.vector, hg.durableVector, hg.base⟩

/-- The log gains a row, of another writer or one that this sequencer has sent. -/
lemma Inv.push {s : Sys P} (h : Inv s)
    (hgap : GapFree (s.durable.coverage P) (P.extents batches))
    (hvec : vector = reach (s.durable.coverage P) (P.extents batches))
    {stored : List (Pending P)}
    (hstored : stored = s.stored ∨ s.inner.nextSequence = s.durable.updateSequence + 1 ∧
      ∃ t, t <+: s.underWay ∧ stored = s.stored ++ t) :
    Inv { s with durable := s.durable.push batches vector left, stored := stored } where
  durable := h.durable.push hgap hvec
  tracks := h.tracks.push h.durable
  inner := h.inner
  gate := h.gate.push h.durable
  lost := h.lost
  snapshots := by
    intro n hn
    obtain ⟨hle, hv⟩ := h.snapshots n hn
    have := h.tracks.behind
    refine ⟨hle, fun hb => ?_⟩
    rw [h.durable.vectorAt_push (by omega)]
    exact hv hb
  history := by
    obtain ⟨gone, t, hacc, hgone, ht, hsub, hsync⟩ := h.history
    have hbehind := h.tracks.behind
    have hahead : s.inner.nextSequence ≠ s.durable.updateSequence + 1 + 1 := by omega
    rcases hstored with rfl | ⟨heq, t', ht', rfl⟩
    · exact ⟨gone, t, hacc, hgone, ht, hsub, fun hc => absurd hc hahead⟩
    · refine ⟨gone, t', hacc, hgone, ht', ?_, fun hc => absurd hc hahead⟩
      rw [hsync heq, append_nil] at hsub
      exact hsub.append (Sublist.refl _)

end Push

variable {s : Sys P} {a : Attempt P} {i j inner : Inner P} {u : List (Pending P)}

/-- An attempt that storage takes is the one the sequencer is waiting for. -/
lemma Inv.commit [DecidableEq K] {s' : Sys P} (h : Inv s) (ha : a.Ready s.inner s.underWay)
    (hs : s.commit a = some s') :
    Inv s' ∧ s.inner.nextSequence = s.durable.updateSequence + 1 ∧
      ∃ left, s' = { s with
        durable := s.durable.push a.row.batches a.vector left
        stored := s.stored ++ a.taken } := by
  obtain ⟨d, hd, rfl⟩ := Option.map_eq_some_iff.1 hs
  obtain ⟨hseq, left, rfl⟩ := Attempt.write_spec hd
  have hold := ha.old
  have hbehind := h.tracks.behind
  have hnow : a.expected + 1 = s.inner.nextSequence := by omega
  have hlog : s.inner.logVector = s.durable.coverage P := by
    rw [h.tracks.logVector, ← h.durable.vectorAt_head]
    congr 1
    omega
  refine ⟨h.push (hlog ▸ ha.gapFree hnow) (hlog ▸ ha.vector hnow)
    (.inr ⟨by omega, a.taken, ha.taken hnow, rfl⟩), by omega, left, rfl⟩

lemma Attempt.Ready.congr (h : a.Ready j u) (hc : i.SameCore j) : a.Ready i u := by
  obtain ⟨hold, hgap, hvec, htaken⟩ := h
  rw [← hc.nextSequence] at hold hgap hvec htaken
  rw [← hc.logVector] at hgap hvec
  exact ⟨hold, hgap, hvec, htaken⟩

lemma Attempt.Ready.mono {u' : List (Pending P)} (h : a.Ready inner u) (hu : u <+: u') :
    a.Ready inner u' :=
  ⟨h.old, h.gapFree, h.vector, fun hnow => (h.taken hnow).trans hu⟩

lemma Flight.Of.congr {f : Flight P} (h : f.Of j) (hc : i.SameCore j) : f.Of i where
  take_le := hc.buffer ▸ h.take_le
  acknowledged := by
    rw [h.acknowledged]
    exact Inner.ackPrefix_congr (by rw [hc.buffer])
  attempt := by
    rw [h.attempt]
    exact Inner.attemptOf_congr hc.nextSequence.symm hc.logVector.symm (by rw [hc.buffer])

lemma JoinView.congr {d : Durable V K D} {coverage : List (ℕ × V)} (h : JoinView j d coverage)
    (hc : i.SameCore j) : JoinView i d coverage := by
  obtain ⟨n, hn, hcov, hnext⟩ := h
  exact ⟨n, hn, hcov, hc.nextSequence ▸ hnext⟩

lemma Registration.Of.congr {d : Durable V K D} {r : Registration V} (h : r.Of P j d)
    (hc : i.SameCore j) : r.Of P i d :=
  ⟨h.view.congr hc, hc.logVector ▸ h.gapFree, hc.logVector ▸ h.vector,
    hc.logVector ▸ h.durableVector, h.base⟩

lemma Tracks.congr {d : Durable V K D} (h : Tracks j d) (hc : i.SameCore j) : Tracks i d where
  through := hc.nextSequence ▸ h.through
  behind := hc.nextSequence ▸ h.behind
  logVector := by rw [hc.logVector, hc.nextSequence, h.logVector]
  base := fun hi =>
    have hj := hc.base hi
    have hd := h.base hj.1
    ⟨hj.2.1.trans hd.1, hj.2.2.trans hd.2⟩

lemma Inner.Sound.congr (h : j.Sound) (hc : i.SameCore j)
    (hsub : (i.subscribers.map Prod.fst).Nodup) : i.Sound where
  headVector := by rw [hc.headVector, hc.logVector, hc.buffer, h.headVector]
  gapFree := by rw [hc.logVector, hc.buffer]; exact h.gapFree
  bufferBytes := by rw [hc.bufferBytes, hc.buffer, h.bufferBytes]
  chargedBytes := by rw [hc.chargedBytes, hc.buffer, h.chargedBytes]
  subscribers := hsub
  keys := by rw [hc.buffer]; exact h.keys

lemma Gate.Ok.congr {d : Durable V K D} {g : Gate P} (h : g.Ok j d) (hc : i.SameCore j) :
    g.Ok i d := by
  cases g with
  | idle => trivial
  | flushing f => exact Flight.Of.congr h hc
  | resolving f => exact Flight.Of.congr h hc
  | written f n => exact ⟨h.1.congr hc, h.2.1.trans hc.nextSequence.symm, h.2.2⟩
  | joining j => exact JoinView.congr h hc
  | joined r => exact Registration.Of.congr h hc

lemma Sys.underWay_congr (hb : inner.buffer = s.inner.buffer) :
    ({ s with inner := inner } : Sys P).underWay = s.underWay := by
  simp only [Sys.underWay, hb]

lemma Sys.History.congr (h : s.History) (hc : inner.SameCore s.inner) :
    ({ s with inner := inner } : Sys P).History := by
  obtain ⟨gone, t, hacc, hgone, ht, hsub, hsync⟩ := h
  refine ⟨gone, t, hc.buffer ▸ hacc, hc.logVector ▸ hgone, ?_, hsub, ?_⟩
  · rw [Sys.underWay_congr hc.buffer]
    exact ht
  · exact fun hn => hsync (hc.nextSequence ▸ hn)

/-- Marks, the cache and the subscribers do not matter. -/
lemma Inv.core (h : Inv s) (inner : Inner P) (hc : inner.SameCore s.inner)
    (hsub : (inner.subscribers.map Prod.fst).Nodup) : Inv { s with inner := inner } where
  durable := h.durable
  tracks := h.tracks.congr hc
  inner := h.inner.congr hc hsub
  gate := h.gate.congr hc
  lost := by
    intro a ha
    rw [Sys.underWay_congr hc.buffer]
    exact (h.lost a ha).congr hc
  snapshots := fun n hn => ⟨hc.nextSequence ▸ (h.snapshots n hn).1, (h.snapshots n hn).2⟩
  history := h.history.congr hc

lemma Inv.quiet (h : Inv s) (hq : inner.Quiet s.inner) : Inv { s with inner := inner } :=
  h.core inner hq.toSameCore ((hq.subscribers.map Prod.fst).nodup h.inner.subscribers)

/-- A change of the gate that keeps what is under way under way. -/
lemma Inv.regate (h : Inv s) (gate : Gate P) (hg : gate.Ok s.inner s.durable)
    (hu : s.underWay <+: gate.underWay s.inner.buffer) : Inv { s with gate := gate } where
  durable := h.durable
  tracks := h.tracks
  inner := h.inner
  gate := hg
  lost := fun a ha => (h.lost a ha).mono hu
  snapshots := h.snapshots
  history := by
    obtain ⟨gone, t, hacc, hgone, ht, hsub, hsync⟩ := h.history
    exact ⟨gone, t, hacc, hgone, ht.trans hu, hsub, hsync⟩

lemma Gate.underWay_prefix (g : Gate P) (buffer : List (Pending P)) :
    g.underWay buffer <+: buffer := by
  cases g <;> first | exact take_prefix _ _ | exact prefix_rfl

lemma Inv.release (h : Inv s) : Inv { s with gate := .idle } :=
  h.regate .idle trivial (s.gate.underWay_prefix _)

lemma Inv.lose (h : Inv s) (ha : a.Ready s.inner s.underWay) :
    Inv { s with lost := s.lost ++ [a] } where
  durable := h.durable
  tracks := h.tracks
  inner := h.inner
  gate := h.gate
  lost := by
    intro b hb
    rcases mem_append.1 hb with hb | hb
    · exact h.lost b hb
    · exact mem_singleton.1 hb ▸ ha
  snapshots := h.snapshots
  history := h.history

end LibrePaper.Log
