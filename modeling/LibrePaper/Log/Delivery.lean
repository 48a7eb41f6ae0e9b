import LibrePaper.Log.Compaction

/-!
# No accepted batch is lost

A batch leaves the buffer once the log covers it. What a client is told of its own
batches and what the room is told of the log follows from that, whatever becomes of the
writes.
-/
namespace LibrePaper.Log
open Library List

set_option linter.unusedSectionVars false

variable {V K D : Type} [SemilatticeSup V] [OrderBot V] {P : Platform V K D}

/-- The first `n` batches leave the buffer, and `new` are accepted. -/
structure Moves (s t : Sys P) (n : ℕ) (new : List (Pending P)) : Prop where
  accepted : t.accepted = s.accepted ++ new
  buffer : t.inner.buffer = s.inner.buffer.drop n ++ new

variable {s t : Sys P} {n : ℕ}

lemma Moves.still (hacc : t.accepted = s.accepted) (hbuf : t.inner.buffer = s.inner.buffer) :
    Moves s t 0 [] :=
  ⟨by rw [hacc, append_nil], by rw [hbuf, drop_zero, append_nil]⟩

/-- The batches that left are covered by the log. -/
lemma Moves.covered {new : List (Pending P)} (h : Moves s t n new) (hs : Inv s) (ht : Inv t) :
    ∀ b ∈ s.inner.buffer.take n, b.stop ≤ t.durable.coverage P := by
  intro b hb
  obtain ⟨gone, -, hacc, -⟩ := hs.history
  obtain ⟨gone', -, hacc', hgone', -⟩ := ht.history
  have heq : gone' ++ t.inner.buffer = gone ++ s.inner.buffer.take n ++ t.inner.buffer := by
    rw [← hacc', h.accepted, hacc, h.buffer]
    simp only [append_assoc]
    rw [← append_assoc (s.inner.buffer.take n), take_append_drop]
  have hmem : b ∈ gone' := by
    rw [append_cancel_right heq]
    exact mem_append_right _ hb
  exact (hgone' b hmem).trans ht.logVector_le

lemma Inv.gone (h : Inv s) :
    ∃ gone, s.accepted = gone ++ s.inner.buffer ∧ ∀ b ∈ gone, b.stop ≤ s.durable.coverage P := by
  obtain ⟨gone, -, hacc, hgone, -⟩ := h.history
  exact ⟨gone, hacc, fun b hb => (hgone b hb).trans h.logVector_le⟩

lemma Inv.stored (h : Inv s) : s.stored.Sublist s.accepted := by
  obtain ⟨gone, u, hacc, -, hu, hsub, -⟩ := h.history
  rw [hacc]
  refine hsub.trans ((Sublist.refl gone).append ?_)
  exact hu.sublist.trans (s.gate.underWay_prefix _).sublist

/-- Why a step sends a frame to a subscriber. -/
inductive Sent (op : Op V) (s t : Sys P) (k : ℕ) : Frame V → Prop
  | update (bytes : List UInt8) : Sent op s t k (.docUpdate bytes)
  | durable : Sent op s t k (.docDurable t.inner.logVector)
  | empty (sub : Subscriber) (hsub : (k, sub) ∈ s.inner.subscribers) (upTo : ℤ) (o : Outside)
      (socket : ℕ) (bytes : List UInt8) (header : ImportBlobMetadata V)
      (hop : op = .ingest o socket sub.peerKey upTo bytes)
      (hdecode : P.decodeImportBlobMeta bytes = .ok header) (hempty : header.changeNum = 0) :
      Sent op s t k (.docAck upTo)
  | stored (sub : Subscriber) (hsub : (k, sub) ∈ s.inner.subscribers) (b : Pending P)
      (left : List (Pending P)) (hacc : t.accepted = s.accepted)
      (hbuf : s.inner.buffer = left ++ t.inner.buffer) (hb : b ∈ left)
      (hpeer : b.peerKey = sub.peerKey) : Sent op s t k (.docAck b.clientSeq)
  | command (sub : Subscriber) (hsub : (k, sub) ∈ s.inner.subscribers) (upTo : ℤ)
      (hbuf : t.inner.buffer = []) : Sent op s t k (.docAck upTo)

section Steps

variable [DecidableEq V] [DecidableLE V] [DecidableEq K] [DecidableEq D] {c : Config}
  {s t : Sys P} {op : Op V} {shown : List (Event V)}

variable {full : List ℕ} {imported : Bool} {inner : Inner P} {prepared : Option (Prepared P)}
  {k : ℕ}

lemma Inner.finishCommand_buffer (hacks : inner.commandAcks c prepared ≠ []) :
    (inner.finishCommand c full imported prepared n).1.buffer = [] := by
  rw [Inner.finishCommand, if_neg hacks]
  cases prepared <;> exact drop_length

lemma Inner.install_sent {f : Frame V}
    (h : .sent k f ∈ (inner.install full imported prepared).2) : ∃ bytes, f = .docUpdate bytes := by
  cases prepared with
  | none => cases h
  | some p => exact ⟨p.bytes, relay_sent h⟩

lemma Inner.install_sublist :
    (inner.install full imported prepared).1.subscribers.Sublist inner.subscribers := by
  cases prepared with
  | none => exact Sublist.refl _
  | some p => exact filter_sublist

lemma Shows.moves (h : Shows c op s t shown) : ∃ n new, Moves s t n new := by
  cases h with
  | closing hacc hsends => exact ⟨0, [], .still hacc hsends.buffer⟩
  | registered socket subscriber j hacc hinner => exact ⟨0, [], .still hacc (hinner ▸ rfl)⟩
  | joined r hgate hacc hinner => exact ⟨0, [], .still hacc (hinner ▸ rfl)⟩
  | ingested o socket peerKey clientSeq bytes r hop hcases hacc hinner =>
    refine ⟨0, r.appended.toList, hacc, ?_⟩
    rw [hinner]
    cases hcases with
    | refused => simp
    | duplicate => simp
    | empty header hdecode hempty => simp [acknowledgePeer, fanOut]
    | appended header hdecode => simp [Inner.appendPending, relay, fanOut]
  | retired full f n hgate hacc hinner =>
    refine ⟨f.take, [], by rw [hacc, append_nil], ?_⟩
    rw [hinner, append_nil]
    rfl
  | committed full imported prepared n hacks hacc hinner =>
    refine ⟨s.inner.buffer.length, [], by rw [hacc, append_nil], ?_⟩
    rw [hinner, Inner.finishCommand_buffer hacks, drop_length, append_nil]

/-- Every frame of a step has one of five reasons. -/
lemma Shows.sent (h : Shows c op s t shown) (hinv : Inv s) {f : Frame V}
    (hf : .sent k f ∈ shown) : Sent op s t k f := by
  cases h with
  | closing hacc hsends hclosed =>
    obtain ⟨j, why, heq⟩ := hclosed _ hf
    cases heq
  | registered socket subscriber j hacc hinner hshown => simp [hshown] at hf
  | joined r hgate hacc hinner hshown => simp [hshown] at hf
  | ingested o socket peerKey clientSeq bytes r hop hcases hacc hinner hshown =>
    have hevents : .sent k f ∈ r.events := by simpa [hshown] using hf
    cases hcases with
    | refused => cases hevents
    | duplicate => cases hevents
    | empty header hdecode hempty =>
      obtain ⟨sub, hsub, rfl, rfl⟩ := acknowledgePeer_sent hevents
      exact .empty sub hsub clientSeq o socket bytes header hop hdecode hempty
    | appended header hdecode =>
      rw [relay_sent hevents]
      exact .update _
  | retired full f' n hgate hacc hinner hshown =>
    have hok := hinv.gate
    rw [hgate] at hok
    rw [hshown] at hf
    rcases mem_append.1 hf with hf | hf
    · obtain ⟨sub, upTo, hsub, hmem, rfl⟩ := acknowledge_sent hf
      rw [hok.1.acknowledged] at hmem
      obtain ⟨b, hb, heq⟩ := mem_map.1 hmem
      obtain ⟨hpeer, rfl⟩ := Prod.mk.inj heq
      refine .stored sub hsub b (s.inner.buffer.take f'.take) hacc ?_ hb hpeer
      rw [hinner]
      exact (take_append_drop _ _).symm
    · have hdurable : Sent op s t k (.docDurable t.inner.logVector) := .durable
      rw [hinner] at hdurable
      exact notifyDurable_sent hf ▸ hdurable
  | committed full imported prepared n hacks hacc hinner hshown =>
    have hbuf : t.inner.buffer = [] := hinner ▸ Inner.finishCommand_buffer hacks
    have hdurable : Sent op s t k (.docDurable t.inner.logVector) := .durable
    have hf' : .sent k f ∈ (s.inner.finishCommand c full imported prepared n).2 := by
      simpa [hshown] using hf
    rw [hinner, Inner.finishCommand, if_neg hacks] at hdurable
    rw [Inner.finishCommand, if_neg hacks] at hf'
    rcases mem_append.1 hf' with hf' | hf'
    · rcases mem_append.1 hf' with hf' | hf'
      · obtain ⟨bytes, rfl⟩ := Inner.install_sent hf'
        exact .update bytes
      · obtain ⟨sub, upTo, hsub, -, rfl⟩ := acknowledge_sent hf'
        have hkept := Inner.install_sublist.subset hsub
        exact .command sub hkept upTo hbuf
    · exact notifyDurable_sent hf' ▸ hdurable

/-- An update is accepted when it is empty, or when it is in the buffer. -/
lemma Shows.answered (h : Shows c op s t shown) (hans : .answered k .accepted ∈ shown) :
    ∃ o peerKey clientSeq bytes, op = .ingest o k peerKey clientSeq bytes ∧
      ((∃ header, P.decodeImportBlobMeta bytes = .ok header ∧ header.changeNum = 0) ∨
        ∃ b ∈ t.inner.buffer, b.durableDigest = P.digestOf bytes ∧
          b.durableKey = P.durableReservationKey peerKey clientSeq (P.digestOf bytes)) := by
  cases h with
  | closing hacc hsends hclosed =>
    obtain ⟨j, why, heq⟩ := hclosed _ hans
    cases heq
  | registered socket subscriber j hacc hinner hshown => simp [hshown] at hans
  | joined r hgate hacc hinner hshown => simp [hshown] at hans
  | ingested o socket peerKey clientSeq bytes r hop hcases hacc hinner hshown =>
    have hsplit : .answered k .accepted ∈ r.events ∨ k = socket ∧ .accepted = r.answer := by
      simpa [hshown] using hans
    obtain ⟨rfl, hanswer⟩ := hsplit.resolve_left fun hmem => by cases hcases.frame hmem
    cases hcases with
    | refused answer left h => exact absurd hanswer.symm h
    | duplicate q hq hkey hdigest =>
      exact ⟨o, peerKey, clientSeq, bytes, hop, .inr ⟨q, hinner ▸ hq, hdigest, hkey⟩⟩
    | empty header hdecode hempty =>
      exact ⟨o, peerKey, clientSeq, bytes, hop, .inl ⟨header, hdecode, hempty⟩⟩
    | appended header hdecode =>
      refine ⟨o, peerKey, clientSeq, bytes, hop,
        .inr ⟨pendingOf P peerKey clientSeq bytes header hdecode, ?_, rfl, rfl⟩⟩
      rw [hinner]
      exact mem_append_right _ (mem_singleton_self _)
  | retired full f n hgate hacc hinner hshown => cases Inner.finishFlush_frame (hshown ▸ hans)
  | committed full imported prepared n hacks hacc hinner hshown =>
    have hdone : .answered k .accepted ∈ (s.inner.finishCommand c full imported prepared n).2 := by
      simpa [hshown] using hans
    cases Inner.finishCommand_frame hdone

/-- The batches of one peer are numbered upwards. -/
def Numbered (l : List (Pending P)) : Prop :=
  l.Pairwise fun a b => a.peerKey = b.peerKey → a.clientSeq < b.clientSeq

/-- An acknowledgement that is not of an empty update covers only stored work. -/
lemma Sent.acknowledged {upTo : ℤ} (h : Sent op s t k (.docAck upTo)) (hs : Inv s) (ht : Inv t)
    (hnum : Numbered t.accepted) :
    ∃ sub, (k, sub) ∈ s.inner.subscribers ∧
      ((∃ o socket bytes header, op = .ingest o socket sub.peerKey upTo bytes ∧
          P.decodeImportBlobMeta bytes = .ok header ∧ header.changeNum = 0) ∨
        ∀ b ∈ t.accepted, b.peerKey = sub.peerKey → b.clientSeq ≤ upTo →
          b.stop ≤ t.durable.coverage P) := by
  obtain ⟨gone, hacc, hgone⟩ := ht.gone
  cases h with
  | empty sub hsub upTo o socket bytes header hop hdecode hempty =>
    exact ⟨sub, hsub, .inl ⟨o, socket, bytes, header, hop, hdecode, hempty⟩⟩
  | command sub hsub upTo hbuf =>
    refine ⟨sub, hsub, .inr fun b hb _ _ => hgone b ?_⟩
    rwa [hacc, hbuf, append_nil] at hb
  | stored sub hsub a left hsame hbuf ha hpeer =>
    refine ⟨sub, hsub, .inr fun b hb hbpeer hle => ?_⟩
    obtain ⟨before, hbefore, -⟩ := hs.gone
    have heq : gone ++ t.inner.buffer = before ++ left ++ t.inner.buffer := by
      rw [← hacc, hsame, hbefore, hbuf, append_assoc]
    have ha' : a ∈ gone := by
      rw [append_cancel_right heq]
      exact mem_append_right _ ha
    rw [hacc] at hb hnum
    rcases mem_append.1 hb with hb | hb
    · exact hgone b hb
    · have hlt := (pairwise_append.1 hnum).2.2 a ha' b hb (hpeer.trans hbpeer.symm)
      omega

/-- What a step promises of the accepted batches. A batch is in the log or in the buffer,
and leaves the buffer for the log; the room and a client that joins are told of no more
than the log covers; an acknowledgement is of an empty update, or covers the peer's
batches up to it; a row has accepted batches, and no batch a second time; and an update
that is accepted is empty or buffered. -/
structure Delivers (op : Op V) (s t : Sys P) (shown : List (Event V)) : Prop where
  kept : ∀ b ∈ t.accepted, b.stop ≤ t.durable.coverage P ∨ b ∈ t.inner.buffer
  leaves : ∃ left new, s.inner.buffer ++ new = left ++ t.inner.buffer ∧
    t.accepted = s.accepted ++ new ∧ ∀ b ∈ left, b.stop ≤ t.durable.coverage P
  durable : ∀ k v, .sent k (.docDurable v) ∈ shown → v ≤ t.durable.coverage P
  joined : ∀ k reply, .joined k reply ∈ shown → reply.durableVector ≤ t.durable.coverage P
  acknowledged : Numbered t.accepted → ∀ k upTo, .sent k (.docAck upTo) ∈ shown →
    ∃ sub, (k, sub) ∈ s.inner.subscribers ∧
      ((∃ o socket bytes header, op = .ingest o socket sub.peerKey upTo bytes ∧
          P.decodeImportBlobMeta bytes = .ok header ∧ header.changeNum = 0) ∨
        ∀ b ∈ t.accepted, b.peerKey = sub.peerKey → b.clientSeq ≤ upTo →
          b.stop ≤ t.durable.coverage P)
  rows : (∀ batches, op ≠ .otherRow batches) →
    (t.durable.updateSequence = s.durable.updateSequence ∧ t.stored = s.stored) ∨
    ∃ taken added vector left,
      t.durable = s.durable.push (taken.map Pending.batch ++ added) vector left ∧
        t.stored = s.stored ++ taken
  once : t.stored.Sublist t.accepted ∧
    (Numbered t.accepted → (t.stored.map fun b => (b.peerKey, b.clientSeq)).Nodup)
  answered : ∀ k, .answered k .accepted ∈ shown →
    ∃ o peerKey clientSeq bytes, op = .ingest o k peerKey clientSeq bytes ∧
      ((∃ header, P.decodeImportBlobMeta bytes = .ok header ∧ header.changeNum = 0) ∨
        ∃ b ∈ t.inner.buffer, b.durableDigest = P.digestOf bytes ∧
          b.durableKey = P.durableReservationKey peerKey clientSeq (P.digestOf bytes))

lemma Numbered.nodup {l : List (Pending P)} (h : Numbered l) :
    (l.map fun b => (b.peerKey, b.clientSeq)).Nodup := by
  refine pairwise_map.2 (h.imp fun {a b} hab heq => ?_)
  obtain ⟨hpeer, hseq⟩ := Prod.mk.inj heq
  have := hab hpeer
  omega

/-- Every step from a reachable state delivers. -/
theorem delivery (h : Reachable c s) (hs : step c s op = some (t, shown)) :
    Delivers op s t shown := by
  have hinv := h.inv
  have hinv' := hinv.step hs
  obtain ⟨hshows, hwrites⟩ := step_does hs
  refine ⟨?_, ?_, ?_, ?_, ?_, ?_, ⟨hinv'.stored, ?_⟩, fun _ => hshows.answered⟩
  · intro b hb
    obtain ⟨gone, hacc, hgone⟩ := hinv'.gone
    rw [hacc] at hb
    exact (mem_append.1 hb).imp_left (hgone b)
  · obtain ⟨n, new, hmoves⟩ := hshows.moves
    refine ⟨s.inner.buffer.take n, new, ?_, hmoves.accepted, hmoves.covered hinv hinv'⟩
    rw [hmoves.buffer, ← append_assoc, take_append_drop]
  · intro k v hv
    cases hshows.sent hinv hv with
    | durable => exact hinv'.logVector_le
  · intro k reply hk
    obtain ⟨r, hgate, hinner, -, rfl⟩ := hshows.replied hk
    have hok := hinv.gate
    rw [hgate] at hok
    exact (hok.durableVector.trans (congrArg Inner.logVector hinner).symm).le.trans
      hinv'.logVector_le
  · intro hnum k upTo hack
    exact (hshows.sent hinv hack).acknowledged hinv hinv' hnum
  · intro hop
    cases hwrites with
    | none hseq hstored => exact .inl ⟨hseq, hstored⟩
    | other batches hother => exact absurd hother (hop batches)
    | row taken added vector left hrow hstored =>
      exact .inr ⟨taken, added, vector, left, hrow, hstored⟩
  · intro hnum
    exact (hinv'.stored.map _).nodup hnum.nodup

theorem delivery_empty :
    Delivers sampleEmpty ((sampleAfter sampleJoined).get rfl)
      ((step sampleConfig ((sampleAfter sampleJoined).get rfl) sampleEmpty).get rfl).1
      ((step sampleConfig ((sampleAfter sampleJoined).get rfl) sampleEmpty).get rfl).2 :=
  delivery (sampleAfter_reachable sampleJoined rfl) (Option.some_get rfl).symm

/-- An empty update is acknowledged past a batch that is only buffered, and a batch that
is sent again after its row is in a second row. -/
theorem acknowledged_before_stored :
    (∃ (s t : Sys samplePlatform) (shown : List (Event ℕ)), Reachable sampleConfig s ∧
      step sampleConfig s sampleEmpty = some (t, shown) ∧ t.inner.fenced = none ∧
      .sent 7 (.docAck 2) ∈ shown ∧ ∃ b ∈ t.accepted, b.peerKey = "7" ∧ b.clientSeq ≤ 2 ∧
        ¬ b.stop ≤ t.durable.coverage samplePlatform) ∧
    ∃ s : Sys samplePlatform, Reachable sampleConfig s ∧ s.inner.fenced = none ∧
      s.durable.rows.map LogRow.batches = [[⟨"7", 1, [0, 1]⟩], [⟨"7", 1, [0, 1]⟩]] := by
  constructor
  · refine ⟨(sampleAfter sampleJoined).get rfl,
      ((step sampleConfig ((sampleAfter sampleJoined).get rfl) sampleEmpty).get rfl).1,
      ((step sampleConfig ((sampleAfter sampleJoined).get rfl) sampleEmpty).get rfl).2,
      sampleAfter_reachable sampleJoined rfl, (Option.some_get rfl).symm, rfl, by decide,
      pendingOf samplePlatform "7" 1 [0, 1] ⟨1, 0, 1⟩ rfl, ?_⟩
    exact ⟨mem_singleton_self _, rfl, by decide, by decide⟩
  · exact ⟨_, sampleAfter_reachable sampleAgain rfl, rfl, by decide⟩

/-- What comes after a state: its steps, and a new sequencer on its log at any time. -/
inductive After (c : Config) (s : Sys P) : Sys P → Prop
  | refl : After c s s
  | step {t u : Sys P} {shown : List (Event V)} (op : Op V) :
      After c s t → step c t op = some (u, shown) → After c s u
  | admitted {t : Sys P} : After c s t → After c s (Sys.start P t.durable)

lemma After.extends (h : Inv s) (hafter : After c s t) :
    s.durable.Extends P t.durable ∧ Inv t := by
  induction hafter with
  | refl => exact ⟨⟨le_rfl, le_rfl⟩, h⟩
  | step op _ hstep ih =>
    exact ⟨ih.1.trans ((step_logs ih.2 hstep).log.extends ih.2), ih.2.step hstep⟩
  | admitted _ ih => exact ⟨ih.1, .start ih.2.durable⟩

end Steps

end LibrePaper.Log
