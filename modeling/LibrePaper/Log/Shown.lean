import LibrePaper.Log.Steps

/-!
# What a step shows

A frame goes to a subscriber, and a subscriber that is no longer there has been closed.
Every step either leaves the buffer, the head and the log vector alone, or is an ingest
that appended a batch, a flush that is retired, or a command that wrote a row.
-/
namespace LibrePaper.Log
open Library List Option

set_option linter.unusedSectionVars false

variable {V K D : Type} [SemilatticeSup V] [OrderBot V] {P : Platform V K D}

/-- `r` is `i` after sending frames: whoever left was closed. -/
structure Sends (i : Inner P) (r : Inner P × List (Event V)) : Prop where
  logVector : r.1.logVector = i.logVector
  headVector : r.1.headVector = i.headVector
  buffer : r.1.buffer = i.buffer
  kept : ∀ x ∈ i.subscribers, x ∈ r.1.subscribers ∨ ∃ why, .closed x.1 why ∈ r.2

lemma Sends.trans {i : Inner P} {r r' : Inner P × List (Event V)} (h : Sends i r)
    (h' : Sends r.1 r') : Sends i (r'.1, r.2 ++ r'.2) where
  logVector := h'.logVector.trans h.logVector
  headVector := h'.headVector.trans h.headVector
  buffer := h'.buffer.trans h.buffer
  kept := by
    intro x hx
    rcases h.kept x hx with hx | ⟨why, hwhy⟩
    · rcases h'.kept x hx with hx | ⟨why, hwhy⟩
      · exact .inl hx
      · exact .inr ⟨why, mem_append_right _ hwhy⟩
    · exact .inr ⟨why, mem_append_left _ hwhy⟩

/-- Whether an event is on one subscriber's queue. -/
def Event.frame : Event V → Bool
  | .sent _ _ => true
  | .closed _ _ => true
  | _ => false

section FanOut

variable {full : List ℕ} {frame : ℕ → Subscriber → Option (Frame V)} {inner : Inner P}

lemma fanOut_sends : Sends inner (fanOut full frame inner) where
  logVector := rfl
  headVector := rfl
  buffer := rfl
  kept := by
    intro x hx
    by_cases hslow : (decide (x.1 ∈ full) && (frame x.1 x.2).isSome) = true
    · refine .inr ⟨_, mem_append_right _ (mem_map.2 ⟨x, ?_, rfl⟩)⟩
      exact mem_filter.2 ⟨hx, hslow⟩
    · refine .inl (mem_filter.2 ⟨hx, ?_⟩)
      simp only [Bool.eq_false_iff.2 hslow, Bool.not_false]

/-- A frame goes to a subscriber that it was made for. -/
lemma fanOut_sent {k : ℕ} {f : Frame V} (h : Event.sent k f ∈ (fanOut full frame inner).2) :
    ∃ sub, (k, sub) ∈ inner.subscribers ∧ frame k sub = some f := by
  rcases mem_append.1 h with h | h
  · obtain ⟨⟨id, sub⟩, hmem, hx⟩ := mem_filterMap.1 h
    split_ifs at hx
    obtain ⟨g, hg, heq⟩ := map_eq_some_iff.1 hx
    obtain ⟨rfl, rfl⟩ := Event.sent.inj heq
    exact ⟨sub, hmem, hg⟩
  · obtain ⟨x, -, hx⟩ := mem_map.1 h
    cases hx

/-- Sending frames shows nothing else. -/
lemma fanOut_frame {e : Event V} (h : e ∈ (fanOut full frame inner).2) : e.frame = true := by
  rcases mem_append.1 h with h | h
  · obtain ⟨x, -, hx⟩ := mem_filterMap.1 h
    split_ifs at hx
    obtain ⟨g, -, rfl⟩ := map_eq_some_iff.1 hx
    rfl
  · obtain ⟨x, -, rfl⟩ := mem_map.1 h
    rfl

end FanOut

lemma relay_sends (full : List ℕ) (skip : Option ℕ) (bytes : List UInt8) (inner : Inner P) :
    Sends inner (relay full skip bytes inner) := fanOut_sends

lemma acknowledgePeer_sends (full : List ℕ) (peerKey : String) (upTo : ℤ) (inner : Inner P) :
    Sends inner (acknowledgePeer full peerKey upTo inner) := fanOut_sends

lemma acknowledge_sends (full : List ℕ) (acknowledged : List (String × ℤ)) (inner : Inner P) :
    Sends inner (acknowledge full acknowledged inner) := fanOut_sends

lemma notifyDurable_sends (full : List ℕ) (inner : Inner P) :
    Sends inner (notifyDurable full inner) := fanOut_sends

lemma Inner.closeAll_sends (inner : Inner P) (why : String) :
    Sends inner (inner.closeAll why) :=
  ⟨rfl, rfl, rfl, fun x hx => .inr ⟨why, mem_map.2 ⟨x, hx, rfl⟩⟩⟩

lemma Inner.fence_sends (inner : Inner P) (why : String) : Sends inner (inner.fence why) :=
  ⟨rfl, rfl, rfl, (Inner.closeAll_sends { inner with fenced := some why } _).kept⟩

variable {peerKey : String} {upTo : ℤ} {acknowledged : List (String × ℤ)} {full : List ℕ}
  {bytes : List UInt8} {inner : Inner P} {k : ℕ}

/-- The highest number of a peer is one that it started with or one of its own. -/
lemma foldl_highest (l : List (String × ℤ)) (start : Option ℤ)
    (h : l.foldl (fun highest a => if a.1 = peerKey then
      some (highest.elim a.2 fun seq => max seq a.2) else highest) start = some upTo) :
    start = some upTo ∨ (peerKey, upTo) ∈ l := by
  induction l generalizing start with
  | nil => exact .inl h
  | cons a l ih =>
    rcases ih _ h with hstart | hmem
    · dsimp only at hstart
      split_ifs at hstart with hpeer
      · have ha : start = some upTo ∨ a.2 = upTo := by
          cases start with
          | none => exact .inr (some.inj hstart)
          | some seq =>
            have hmax : max seq a.2 = upTo := some.inj hstart
            rcases max_choice seq a.2 with hm | hm
            · exact .inl (by rw [← hmax, hm])
            · exact .inr (by rw [← hmax, hm])
        refine ha.imp_right fun hseq => ?_
        rw [← hpeer, ← hseq]
        exact mem_cons_self ..
      · exact .inl hstart
    · exact .inr (mem_cons_of_mem _ hmem)

lemma ackTargets_mem (h : ackTargets acknowledged peerKey = some upTo) :
    (peerKey, upTo) ∈ acknowledged :=
  (foldl_highest acknowledged none h).resolve_left (by simp)

lemma relay_sent {skip : Option ℕ} {f : Frame V} (h : .sent k f ∈ (relay full skip bytes inner).2) :
    f = .docUpdate bytes := by
  obtain ⟨sub, -, hf⟩ := fanOut_sent h
  split_ifs at hf
  exact (some.inj hf).symm

lemma acknowledgePeer_sent {f : Frame V}
    (h : .sent k f ∈ (acknowledgePeer full peerKey upTo inner).2) :
    ∃ sub, (k, sub) ∈ inner.subscribers ∧ sub.peerKey = peerKey ∧ f = .docAck upTo := by
  obtain ⟨sub, hsub, hf⟩ := fanOut_sent h
  split_ifs at hf with hpeer
  exact ⟨sub, hsub, hpeer, (some.inj hf).symm⟩

lemma acknowledge_sent {f : Frame V} (h : .sent k f ∈ (acknowledge full acknowledged inner).2) :
    ∃ sub upTo, (k, sub) ∈ inner.subscribers ∧ (sub.peerKey, upTo) ∈ acknowledged ∧
      f = .docAck upTo := by
  obtain ⟨sub, hsub, hf⟩ := fanOut_sent h
  obtain ⟨upTo, hup, rfl⟩ := map_eq_some_iff.1 hf
  exact ⟨sub, upTo, hsub, ackTargets_mem hup, rfl⟩

lemma notifyDurable_sent {f : Frame V} (h : .sent k f ∈ (notifyDurable full inner).2) :
    f = .docDurable inner.logVector := by
  obtain ⟨sub, -, hf⟩ := fanOut_sent h
  split_ifs at hf
  exact (some.inj hf).symm

section Steps

variable [DecidableEq V] [DecidableLE V] [DecidableEq K] [DecidableEq D] {c : Config}
  {s t : Sys P} {op : Op V} {shown : List (Event V)}

/-- What a step does to a sequencer, and what it shows. -/
inductive Shows (c : Config) (op : Op V) (s t : Sys P) (shown : List (Event V)) : Prop
  | closing (hacc : t.accepted = s.accepted) (hsends : Sends s.inner (t.inner, shown))
      (hclosed : ∀ e ∈ shown, ∃ k why, e = .closed k why)
  | registered (socket : ℕ) (subscriber : Subscriber) (j : JoinRead V)
      (hacc : t.accepted = s.accepted)
      (hinner : t.inner = (s.inner.register socket subscriber j).1)
      (hshown : shown = [.registered socket])
  | joined (r : Registration V) (hgate : s.gate = .joined r) (hacc : t.accepted = s.accepted)
      (hinner : t.inner = s.inner)
      (hshown : shown = [.joined r.socket (r.reply s.durable)])
  | ingested (o : Outside) (socket : ℕ) (peerKey : String) (clientSeq : ℤ)
      (bytes : List UInt8) (r : IngestResult P)
      (hop : op = .ingest o socket peerKey clientSeq bytes)
      (hcases : IngestCases o s.durable s.inner socket peerKey clientSeq bytes r)
      (hacc : t.accepted = s.accepted ++ r.appended.toList) (hinner : t.inner = r.inner)
      (hshown : shown = (r.appended.toList.map fun p => .installed (some socket) p.bytes) ++
        r.events ++ [.answered socket r.answer])
  | retired (full : List ℕ) (f : Flight P) (n : ℕ) (hgate : s.gate = .written f n)
      (hacc : t.accepted = s.accepted) (hinner : t.inner = (s.inner.finishFlush full f n).1)
      (hshown : shown = (s.inner.finishFlush full f n).2)
  | committed (full : List ℕ) (imported : Bool) (prepared : Option (Prepared P)) (n : ℕ)
      (hacks : s.inner.commandAcks c prepared ≠ []) (hacc : t.accepted = s.accepted)
      (hinner : t.inner = (s.inner.finishCommand c full imported prepared n).1)
      (hshown : shown = (prepared.toList.map fun p => .installed none p.bytes) ++
        (s.inner.finishCommand c full imported prepared n).2)

lemma Shows.silent (hacc : t.accepted = s.accepted)
    (hlog : t.inner.logVector = s.inner.logVector)
    (hhead : t.inner.headVector = s.inner.headVector) (hbuf : t.inner.buffer = s.inner.buffer)
    (hsub : t.inner.subscribers = s.inner.subscribers) : Shows c op s t [] :=
  .closing hacc ⟨hlog, hhead, hbuf, fun _ hx => .inl (hsub.symm ▸ hx)⟩ (by simp)

/-- A step writes no row, lets another writer write one, or writes accepted batches and
what a command added. -/
inductive Writes (op : Op V) (s t : Sys P) : Prop
  | none (hseq : t.durable.updateSequence = s.durable.updateSequence)
      (hstored : t.stored = s.stored)
  | other (batches : List Batch) (hop : op = .otherRow batches) (hstored : t.stored = s.stored)
  | row (taken : List (Pending P)) (added : List Batch) (vector : V)
      (left : List (Reservation K D))
      (hrow : t.durable = s.durable.push (taken.map Pending.batch ++ added) vector left)
      (hstored : t.stored = s.stored ++ taken)

lemma Sys.commit_spec {a : Attempt P} {u : Sys P} (h : s.commit a = some u) :
    u.inner = s.inner ∧ u.accepted = s.accepted ∧ ∃ left,
      u.durable = s.durable.push (a.taken.map Pending.batch ++ a.added) a.vector left ∧
        u.stored = s.stored ++ a.taken := by
  obtain ⟨d, hd, rfl⟩ := map_eq_some_iff.1 h
  obtain ⟨-, left, rfl⟩ := Attempt.write_spec hd
  exact ⟨rfl, rfl, left, rfl, rfl⟩

/-- What a step does, shows and writes. -/
structure Does (c : Config) (op : Op V) (s t : Sys P) (shown : List (Event V)) : Prop where
  shows : Shows c op s t shown
  writes : Writes op s t

variable {o : Outside} {socket n i : ℕ} {clientSeq : ℤ} {r : IngestResult P} {imported sent : Bool}

lemma IngestCases.frame {d : Durable V K D}
    (h : IngestCases o d inner socket peerKey clientSeq bytes r) {e : Event V} (he : e ∈ r.events) :
    e.frame = true := by
  cases h with
  | refused => cases he
  | duplicate => cases he
  | empty =>
    dsimp only [acknowledgePeer] at he
    exact fanOut_frame he
  | appended =>
    dsimp only [Inner.appendPending, relay] at he
    exact fanOut_frame he

lemma Inner.finishFlush_frame {f : Flight P} {e : Event V}
    (he : e ∈ (inner.finishFlush full f n).2) : e.frame = true := by
  rcases mem_append.1 he with he | he
  · exact fanOut_frame he
  · exact fanOut_frame he

lemma Inner.finishCommand_frame {prepared : Option (Prepared P)} {e : Event V}
    (he : e ∈ (inner.finishCommand c full imported prepared n).2) : e.frame = true := by
  unfold Inner.finishCommand at he
  dsimp only at he
  split_ifs at he
  · cases he
  · rcases mem_append.1 he with he | he
    · rcases mem_append.1 he with he | he
      · cases prepared with
        | none => cases he
        | some p => exact fanOut_frame he
      · exact fanOut_frame he
    · exact fanOut_frame he

lemma IngestCases.updateSequence {d : Durable V K D}
    (h : IngestCases o d inner socket peerKey clientSeq bytes r) :
    r.durable.updateSequence = d.updateSequence := by
  cases h <;> rfl

lemma Sys.ingest_does (hop : op = .ingest o socket peerKey clientSeq bytes)
    (hs : s.ingest c o socket peerKey clientSeq bytes = some (t, shown)) : Does c op s t shown := by
  cases hs
  have hcases := ingest_cases c o s.durable s.inner socket peerKey clientSeq bytes
  exact ⟨.ingested o socket peerKey clientSeq bytes _ hop hcases rfl rfl rfl,
    .none hcases.updateSequence rfl⟩

lemma Sys.fence_does (why : String) : Does c op s (s.fence why).1 (s.fence why).2 := by
  refine ⟨.closing rfl (s.inner.fence_sends why) fun e he => ?_, .none rfl rfl⟩
  obtain ⟨x, -, rfl⟩ := mem_map.1 he
  exact ⟨_, _, rfl⟩

lemma Sys.flush_does (hs : s.flush = some (t, shown)) : Does c op s t shown := by
  unfold Sys.flush at hs
  split at hs
  · cases hs
    exact ⟨.silent rfl rfl rfl rfl rfl, .none rfl rfl⟩
  · cases hs

lemma Sys.flushWritten_does (hs : s.flushWritten = some (t, shown)) :
    Does c op s t shown := by
  unfold Sys.flushWritten at hs
  split at hs
  · obtain ⟨u, hu, hst⟩ := map_eq_some_iff.1 hs
    cases hst
    obtain ⟨hinner, hacc, left, hrow, hstored⟩ := Sys.commit_spec hu
    exact ⟨.silent hacc (hinner ▸ rfl) (hinner ▸ rfl) (hinner ▸ rfl) (hinner ▸ rfl),
      .row _ _ _ left hrow hstored⟩
  · cases hs

lemma Sys.flushFailed_does (hs : s.flushFailed sent = some (t, shown)) : Does c op s t shown := by
  unfold Sys.flushFailed at hs
  split at hs
  · cases hs
    exact ⟨.silent rfl rfl rfl rfl rfl, .none rfl rfl⟩
  · cases hs

lemma Sys.resolve_does {sequenceRead rowsRead : Bool}
    (hs : s.resolve sequenceRead rowsRead = some (t, shown)) : Does c op s t shown := by
  unfold Sys.resolve at hs
  split at hs
  · split at hs
    · cases hs
      exact ⟨.silent rfl rfl rfl rfl rfl, .none rfl rfl⟩
    · cases hs
      exact ⟨.silent rfl rfl rfl rfl rfl, .none rfl rfl⟩
    · rename_i why _
      cases hs
      exact Sys.fence_does why
  · cases hs

lemma Sys.flushRetired_does (hs : s.flushRetired full = some (t, shown)) :
    Does c op s t shown := by
  unfold Sys.flushRetired at hs
  split at hs
  · rename_i f n hgate
    cases hs
    exact ⟨.retired full f n hgate rfl rfl rfl, .none rfl rfl⟩
  · cases hs

lemma Sys.cancel_does (hs : s.cancel sent = some (t, shown)) : Does c op s t shown := by
  unfold Sys.cancel at hs
  split at hs
  · cases hs
  · cases hs
    exact ⟨.silent rfl rfl rfl rfl rfl, .none rfl rfl⟩
  · cases hs
    exact ⟨.silent rfl rfl rfl rfl rfl, .none rfl rfl⟩

lemma Sys.land_does (hs : s.land i = some (t, shown)) : Does c op s t shown := by
  unfold Sys.land at hs
  split at hs
  · obtain ⟨u, hu, hst⟩ := map_eq_some_iff.1 hs
    cases hst
    obtain ⟨hinner, hacc, left, hrow, hstored⟩ := Sys.commit_spec hu
    exact ⟨.silent hacc (hinner ▸ rfl) (hinner ▸ rfl) (hinner ▸ rfl) (hinner ▸ rfl),
      .row _ _ _ left hrow hstored⟩
  · cases hs

lemma Sys.otherRow_does {batches : List Batch} (hop : op = .otherRow batches)
    (hs : s.otherRow batches = some (t, shown)) : Does c op s t shown := by
  unfold Sys.otherRow at hs
  split at hs
  · cases hs
    exact ⟨.silent rfl rfl rfl rfl rfl, .other batches hop rfl⟩
  · cases hs

lemma Sys.command_does {edit : Option (ℤ × List UInt8)} {outcome : CommandOutcome}
    (hs : s.command c edit outcome imported full = some (t, shown)) : Does c op s t shown := by
  unfold Sys.command at hs
  split at hs
  · split at hs
    · cases hs
    split at hs
    · cases hs
    split at hs
    · cases hs
    rename_i prepared _
    split at hs
    · cases hs
      exact ⟨.silent rfl rfl rfl rfl rfl, .none rfl rfl⟩
    · cases hs
      exact ⟨.silent rfl rfl rfl rfl rfl, .none rfl rfl⟩
    · obtain ⟨u, hu, hst⟩ := map_eq_some_iff.1 hs
      cases hst
      split_ifs at hu with hwrote
      · obtain ⟨-, hacc, left, hrow, hstored⟩ := Sys.commit_spec hu
        exact ⟨.committed full imported prepared _ hwrote hacc rfl rfl,
          .row _ _ _ left hrow hstored⟩
      · cases hu
        have hnone : prepared = none := by
          cases prepared with
          | none => rfl
          | some p => simp [Inner.commandAcks] at hwrote
        rw [Inner.finishCommand, if_pos (not_not.1 hwrote), hnone]
        exact ⟨.silent rfl rfl rfl rfl rfl, .none rfl rfl⟩
  · cases hs

lemma Sys.joinRead_does {client : V} (hs : s.joinRead client = some (t, shown)) :
    Does c op s t shown := by
  unfold Sys.joinRead at hs
  split at hs
  · cases hs
    exact ⟨.silent rfl rfl rfl rfl rfl, .none rfl rfl⟩
  · cases hs

lemma Sys.joinRegister_does {subscriber : Subscriber}
    (hs : s.joinRegister socket subscriber = some (t, shown)) : Does c op s t shown := by
  unfold Sys.joinRegister at hs
  split at hs
  · rename_i j _
    split_ifs at hs
    · cases hs
      exact ⟨.silent rfl rfl rfl rfl rfl, .none rfl rfl⟩
    · cases hs
      exact ⟨.registered socket subscriber j rfl rfl rfl, .none rfl rfl⟩
  · cases hs

lemma Sys.joinReply_does (hs : s.joinReply = some (t, shown)) : Does c op s t shown := by
  unfold Sys.joinReply at hs
  split at hs
  · rename_i r hgate
    cases hs
    exact ⟨.joined r hgate rfl rfl rfl, .none rfl rfl⟩
  · cases hs

lemma Sys.unsubscribe_does (hs : s.unsubscribe socket = some (t, shown)) :
    Does c op s t shown := by
  cases hs
  refine ⟨.closing rfl ⟨rfl, rfl, rfl, fun x hx => ?_⟩ (by simp), .none rfl rfl⟩
  by_cases hx' : x.1 = socket
  · exact .inr ⟨"unsubscribed", by rw [hx']; exact mem_singleton_self _⟩
  · exact .inl (mem_filter.2 ⟨hx, by simpa using hx'⟩)

lemma Sys.broadcast_does (hs : s.broadcast full = some (t, shown)) : Does c op s t shown := by
  cases hs
  refine ⟨.closing rfl ⟨rfl, rfl, rfl, fun x hx => ?_⟩ fun e he => ?_, .none rfl rfl⟩
  · by_cases hx' : x.1 ∈ full
    · exact .inr ⟨_, mem_map.2 ⟨x, mem_filter.2 ⟨hx, by simpa using hx'⟩, rfl⟩⟩
    · exact .inl (mem_filter.2 ⟨hx, by simpa using hx'⟩)
  · obtain ⟨x, -, rfl⟩ := mem_map.1 he
    exact ⟨_, _, rfl⟩

lemma Sys.build_does {readable : Bool} (hs : s.build readable = some (t, shown)) :
    Does c op s t shown := by
  unfold Sys.build at hs
  split at hs
  · cases hs
    cases readable <;> exact ⟨.silent rfl rfl rfl rfl rfl, .none rfl rfl⟩
  · cases hs

lemma Sys.snapshot_does (hs : s.snapshot = some (t, shown)) : Does c op s t shown := by
  obtain ⟨n, -, hst⟩ := map_eq_some_iff.1 hs
  cases hst
  exact ⟨.silent rfl rfl rfl rfl rfl, .none rfl rfl⟩

lemma Sys.reconcile_does {d : Durable V K D} {reread : Bool} {isWanted : LogBase V → Bool}
    (hd : d.updateSequence = s.durable.updateSequence) :
    Does c op s (s.reconcile d reread isWanted).1 (s.reconcile d reread isWanted).2 := by
  unfold Sys.reconcile
  dsimp only
  split
  · split
    · split
      · exact ⟨.silent rfl rfl rfl rfl rfl, .none hd rfl⟩
      · exact ⟨.silent rfl rfl rfl rfl rfl, .none hd rfl⟩
    · exact ⟨.silent rfl rfl rfl rfl rfl, .none hd rfl⟩
  · refine ⟨.closing rfl (s.inner.fence_sends _) fun e he => ?_, .none hd rfl⟩
    obtain ⟨x, -, rfl⟩ := mem_map.1 he
    exact ⟨_, _, rfl⟩

lemma Sys.activate_does {bytes : ℕ} {shallow : Bool} {outcome : Activation}
    (hs : s.activate i bytes shallow outcome = some (t, shown)) : Does c op s t shown := by
  unfold Sys.activate at hs
  split at hs
  · split at hs
    · rename_i d hact
      obtain ⟨rfl, rfl⟩ := Prod.mk.inj (some.inj hs)
      obtain ⟨-, -, rfl⟩ := Durable.activateLogBase_spec hact
      cases shallow
      · exact ⟨.silent rfl rfl rfl rfl rfl, .none rfl rfl⟩
      · refine ⟨.closing rfl ⟨rfl, rfl, rfl, (Inner.closeAll_sends s.inner _).kept⟩
          fun e he => ?_, .none rfl rfl⟩
        obtain ⟨x, -, rfl⟩ := mem_map.1 he
        exact ⟨_, _, rfl⟩
    · obtain ⟨rfl, rfl⟩ := Prod.mk.inj (some.inj hs)
      exact Sys.reconcile_does rfl
    · obtain ⟨rfl, rfl⟩ := Prod.mk.inj (some.inj hs)
      exact Sys.reconcile_does rfl
    · rename_i d hact
      obtain ⟨rfl, rfl⟩ := Prod.mk.inj (some.inj hs)
      obtain ⟨-, -, hd⟩ := Durable.activateLogBase_spec hact
      exact Sys.reconcile_does ((congrArg Durable.updateSequence hd).trans rfl)
    · obtain ⟨rfl, rfl⟩ := Prod.mk.inj (some.inj hs)
      exact Sys.reconcile_does rfl
  · cases hs

/-- What any step does, shows and writes. -/
lemma step_does (hs : step c s op = some (t, shown)) : Does c op s t shown := by
  cases op with
  | ingest o socket peerKey clientSeq bytes => exact Sys.ingest_does rfl hs
  | flush => exact Sys.flush_does hs
  | flushWritten => exact Sys.flushWritten_does hs
  | flushFailed sent => exact Sys.flushFailed_does hs
  | resolve sequenceRead rowsRead => exact Sys.resolve_does hs
  | flushRetired full => exact Sys.flushRetired_does hs
  | cancel sent => exact Sys.cancel_does hs
  | land i => exact Sys.land_does hs
  | otherRow batches => exact Sys.otherRow_does rfl hs
  | command edit outcome imported full => exact Sys.command_does hs
  | joinRead client => exact Sys.joinRead_does hs
  | joinRegister socket subscriber => exact Sys.joinRegister_does hs
  | joinReply => exact Sys.joinReply_does hs
  | unsubscribe socket => exact Sys.unsubscribe_does hs
  | broadcast full => exact Sys.broadcast_does hs
  | build readable => exact Sys.build_does hs
  | dropCache =>
    cases hs
    exact ⟨.silent rfl rfl rfl rfl rfl, .none rfl rfl⟩
  | recover =>
    cases hs
    exact ⟨.silent rfl rfl rfl rfl rfl, .none rfl rfl⟩
  | snapshot => exact Sys.snapshot_does hs
  | activate i bytes shallow outcome => exact Sys.activate_does hs

/-- The reply of a join is what was registered, read from the log as it stands. -/
lemma Shows.replied (h : Shows c op s t shown) {reply : Joined V} (hk : .joined k reply ∈ shown) :
    ∃ r, s.gate = .joined r ∧ t.inner = s.inner ∧ k = r.socket ∧ reply = r.reply s.durable := by
  cases h with
  | closing hacc hsends hclosed =>
    obtain ⟨j, why, heq⟩ := hclosed _ hk
    cases heq
  | registered socket subscriber j hacc hinner hshown => simp [hshown] at hk
  | joined r hgate hacc hinner hshown =>
    have heq : k = r.socket ∧ reply = r.reply s.durable := by simpa [hshown] using hk
    exact ⟨r, hgate, hinner, heq⟩
  | ingested o socket peerKey clientSeq bytes r hop hcases hacc hinner hshown =>
    have hmem : .joined k reply ∈ r.events := by simpa [hshown] using hk
    cases hcases.frame hmem
  | retired full f n hgate hacc hinner hshown => cases Inner.finishFlush_frame (hshown ▸ hk)
  | committed full imported prepared n hacks hacc hinner hshown =>
    have hdone : .joined k reply ∈ (s.inner.finishCommand c full imported prepared n).2 := by
      simpa [hshown] using hk
    cases Inner.finishCommand_frame hdone

end Steps

end LibrePaper.Log
