import LibrePaper.Library.Lists
import LibrePaper.Log.Shown
import LibrePaper.Log.Bookkeeping

/-!
# A join holds the head

A join reads the coverage of the rows before the lock and the rows after it. What the
reply leaves out is covered by the client, and what it carries follows without a gap.
From the registration on, an editor is sent every batch that is installed in the head.
-/
namespace LibrePaper.Log
open Library List Option

set_option linter.unusedSectionVars false

variable {V K D : Type} [SemilatticeSup V] [OrderBot V] {P : Platform V K D}

section Reply

variable [DecidableLE V]

/-- The rows before the first one that a client is sent end in a row that it covers. -/
lemma firstUncovered_split (client : V) (coverage : List (ℕ × V)) :
    ∃ covered rest, coverage = covered ++ rest ∧ (∀ r ∈ covered.getLast?, r.2 ≤ client) ∧
      firstUncovered client coverage = rest.head?.map Prod.fst := by
  let p : ℕ × V → Bool := fun r => ¬ r.2 ≤ client
  refine ⟨(coverage.reverse.dropWhile p).reverse, (coverage.reverse.takeWhile p).reverse, ?_, ?_,
    ?_⟩
  · rw [← reverse_append, takeWhile_append_dropWhile, reverse_reverse]
  · intro r hr
    rw [getLast?_reverse] at hr
    have hnot := head?_dropWhile_not p coverage.reverse
    rw [hr] at hnot
    simpa [p] using hnot
  · rw [head?_reverse]
    rfl

variable {inner : Inner P} {d : Durable V K D}

/-- The rows from `i` on and the buffer, to a client that has the rows before. -/
lemma Durable.Sound.supplies (hd : d.Sound P) {i : ℕ} {w v : V} {buffer : List (Extent V)}
    (hw : d.vectorAt (d.baseThrough + i) ≤ w) (hv : v ≤ d.coverage P) (hgap : GapFree v buffer) :
    GapFree w (P.rowExtents (d.rows.drop i) ++ buffer) ∧
      reach v buffer ≤ reach w (P.rowExtents (d.rows.drop i) ++ buffer) := by
  have hrows := hd.chained.gapFree
  have hcov : d.coverage P = reach d.baseVector (P.rowExtents d.rows) := rfl
  rw [hd.vectorAt_eq, Nat.add_sub_cancel_left] at hw
  rw [← take_append_drop i d.rows, P.rowExtents_append] at hrows hcov
  obtain ⟨hdrop, hreach⟩ := hrows.catch_up hw
  have hle : v ≤ reach w (P.rowExtents (d.rows.drop i)) := hv.trans (hcov ▸ hreach)
  rw [gapFree_append, reach_append]
  exact ⟨⟨hdrop, hgap.mono hle⟩, reach_mono hle buffer⟩

/-- The rows that a reply carries from the one at `i` on. -/
lemma Durable.Sound.logRows_at (hd : d.Sound P) {i : ℕ} {row : LogRow V}
    (hrow : d.rows[i]? = some row) : d.logRows (row.updateSequence - 1) none = d.rows.drop i := by
  have hlt : i < d.rows.length := (List.getElem?_eq_some_iff.1 hrow).1
  have hsplit := (hd.split i).2
  have hdrop : d.rows.drop i = row :: d.rows.drop (i + 1) := by
    rw [← (List.getElem?_eq_some_iff.1 hrow).2]
    exact List.drop_eq_getElem_cons hlt
  rw [hdrop, List.length_take] at hsplit
  rw [hd.logRows _ (by simp), hsplit.1]
  congr 1
  omega

omit [DecidableLE V] in
lemma endVector_eq (v : V) (rows : List (LogRow V)) :
    endVector v rows = (rows.getLast?.map LogRow.vector).getD v := by
  rcases eq_nil_or_concat rows with rfl | ⟨l, r, rfl⟩
  · rfl
  · simp [endVector_append, endVector]

/-- What a client holds before it imports the batches of a reply. -/
def Joined.start (client : V) (reply : Joined V) : V := reply.base.elim client (client ⊔ ·)

/-- The row that a reply starts from, and that the client has what is before it. -/
lemma Registration.Of.fromRow_eq {r : Registration V} (hd : d.Sound P) {n : ℕ}
    (hn : n ≤ d.rows.length)
    (hcov : r.coverage = (d.rows.take n).map fun r => (r.updateSequence, r.vector))
    (hbase : r.baseCovered = true → d.baseVector ≤ r.client) :
    ∃ i ≤ n, d.vectorAt (d.baseThrough + i) ≤ (r.reply d).start r.client ∧
      r.fromRow = (d.rows.take n)[i]?.map LogRow.updateSequence := by
  cases hc : r.baseCovered with
  | false =>
    refine ⟨0, Nat.zero_le _, ?_, ?_⟩
    · simp [hd.vectorAt_eq, Joined.start, Registration.reply, hc, Platform.rowExtents,
        Platform.extents]
    · rw [Registration.fromRow, if_neg (by simp [hc]), hcov, List.head?_map, List.head?_eq_getElem?,
        Option.map_map]
      rfl
  | true =>
    obtain ⟨covered, rest, hsplit, hlast, hfirst⟩ := firstUncovered_split r.client r.coverage
    have hlen : covered.length ≤ n := by
      have := congrArg List.length (hcov.symm.trans hsplit)
      simp only [List.length_map, List.length_take, List.length_append] at this
      omega
    have hcovered : covered =
        (d.rows.take covered.length).map fun r => (r.updateSequence, r.vector) := by
      have := congrArg (List.take covered.length) (hcov.symm.trans hsplit)
      rw [List.take_left, ← List.map_take, List.take_take, Nat.min_eq_left hlen] at this
      exact this.symm
    refine ⟨covered.length, hlen, ?_, ?_⟩
    · rw [Durable.vectorAt, Nat.add_sub_cancel_left, endVector_eq]
      simp only [Joined.start, Registration.reply, hc, if_true, Option.elim_none]
      cases hrow : (d.rows.take covered.length).getLast? with
      | none => exact hbase hc
      | some row =>
        refine hlast (row.updateSequence, row.vector) ?_
        rw [hcovered, List.getLast?_map, hrow]
        rfl
    · rw [Registration.fromRow, if_pos hc, hfirst]
      have hrest := congrArg (List.drop covered.length) (hcov.symm.trans hsplit)
      rw [List.drop_left, ← List.map_drop] at hrest
      rw [← hrest, List.head?_map, List.head?_drop, Option.map_map]
      rfl

/-- A client that takes in a reply covers its vector, one batch after another. -/
lemma Registration.Of.complete {r : Registration V} (hd : d.Sound P) (ht : Tracks inner d)
    (hr : r.Of P inner d) :
    GapFree ((r.reply d).start r.client) ((r.reply d).batches.map P.extent) ∧
      (r.reply d).vector ≤
        reach ((r.reply d).start r.client) ((r.reply d).batches.map P.extent) := by
  obtain ⟨n, hn, hcov, hnext⟩ := hr.view
  obtain ⟨i, hi, hw, hfrom⟩ := Registration.Of.fromRow_eq hd hn hcov hr.base
  have hvec : (r.reply d).vector = reach inner.logVector (r.buffer.map P.extent) := hr.vector
  have hbatches : (r.reply d).batches = r.fromRow.elim [] (fun from_ =>
    (d.logRows (from_ - 1) none).flatMap fun row => row.batches.map Batch.bytes) ++ r.buffer := rfl
  rw [hvec]
  cases hrow : (d.rows.take n)[i]? with
  | none =>
    have hlog : inner.logVector ≤ d.vectorAt (d.baseThrough + i) := by
      have := getElem?_eq_none_iff.1 hrow
      rw [length_take] at this
      rw [ht.logVector]
      exact hd.vectorAt_mono (by omega)
    rw [hbatches, hfrom, hrow, map_none, elim_none, nil_append]
    exact ⟨hr.gapFree.mono (hlog.trans hw), reach_mono (hlog.trans hw) _⟩
  | some row =>
    have hrow' : d.rows[i]? = some row := by
      rw [getElem?_take] at hrow
      split_ifs at hrow
      exact hrow
    have hext : (r.reply d).batches.map P.extent =
        P.rowExtents (d.rows.drop i) ++ r.buffer.map P.extent := by
      rw [hbatches, hfrom, hrow, map_some, elim_some, hd.logRows_at hrow']
      simp [Platform.rowExtents, Platform.extents, map_flatMap, Function.comp_def]
    rw [hext]
    exact hd.supplies hw (ht.logVector ▸ hd.vectorAt_le _) hr.gapFree

end Reply

/-- The update in a frame. -/
def Frame.update : Frame V → Option (List UInt8)
  | .docUpdate bytes => some bytes
  | _ => none

/-- The update that an event puts on socket `k`'s queue. -/
def Event.updateTo (k : ℕ) : Event V → Option (List UInt8)
  | .sent socket (.docUpdate bytes) => if socket = k then some bytes else none
  | _ => none

/-- The update that an event installs in the head. -/
def Event.update : Event V → Option (List UInt8)
  | .installed _ bytes => some bytes
  | _ => none

/-- The same, unless it came from socket `k`. -/
def Event.updateBut (k : ℕ) : Event V → Option (List UInt8)
  | .installed socket bytes => if socket = some k then none else some bytes
  | _ => none

/-- The updates on socket `k`'s queue, in order. -/
def updatesTo (k : ℕ) (shown : List (Event V)) : List (List UInt8) :=
  shown.filterMap (Event.updateTo k)

/-- The updates that are installed, in order. -/
def installed (shown : List (Event V)) : List (List UInt8) := shown.filterMap Event.update

/-- The updates of others than socket `k` that are installed, in order. -/
def installedBut (k : ℕ) (shown : List (Event V)) : List (List UInt8) :=
  shown.filterMap (Event.updateBut k)

section Frames

variable {k : ℕ} {shown more : List (Event V)}

lemma updatesTo_append :
    updatesTo k (shown ++ more) = updatesTo k shown ++ updatesTo k more := filterMap_append

lemma installed_append : installed (shown ++ more) = installed shown ++ installed more :=
  filterMap_append

lemma installedBut_append :
    installedBut k (shown ++ more) = installedBut k shown ++ installedBut k more :=
  filterMap_append

@[simp] lemma updatesTo_installed {socket : Option ℕ} {bytes : List UInt8} :
    updatesTo k [(.installed socket bytes : Event V)] = [] := rfl

@[simp] lemma updatesTo_answered {socket : ℕ} {answer : Ingested V} :
    updatesTo k [.answered socket answer] = [] := rfl

@[simp] lemma installedBut_answered {socket : ℕ} {answer : Ingested V} :
    installedBut k [.answered socket answer] = [] := rfl

@[simp] lemma installedBut_installed {socket : Option ℕ} {bytes : List UInt8} :
    installedBut k [(.installed socket bytes : Event V)] =
      if socket = some k then [] else [bytes] := by
  by_cases h : socket = some k <;> simp [installedBut, Event.updateBut, h]

lemma installed_frames (h : ∀ e ∈ shown, e.frame = true) : installed shown = [] := by
  refine filterMap_eq_nil_iff.2 fun e he => ?_
  cases e <;> first | rfl | cases h _ he

lemma installedBut_frames (h : ∀ e ∈ shown, e.frame = true) : installedBut k shown = [] := by
  refine filterMap_eq_nil_iff.2 fun e he => ?_
  cases e <;> first | rfl | cases h _ he

/-- What is sent without an update leaves the queue's updates alone. -/
lemma updatesTo_nil (h : ∀ f, .sent k f ∈ shown → ∀ bytes, f ≠ .docUpdate bytes) :
    updatesTo k shown = [] := by
  refine filterMap_eq_nil_iff.2 fun e he => ?_
  unfold Event.updateTo
  split
  · rename_i socket bytes
    split
    · rename_i hk
      exact absurd rfl (h _ (hk ▸ he) bytes)
    · rfl
  · rfl

end Frames

section Relay

variable {full : List ℕ} {inner : Inner P} {k : ℕ} {sub : Subscriber}

/-- A subscriber whose queue is open is sent what the frame made for it holds. -/
lemma fanOut_updatesTo {frame : ℕ → Subscriber → Option (Frame V)}
    (hnodup : (inner.subscribers.map Prod.fst).Nodup) (hsub : (k, sub) ∈ inner.subscribers)
    (hopen : ∀ why, .closed k why ∉ (fanOut full frame inner).2) :
    updatesTo k (fanOut full frame inner).2 = ((frame k sub).bind Frame.update).toList := by
  have hfull : k ∈ full → frame k sub = none := by
    intro hk
    by_contra hframe
    refine hopen _ (mem_append_right _ (mem_map.2 ⟨(k, sub), ?_, rfl⟩))
    refine mem_filter.2 ⟨hsub, ?_⟩
    simp [hk, isSome_iff_ne_none, hframe]
  unfold fanOut
  rw [updatesTo_append]
  have hclosed : ∀ l : List (ℕ × Subscriber), updatesTo k
      (l.map fun s => (Event.closed s.1 "subscriber too slow; reconnect" : Event V)) = [] := by
    refine fun l => updatesTo_nil fun f hf => ?_
    obtain ⟨x, -, hx⟩ := mem_map.1 hf
    cases hx
  rw [hclosed, append_nil, updatesTo, filterMap_filterMap, filterMap_eq_of_key hnodup hsub]
  · by_cases hk : k ∈ full
    · simp [hk, hfull hk]
    · cases frame k sub with
      | none => simp [hk]
      | some f => cases f <;> simp [hk, Event.updateTo, Frame.update]
  · intro x hx
    by_cases hx' : x.1 ∈ full
    · simp [hx']
    · cases frame x.1 x.2 with
      | none => simp [hx']
      | some f => cases f <;> simp [hx', hx, Event.updateTo]

/-- An editor whose queue is open is sent the update, unless it is the sender. -/
lemma relay_updatesTo {skip : Option ℕ} {bytes : List UInt8}
    (hnodup : (inner.subscribers.map Prod.fst).Nodup) (hsub : (k, sub) ∈ inner.subscribers)
    (hrole : sub.role = .editor) (hopen : ∀ why, .closed k why ∉ (relay full skip bytes inner).2) :
    updatesTo k (relay full skip bytes inner).2 = if skip = some k then [] else [bytes] := by
  unfold relay at hopen ⊢
  rw [fanOut_updatesTo hnodup hsub hopen]
  by_cases hskip : skip = some k
  · simp [hskip]
  · simp [hskip, Ne.symm hskip, hrole, Frame.update]

lemma acknowledge_updatesTo {acknowledged : List (String × ℤ)} :
    updatesTo k (acknowledge full acknowledged inner).2 = [] := by
  refine updatesTo_nil fun f hf bytes => ?_
  obtain ⟨sub, upTo, -, -, rfl⟩ := acknowledge_sent hf
  simp

lemma acknowledgePeer_updatesTo {peerKey : String} {upTo : ℤ} :
    updatesTo k (acknowledgePeer full peerKey upTo inner).2 = [] := by
  refine updatesTo_nil fun f hf bytes => ?_
  obtain ⟨sub, -, -, rfl⟩ := acknowledgePeer_sent hf
  simp

lemma notifyDurable_updatesTo : updatesTo k (notifyDurable full inner).2 = [] := by
  refine updatesTo_nil fun f hf bytes => ?_
  rw [notifyDurable_sent hf]
  simp

end Relay

section Steps

variable [DecidableEq V] [DecidableLE V] [DecidableEq K] [DecidableEq D] {c : Config}
  {s t : Sys P} {op : Op V} {shown : List (Event V)} {k : ℕ} {sub : Subscriber}

lemma Inner.appendPending_keeps {inner : Inner P} {o : Outside} {socket : ℕ} {p : Pending P}
    {x : ℕ × Subscriber} (hx : x ∈ inner.subscribers) :
    x ∈ (inner.appendPending o socket p).1.subscribers ∨
      ∃ why, .closed x.1 why ∈ (inner.appendPending o socket p).2 :=
  (relay_sends o.full (some socket) p.bytes _).kept x hx

lemma Inner.appendPending_updatesTo {inner : Inner P} {o : Outside} {socket : ℕ}
    {p : Pending P} (hnodup : (inner.subscribers.map Prod.fst).Nodup)
    (hsub : (k, sub) ∈ inner.subscribers) (hrole : sub.role = .editor)
    (hopen : ∀ why, .closed k why ∉ (inner.appendPending o socket p).2) :
    updatesTo k (inner.appendPending o socket p).2 = if socket = k then [] else [p.bytes] :=
  (relay_updatesTo hnodup hsub hrole hopen).trans (by simp)

/-- A command's prepared batch goes to every editor whose queue is open. -/
lemma Inner.finishCommand_updatesTo {inner : Inner P} {full : List ℕ} {imported : Bool}
    {prepared : Option (Prepared P)} {n : ℕ} (hacks : inner.commandAcks c prepared ≠ [])
    (hnodup : (inner.subscribers.map Prod.fst).Nodup) (hsub : (k, sub) ∈ inner.subscribers)
    (hrole : sub.role = .editor)
    (hopen : ∀ why, .closed k why ∉ (inner.finishCommand c full imported prepared n).2) :
    updatesTo k (inner.finishCommand c full imported prepared n).2 =
      prepared.toList.map Prepared.bytes := by
  rw [Inner.finishCommand, if_neg hacks] at hopen ⊢
  dsimp only at hopen ⊢
  rw [updatesTo_append, updatesTo_append, acknowledge_updatesTo, notifyDurable_updatesTo,
    append_nil, append_nil]
  cases prepared with
  | none => rfl
  | some p =>
    refine (relay_updatesTo hnodup hsub hrole fun why hmem => hopen why ?_).trans (by simp)
    exact mem_append_left _ (mem_append_left _ hmem)

lemma Inner.install_keeps (full : List ℕ) (imported : Bool) (inner : Inner P)
    (prepared : Option (Prepared P)) : ∀ x ∈ inner.subscribers,
      x ∈ (inner.install full imported prepared).1.subscribers ∨
        ∃ why, .closed x.1 why ∈ (inner.install full imported prepared).2 := by
  cases prepared with
  | none => exact fun _ => .inl
  | some p => exact (relay_sends full none p.bytes _).kept

lemma Inner.finishCommand_keeps {inner : Inner P} {full : List ℕ} {imported : Bool}
    {prepared : Option (Prepared P)} {n : ℕ} {x : ℕ × Subscriber} (hx : x ∈ inner.subscribers) :
    x ∈ (inner.finishCommand c full imported prepared n).1.subscribers ∨
      ∃ why, .closed x.1 why ∈ (inner.finishCommand c full imported prepared n).2 := by
  unfold Inner.finishCommand
  dsimp only
  split_ifs
  · exact .inl hx
  · rcases Inner.install_keeps full imported (inner.retire inner.buffer.length n
      (inner.commandAttempt c prepared).vector
      (encode (inner.commandAttempt c prepared).row.batches).length) prepared x hx with
      hx | ⟨why, hwhy⟩
    · rcases ((acknowledge_sends full (inner.commandAcks c prepared) _).trans
        (notifyDurable_sends full _)).kept x hx with hx | ⟨why, hwhy⟩
      · exact .inl hx
      · exact .inr ⟨why, by rw [append_assoc]; exact mem_append_right _ hwhy⟩
    · exact .inr ⟨why, mem_append_left _ (mem_append_left _ hwhy)⟩

/-- Over a step an open editor stays, and is sent what others install. -/
lemma Shows.relays (h : Shows c op s t shown) (hnodup : (s.inner.subscribers.map Prod.fst).Nodup)
    (hsub : (k, sub) ∈ s.inner.subscribers) (hrole : sub.role = .editor)
    (hopen : ∀ why, .closed k why ∉ shown) (hreg : .registered k ∉ shown) :
    (k, sub) ∈ t.inner.subscribers ∧ updatesTo k shown = installedBut k shown := by
  cases h with
  | closing hacc hsends hclosed =>
    refine ⟨(hsends.kept _ hsub).resolve_right (not_exists.2 hopen), ?_⟩
    rw [installedBut_frames fun e he => ?_, updatesTo_nil fun f hf => ?_]
    · obtain ⟨j, why, heq⟩ := hclosed _ hf
      cases heq
    · obtain ⟨j, why, rfl⟩ := hclosed _ he
      rfl
  | registered socket subscriber j hacc hinner hshown =>
    subst hshown
    have hne : k ≠ socket := by
      rintro rfl
      exact hreg (mem_singleton_self _)
    refine ⟨?_, rfl⟩
    rw [hinner]
    exact mem_cons_of_mem _ (mem_filter.2 ⟨hsub, by simpa using hne⟩)
  | joined r hgate hacc hinner hshown =>
    subst hshown
    exact ⟨hinner ▸ hsub, rfl⟩
  | ingested o socket peerKey clientSeq bytes r hop hcases hacc hinner hshown =>
    subst hshown
    have hrelay : ∀ why, .closed k why ∉ r.events := fun why hmem => hopen why (by simp [hmem])
    rw [hinner, updatesTo_append, updatesTo_append, installedBut_append, installedBut_append,
      installedBut_frames fun e he => hcases.frame he]
    cases hcases with
    | refused answer left => exact ⟨hsub, rfl⟩
    | duplicate q hq => exact ⟨hsub, rfl⟩
    | empty header hdecode hempty =>
      refine ⟨((acknowledgePeer_sends _ _ _ _).kept _ hsub).resolve_right
        (not_exists.2 hrelay), ?_⟩
      rw [acknowledgePeer_updatesTo]
      rfl
    | appended header hdecode =>
      refine ⟨(Inner.appendPending_keeps hsub).resolve_right (not_exists.2 hrelay), ?_⟩
      rw [Inner.appendPending_updatesTo hnodup hsub hrole hrelay]
      by_cases hk : socket = k
      · simp [hk]
      · simp [hk]
  | retired full f n hgate hacc hinner hshown =>
    subst hshown
    rw [hinner, installedBut_frames fun e he => Inner.finishFlush_frame he]
    have hsends := (acknowledge_sends full f.acknowledged (s.inner.retire f.take n f.attempt.vector
      (encode f.attempt.row.batches).length)).trans (notifyDurable_sends full _)
    refine ⟨(hsends.kept (k, sub) hsub).resolve_right (not_exists.2 hopen), ?_⟩
    unfold Inner.finishFlush
    rw [updatesTo_append, acknowledge_updatesTo, notifyDurable_updatesTo]
    rfl
  | committed full imported prepared n hacks hacc hinner hshown =>
    subst hshown
    have hrelay : ∀ why, .closed k why ∉ (s.inner.finishCommand c full imported prepared n).2 :=
      fun why hmem => hopen why (mem_append_right _ hmem)
    refine ⟨hinner ▸ (Inner.finishCommand_keeps hsub).resolve_right
      (not_exists.2 hrelay), ?_⟩
    rw [updatesTo_append, installedBut_append,
      installedBut_frames fun _ => Inner.finishCommand_frame,
      Inner.finishCommand_updatesTo hacks hnodup hsub hrole hrelay]
    cases prepared <;> rfl

/-- The head grows by what a step installs. -/
lemma Shows.head (h : Shows c op s t shown) :
    t.inner.headVector = reach s.inner.headVector ((installed shown).map P.extent) := by
  cases h with
  | closing hacc hsends hclosed =>
    rw [installed_frames fun e he => ?_]
    · exact hsends.headVector
    · obtain ⟨j, why, rfl⟩ := hclosed _ he
      rfl
  | registered socket subscriber j hacc hinner hshown => rw [hshown, hinner]; rfl
  | joined r hgate hacc hinner hshown => rw [hshown, hinner]; rfl
  | ingested o socket peerKey clientSeq bytes r hop hcases hacc hinner hshown =>
    rw [hshown, hinner, installed_append, installed_append,
      installed_frames fun e he => hcases.frame he]
    cases hcases with
    | refused => rfl
    | duplicate => rfl
    | empty => rfl
    | appended header hdecode => exact congrArg (s.inner.headVector ⊔ ·) (Pending.stop_eq _)
  | retired full f n hgate hacc hinner hshown =>
    rw [hshown, hinner, installed_frames fun e he => Inner.finishFlush_frame he]
    rfl
  | committed full imported prepared n hacks hacc hinner hshown =>
    rw [hshown, hinner, installed_append,
      installed_frames fun _ => Inner.finishCommand_frame, Inner.finishCommand,
      if_neg hacks]
    cases prepared with
    | none => rfl
    | some p =>
      have hstop : (P.extent p.bytes).stop = p.header.partialEndVv := by
        rw [Platform.extent_ok p.decoded]
      exact congrArg (s.inner.headVector ⊔ ·) hstop.symm

/-- Over a run an open editor stays, and is sent what others install, in order. -/
lemma Run.relays (hrun : Run c s shown t) (h : Reachable c s)
    (hsub : (k, sub) ∈ s.inner.subscribers) (hrole : sub.role = .editor)
    (hopen : ∀ why, .closed k why ∉ shown) (hreg : .registered k ∉ shown) :
    (k, sub) ∈ t.inner.subscribers ∧ updatesTo k shown = installedBut k shown := by
  induction hrun with
  | refl => exact ⟨hsub, rfl⟩
  | step op hrun hstep ih =>
    obtain ⟨hmid, hsame⟩ := ih (fun why hw => hopen why (mem_append_left _ hw))
      fun hr => hreg (mem_append_left _ hr)
    obtain ⟨hlast, hmore⟩ := (step_does hstep).shows.relays (h.run hrun).inv.inner.subscribers hmid
      hrole (fun why hw => hopen why (mem_append_right _ hw))
      fun hr => hreg (mem_append_right _ hr)
    exact ⟨hlast, by rw [updatesTo_append, installedBut_append, hsame, hmore]⟩

lemma Run.head (hrun : Run c s shown t) :
    t.inner.headVector = reach s.inner.headVector ((installed shown).map P.extent) := by
  induction hrun with
  | refl => rfl
  | step op hrun hstep ih =>
    rw [(step_does hstep).shows.head, ih, installed_append, map_append, reach_append]

/-- What a join promises. A registered client is a subscriber of a known head; the reply
makes up what the client lacks of that head, one batch after another; from then on an
editor is sent what others install, in order, until it is closed; and what is installed
is what the head grows by. -/
structure Completes (c : Config) (s : Sys P) : Prop where
  registers : ∀ k sub t shown, step c s (.joinRegister k sub) = some (t, shown) →
    .registered k ∈ shown → (k, sub) ∈ t.inner.subscribers ∧
      ∃ j r, s.gate = .joining j ∧ t.gate = .joined r ∧ r.socket = k ∧ r.client = j.client ∧
        r.vector = t.inner.headVector
  replies : ∀ op k reply t shown, step c s op = some (t, shown) → .joined k reply ∈ shown →
    ∃ r, s.gate = .joined r ∧ r.socket = k ∧ reply.vector = r.vector ∧
      GapFree (reply.start r.client) (reply.batches.map P.extent) ∧
      reply.vector ≤ reach (reply.start r.client) (reply.batches.map P.extent)
  relays : ∀ k sub t shown, (k, sub) ∈ s.inner.subscribers → sub.role = .editor →
    Run c s shown t → (∀ why, .closed k why ∉ shown) → .registered k ∉ shown →
      (k, sub) ∈ t.inner.subscribers ∧ updatesTo k shown = installedBut k shown
  head : ∀ t shown, Run c s shown t →
    t.inner.headVector = reach s.inner.headVector ((installed shown).map P.extent)

/-- Every join on a reachable sequencer is complete. -/
theorem join_complete (h : Reachable c s) : Completes c s where
  registers := by
    intro k sub t shown hs hk
    simp only [step, Sys.joinRegister] at hs
    split at hs
    · rename_i j hgate
      split_ifs at hs
      · cases hs
        cases hk
      · cases hs
        exact ⟨mem_cons_self .., j, _, hgate, rfl, rfl, rfl, rfl⟩
    · cases hs
  replies := by
    intro op k reply t shown hs hk
    obtain ⟨r, hgate, -, rfl, rfl⟩ := (step_does hs).shows.replied hk
    have hok := h.inv.gate
    rw [hgate] at hok
    exact ⟨r, hgate, rfl, rfl, hok.complete h.inv.durable h.inv.tracks⟩
  relays := fun _ _ _ _ hsub hrole hrun hopen => hrun.relays h hsub hrole hopen
  head := fun t shown hrun => hrun.head

theorem join_complete_joined : Completes sampleConfig ((sampleAfter sampleJoined).get rfl) :=
  join_complete (sampleAfter_reachable sampleJoined rfl)

/-- A reader is sent no updates, and stays open. -/
theorem reader_not_relayed :
    ∃ (s t : Sys samplePlatform) (shown : List (Event ℕ)), Reachable sampleConfig s ∧
      (9, ⟨.reader, "9"⟩) ∈ s.inner.subscribers ∧
      step sampleConfig s (.ingest sampleOutside 7 "7" 1 [0, 1]) = some (t, shown) ∧
      installedBut 9 shown = [[0, 1]] ∧ updatesTo 9 shown = [] ∧
      ∀ why, .closed 9 why ∉ shown := by
  refine ⟨(sampleAfter sampleReader).get rfl, _,
    [.installed (some 7) [0, 1], .answered 7 .accepted], sampleAfter_reachable sampleReader rfl,
    mem_singleton_self _, rfl, by decide, by decide, by simp⟩

end Steps

end LibrePaper.Log
