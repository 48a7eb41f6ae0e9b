import LibrePaper.Client.Saved

/-!
# Join steps

A join step checks after every `await` whether its connection is still the current one.
The steps of one connection run in the order of their frames; a step that a disconnect or
a leave made obsolete does nothing in any later state.
-/
namespace LibrePaper.Client
open Library List

variable {P : Type} [DecidableEq P] {R : Replica P} {c : Config}

/-- An event that leaves the join steps where they are. -/
structure Still (s t : Session R) : Prop where
  gate : t.gate = s.gate
  abandoned : t.abandoned = s.abandoned
  generation : t.generation = s.generation
  arrivals : t.arrivals = s.arrivals
  left : t.left = s.left

namespace Still
variable {s t u : Session R}

lemma refl (s : Session R) : Still s s := ⟨rfl, rfl, rfl, rfl, rfl⟩

lemma trans (h : Still s t) (h' : Still t u) : Still s u :=
  ⟨h'.gate.trans h.gate, h'.abandoned.trans h.abandoned, h'.generation.trans h.generation,
    h'.arrivals.trans h.arrivals, h'.left.trans h.left⟩

lemma of_grows (g : Grows s t) : Still s t :=
  ⟨g.gate, g.abandoned, g.generation, g.arrivals, g.left⟩

lemma live (h : Still s t) : live t = live s := by simp [Client.live, h.gate, h.abandoned]

end Still

lemma still_capture (s : Session R) : Still s (captureHydratedTarget c s) :=
  ⟨capture_gate s, capture_abandoned s, capture_generation s, capture_arrivals s, capture_left s⟩

variable {st st' : JoinStep R} {s m s' : Session R} {t : Turned R} {op : Op R}
  {out : List (Effect R)} {w : Chain} {rest : List (JoinStep R)} {u : R.Update} {n : ℕ}

lemma still_awake (h : Awake c st s m) : Still s m := by
  cases h with
  | hydrated _ _ _ => exact still_capture s
  | later _ => exact .refl s

lemma still_turning (h : Turning c st s t) : Still s t.session := by
  cases h with
  | queued _ _ => exact .refl s
  | obsolete m hm _ =>
    rcases hm with rfl | ha
    · exact .refl _
    · exact still_awake ha
  | rejected m _ ha _ _ => exact still_awake ha
  | fetching m ha _ _ => exact still_awake ha
  | reopened _ _ => exact .refl s
  | hashing _ _ _ => exact .refl s
  | received m base ha _ _ => exact (still_awake ha).trans (.of_grows (grows_receive _ _ _))

lemma still_settled (s : Session R) : Still s (settled c s).1 := by
  unfold settled
  split_ifs
  · exact ⟨rfl, rfl, rfl, rfl, rfl⟩
  · exact .refl s

lemma still_endHydration (h : Hydration) (s : Session R) : Still s (endHydration c h s).1 := by
  cases h with
  | hydrated =>
    have h0 : Still s { s with hydrating := false, isLocal := true } := ⟨rfl, rfl, rfl, rfl, rfl⟩
    exact (h0.trans (still_capture _)).trans (still_settled _)
  | failed error =>
    have h0 : Still s (failed c error { s with hydrating := false }).1 := ⟨rfl, rfl, rfl, rfl, rfl⟩
    exact h0.trans (still_settled _)
  | silent =>
    have h0 : Still s { s with hydrating := false } := ⟨rfl, rfl, rfl, rfl, rfl⟩
    exact h0.trans (still_settled _)

lemma still_localEdit (e : R.Edit) (s : Session R) : Still s (localEdit c e s).1 := by
  unfold localEdit rememberLocalTarget
  simp only
  split_ifs <;> exact ⟨rfl, rfl, rfl, rfl, rfl⟩

lemma still_durable (v : Option (VersionVector P)) (s : Session R) :
    Still s (durable c v s).1 := by
  have hg : Still s (mergeDurableCoverage v s) := .of_grows (grows_mergeDurableCoverage v s)
  unfold durable
  split_ifs
  · exact .refl s
  · refine hg.trans ?_
    unfold clearWhenCovered pressureEased
    split_ifs
    · exact ⟨rfl, rfl, rfl, rfl, rfl⟩
    · exact .refl _

lemma still_pressure (v : Option (VersionVector P)) (s : Session R) :
    Still s (pressure c v s) := by
  unfold pressure armRetry
  split_ifs
  · exact .refl s
  · exact ⟨rfl, rfl, rfl, rfl, rfl⟩
  · exact ⟨rfl, rfl, rfl, rfl, rfl⟩

/-- An event that schedules no join step, runs none and abandons none. -/
def Op.stills : Op R → Bool
  | .join _ => false
  | .turn _ _ => false
  | .disconnected => false
  | .leave => false
  | _ => true

lemma still_step (hk : op.stills = true) (h : step c s op = some (s', out)) : Still s s' := by
  cases op with
  | edit e =>
    obtain ⟨rfl, -⟩ := of_some h
    exact still_localEdit e s
  | restore u =>
    obtain ⟨-, rfl, -⟩ := of_guard h
    exact .of_grows (grows_importBatch [u] s)
  | hydration e =>
    obtain ⟨-, rfl, -⟩ := of_guard h
    exact still_endHydration e s
  | writing n =>
    obtain ⟨rfl, -⟩ := of_some h
    unfold writing
    simp only
    split_ifs <;> exact ⟨rfl, rfl, rfl, rfl, rfl⟩
  | persisted =>
    obtain ⟨rfl, -⟩ := of_some h
    exact ⟨rfl, rfl, rfl, rfl, rfl⟩
  | failed e =>
    obtain ⟨rfl, -⟩ := of_some h
    exact ⟨rfl, rfl, rfl, rfl, rfl⟩
  | apply u =>
    obtain ⟨rfl, -⟩ := of_some h
    unfold apply
    split_ifs
    · exact .refl s
    · exact ⟨rfl, rfl, rfl, rfl, rfl⟩
    · exact .of_grows (grows_importBatch [u] s)
  | acknowledge n =>
    obtain ⟨rfl, -⟩ := of_some h
    unfold acknowledge pressureEased
    split_ifs
    · exact .refl s
    · exact ⟨rfl, rfl, rfl, rfl, rfl⟩
  | durable v =>
    obtain ⟨rfl, -⟩ := of_some h
    exact still_durable v s
  | gap v =>
    obtain ⟨rfl, -⟩ := of_some h
    unfold gap pressureEased
    split_ifs
    · exact .refl s
    · exact ⟨rfl, rfl, rfl, rfl, rfl⟩
  | pressure v =>
    obtain ⟨rfl, -⟩ := of_some h
    exact still_pressure v s
  | timer =>
    obtain ⟨-, rfl, -⟩ := of_guard h
    unfold pressureFired
    simp only
    split_ifs <;> exact ⟨rfl, rfl, rfl, rfl, rfl⟩
  | _ => cases hk

/-- What holds of the join steps in every run. -/
structure Ordered (s : Session R) : Prop where
  mark_le : ∀ st ∈ live s, st.mark ≤ s.generation
  fresh : ∀ st ∈ live s, st.arrival < s.arrivals
  gone : ∀ st ∈ s.abandoned.flatten, st.mark < s.generation
  sorted : s.gate.Pairwise fun a b => a.arrival < b.arrival

lemma Still.ordered {t : Session R} (h : Still s t) (o : Ordered s) : Ordered t where
  mark_le := by
    rw [h.live, h.generation]
    exact o.mark_le
  fresh := by
    rw [h.live, h.arrivals]
    exact o.fresh
  gone := by
    rw [h.abandoned, h.generation]
    exact o.gone
  sorted := by
    rw [h.gate]
    exact o.sorted

lemma ordered_opened : Ordered (createProjectSession R c) := by
  have hl : live (createProjectSession R c) = [] := by
    unfold createProjectSession live
    simp only
    split_ifs <;> simp
  have hg : (createProjectSession R c).gate = [] := (append_eq_nil_iff.1 hl).1
  have ha : (createProjectSession R c).abandoned.flatten = [] := (append_eq_nil_iff.1 hl).2
  refine ⟨?_, ?_, ?_, ?_⟩
  · simp [hl]
  · simp [hl]
  · simp [ha]
  · simp [hg]

lemma ordered_sequenceJoin (frame : JoinFrame R) (o : Ordered s) :
    Ordered (sequenceJoin c frame s).1 := by
  have hlive : ∀ st ∈ live (sequenceJoin c frame s).1,
      st ∈ live s ∨ st = ⟨s.generation, s.arrivals, frame, .queued⟩ := by
    intro st hst
    rcases mem_append.1 hst with h | h
    · rcases mem_append.1 h with h | h
      · exact .inl (mem_append_left _ h)
      · exact .inr (mem_singleton.1 h)
    · exact .inl (mem_append_right _ h)
  refine ⟨?_, ?_, o.gone, ?_⟩
  · intro st hst
    rcases hlive st hst with h | rfl
    · exact o.mark_le st h
    · exact le_rfl
  · intro st hst
    rcases hlive st hst with h | rfl
    · exact (o.fresh st h).trans (Nat.lt_succ_self _)
    · exact Nat.lt_succ_self _
  · refine pairwise_append.2 ⟨o.sorted, pairwise_singleton _ _, ?_⟩
    intro a ha b hb
    rw [mem_singleton.1 hb]
    exact o.fresh a (mem_append_left _ ha)

lemma ordered_abandon (o : Ordered s) : Ordered (abandonQueuedJoins s) where
  mark_le := fun st hst => (o.mark_le st ((live_abandon s st).1 hst)).trans (Nat.le_succ _)
  fresh := fun st hst => o.fresh st ((live_abandon s st).1 hst)
  gone := by
    intro st hst
    have h : st ∈ live (abandonQueuedJoins s) := mem_append_right _ hst
    exact Nat.lt_succ_of_le (o.mark_le st ((live_abandon s st).1 h))
  sorted := .nil

/-- The step that a turn leaves is the one that took the turn. -/
lemma turning_step (h : Turning c st s t) (ht : t.step = some st') :
    st'.mark = st.mark ∧ st'.arrival = st.arrival := by
  cases h with
  | queued _ _ =>
    cases ht
    exact ⟨rfl, rfl⟩
  | fetching _ _ _ _ =>
    cases ht
    exact ⟨rfl, rfl⟩
  | hashing _ _ _ =>
    cases ht
    exact ⟨rfl, rfl⟩
  | obsolete _ _ _ => cases ht
  | rejected _ _ _ _ _ => cases ht
  | reopened _ _ => cases ht
  | received _ _ _ _ _ => cases ht

/-- Every step that is live after a turn was live before it. -/
lemma live_advance (hw : s.chain w = st :: rest) (ht : Turning c st s t)
    (h : st' ∈ live (t.session.setChain (t.step.toList ++ rest) w)) :
    ∃ st₀ ∈ live s, st₀.mark = st'.mark ∧ st₀.arrival = st'.arrival := by
  rcases mem_live_setChain h with h | h
  · rcases mem_append.1 h with h | h
    · obtain ⟨hm, ha⟩ := turning_step ht (by simpa using h)
      exact ⟨st, mem_live_of_chain (w := w) (by simp [hw]), hm.symm, ha.symm⟩
    · exact ⟨st', mem_live_of_chain (w := w) (by simp [hw, h]), rfl, rfl⟩
  · rw [(still_turning ht).live] at h
    exact ⟨st', h, rfl, rfl⟩

lemma setChain_order (s : Session R) (steps : List (JoinStep R)) (w : Chain) :
    (s.setChain steps w).generation = s.generation ∧
    (s.setChain steps w).arrivals = s.arrivals ∧ (s.setChain steps w).left = s.left := by
  cases w <;> exact ⟨rfl, rfl, rfl⟩

lemma sorted_turned (h : (st :: rest).Pairwise fun a b => a.arrival < b.arrival)
    (ht : Turning c st s t) :
    (t.step.toList ++ rest).Pairwise fun a b => a.arrival < b.arrival := by
  obtain ⟨hst, hrest⟩ := pairwise_cons.1 h
  cases hs : t.step with
  | none => exact hrest
  | some st' =>
    refine pairwise_cons.2 ⟨?_, hrest⟩
    intro b hb
    rw [(turning_step ht hs).2]
    exact hst b hb

lemma ordered_advance {answer : Fetched R} (o : Ordered s)
    (h : advance c w answer s = some (s', out)) : Ordered s' := by
  obtain ⟨st, rest, t, hw, ht, -, rfl⟩ := advance_cases h
  have hstill := still_turning ht
  obtain ⟨hg, ha, -⟩ := setChain_order t.session (t.step.toList ++ rest) w
  refine ⟨?_, ?_, ?_, ?_⟩
  · intro st' hst'
    obtain ⟨st₀, h₀, hm, -⟩ := live_advance hw ht hst'
    rw [hg, hstill.generation, ← hm]
    exact o.mark_le st₀ h₀
  · intro st' hst'
    obtain ⟨st₀, h₀, -, har⟩ := live_advance hw ht hst'
    rw [ha, hstill.arrivals, ← har]
    exact o.fresh st₀ h₀
  · rw [hg, hstill.generation]
    cases w with
    | gate =>
      intro st' hst'
      have h' : st' ∈ t.session.abandoned.flatten := hst'
      rw [hstill.abandoned] at h'
      exact o.gone st' h'
    | abandoned i =>
      intro st' hst'
      have hold : ∀ x ∈ st :: rest, x ∈ s.abandoned.flatten := by
        intro x hx
        rw [← hw] at hx
        cases hi : s.abandoned[i]? with
        | none => simp [Session.chain, hi] at hx
        | some l => exact mem_flatten.2 ⟨l, mem_of_getElem? hi,
            by simpa [Session.chain, hi] using hx⟩
      obtain ⟨l, hl, hx⟩ := mem_flatten.1 hst'
      rcases mem_or_eq_of_mem_set hl with hl | rfl
      · rw [hstill.abandoned] at hl
        exact o.gone st' (mem_flatten.2 ⟨l, hl, hx⟩)
      · rcases mem_append.1 hx with hx | hx
        · rw [(turning_step ht (by simpa using hx)).1]
          exact o.gone st (hold st mem_cons_self)
        · exact o.gone st' (hold st' (mem_cons_of_mem st hx))
  · cases w with
    | gate =>
      have hsorted : (st :: rest).Pairwise fun a b => a.arrival < b.arrival := by
        rw [← hw]
        exact o.sorted
      exact sorted_turned hsorted ht
    | abandoned i =>
      show t.session.gate.Pairwise _
      rw [hstill.gate]
      exact o.sorted

lemma ordered_step (o : Ordered s) (h : step c s op = some (s', out)) : Ordered s' := by
  by_cases hk : op.stills = true
  · exact (still_step hk h).ordered o
  · cases op with
    | join frame =>
      obtain ⟨rfl, -⟩ := of_some h
      exact ordered_sequenceJoin frame o
    | turn w answer => exact ordered_advance o h
    | disconnected =>
      obtain ⟨rfl, -⟩ := of_some h
      have h0 : Still s { s with joined := false, announced := false } := ⟨rfl, rfl, rfl, rfl, rfl⟩
      have h1 := ordered_abandon (h0.ordered o)
      have h2 : Still (abandonQueuedJoins { s with joined := false, announced := false })
          (disconnected c s).1 := ⟨rfl, rfl, rfl, rfl, rfl⟩
      exact h2.ordered h1
    | leave =>
      obtain ⟨rfl, -⟩ := of_some h
      have o' : Ordered { s with pressureTimer := none, left := true } :=
        ⟨o.mark_le, o.fresh, o.gone, o.sorted⟩
      exact ordered_abandon o'
    | _ => exact absurd rfl hk

lemma Run.ordered {Q : Session R → Op R → Prop} {mine : Set (Operation P)}
    (run : Run c Q s mine) : Ordered s := by
  induction run with
  | opened => exact ordered_opened
  | step _ _ _ h ih => exact ordered_step ih h

/-- The states that a session reaches from another. -/
inductive Later (c : Config) (s : Session R) : Session R → Prop where
  | refl : Later c s s
  | step {t t' : Session R} {op : Op R} {out : List (Effect R)} :
      Later c s t → Client.step c t op = some (t', out) → Later c s t'

/-- Where the join steps of a later state come from: they were there, or their frames
arrived since. -/
structure Since (s t : Session R) : Prop where
  generation : s.generation ≤ t.generation
  arrivals : s.arrivals ≤ t.arrivals
  left : s.left = true → t.left = true
  live : ∀ st ∈ live t, (∃ st₀ ∈ live s, st₀.mark = st.mark ∧ st₀.arrival = st.arrival) ∨
    s.arrivals ≤ st.arrival

namespace Since
variable {s t u : Session R}

lemma of_live (hg : s.generation ≤ t.generation) (ha : s.arrivals ≤ t.arrivals)
    (hl : s.left = true → t.left = true) (h : ∀ st ∈ Client.live t, st ∈ Client.live s) :
    Since s t :=
  ⟨hg, ha, hl, fun st hst => .inl ⟨st, h st hst, rfl, rfl⟩⟩

lemma of_still (h : Still s t) : Since s t :=
  of_live h.generation.ge h.arrivals.ge h.left.trans (by simp [h.live])

lemma trans (h : Since s t) (h' : Since t u) : Since s u where
  generation := h.generation.trans h'.generation
  arrivals := h.arrivals.trans h'.arrivals
  left := fun hl => h'.left (h.left hl)
  live := by
    intro st hst
    rcases h'.live st hst with ⟨st₁, h₁, hm₁, ha₁⟩ | ha
    · rcases h.live st₁ h₁ with ⟨st₀, h₀, hm₀, ha₀⟩ | ha
      · exact .inl ⟨st₀, h₀, hm₀.trans hm₁, ha₀.trans ha₁⟩
      · exact .inr (ha.trans_eq ha₁)
    · exact .inr (h.arrivals.trans ha)

end Since

lemma since_step (h : step c s op = some (s', out)) : Since s s' := by
  by_cases hk : op.stills = true
  · exact .of_still (still_step hk h)
  · cases op with
    | join frame =>
      obtain ⟨rfl, -⟩ := of_some h
      refine ⟨le_rfl, Nat.le_succ _, id, ?_⟩
      intro st hst
      rcases mem_append.1 hst with h | h
      · rcases mem_append.1 h with h | h
        · exact .inl ⟨st, mem_append_left _ h, rfl, rfl⟩
        · rw [mem_singleton.1 h]
          exact .inr le_rfl
      · exact .inl ⟨st, mem_append_right _ h, rfl, rfl⟩
    | turn w answer =>
      obtain ⟨st, rest, t, hw, ht, -, rfl⟩ := advance_cases h
      have hstill := still_turning ht
      obtain ⟨hg, ha, hl⟩ := setChain_order t.session (t.step.toList ++ rest) w
      exact ⟨(hg.trans hstill.generation).ge, (ha.trans hstill.arrivals).ge,
        fun h => hl.trans (hstill.left.trans h), fun st' hst' => .inl (live_advance hw ht hst')⟩
    | disconnected =>
      obtain ⟨rfl, -⟩ := of_some h
      exact .of_live (Nat.le_succ _) le_rfl id fun st hst =>
        (live_abandon { s with joined := false, announced := false } st).1 hst
    | leave =>
      obtain ⟨rfl, -⟩ := of_some h
      exact .of_live (Nat.le_succ _) le_rfl (fun _ => rfl) fun st hst =>
        (live_abandon { s with pressureTimer := none, left := true } st).1 hst
    | _ => exact absurd rfl hk

lemma Later.since {t : Session R} (h : Later c s t) : Since s t := by
  induction h with
  | refl => exact .of_still (.refl s)
  | step _ hstep ih => exact ih.trans (since_step hstep)

/-- A step of a session that was left, or of a connection that is gone. -/
def Obsolete (s : Session R) (st : JoinStep R) : Prop := s.left = true ∨ st.mark < s.generation

def Effect.import? : Effect R → Option R.Update
  | .imported u => some u
  | _ => none

/-- The updates that were imported, in order. -/
def importsOf (out : List (Effect R)) : List R.Update := out.filterMap Effect.import?

lemma importsOf_append (a b : List (Effect R)) :
    importsOf (a ++ b) = importsOf a ++ importsOf b :=
  filterMap_append

@[simp] lemma importsOf_imported (us : List R.Update) :
    importsOf (us.map Effect.imported) = us := by
  induction us with
  | nil => rfl
  | cons u us ih => simpa [importsOf, Effect.import?] using ih

lemma importsOf_report (s : Session R) : importsOf (report c s) = [] := by
  unfold report
  split_ifs <;> rfl

lemma importsOf_catchUp (v : Option (VersionVector P)) (s : Session R) :
    importsOf (catchUp c v s).2 = [] := by
  simp only [catchUp, importsOf_append, importsOf_report, nil_append]
  rfl

lemma importsOf_announcePresence (s : Session R) :
    importsOf (announcePresence c s).2 = [] := by
  unfold announcePresence
  split_ifs <;> rfl

lemma importsOf_finishJoin (v w : Option (VersionVector P)) (s : Session R) :
    importsOf (finishJoin c v w s).2 = [] := by
  unfold finishJoin
  simp only
  split_ifs
  · exact importsOf_report _
  · simp [andThen, importsOf_append, importsOf_announcePresence, importsOf_catchUp]
  · simp [andThen, importsOf_append, importsOf_announcePresence, importsOf_report]

lemma importsOf_receive (base : List R.Update) (frame : JoinFrame R) (s : Session R) :
    importsOf (receive c base frame s).2 = base ++ frame.updates ++ s.remoteDuringHydration := by
  simp only [receive, andThen, importsOf_append, importsOf_finishJoin, append_nil]
  simp [importBatch, flushRemoteDuringHydration, importsOf_append]

lemma finishJoin_doc (v w : Option (VersionVector P)) (s : Session R) :
    (finishJoin c v w s).1.doc = s.doc := by
  have hd : (mergeDurableCoverage w s).doc = s.doc := by cases w <;> rfl
  have ha : ∀ t : Session R, (announcePresence c t).1.doc = t.doc := by
    intro t
    unfold announcePresence
    split_ifs <;> rfl
  unfold finishJoin
  simp only
  split_ifs
  · exact hd
  · exact (ha _).trans hd
  · exact (ha _).trans hd

/-- The catch-up of a join goes out only when the local document covers the head that the
frame advertised. -/
lemma covers_of_sent {v w : Option (VersionVector P)}
    (h : Effect.sent (.docUpdate u n) ∈ (finishJoin c v w s).2) :
    covers (R.oplogVersion (finishJoin c v w s).1.doc) (v.getD ∅) = true := by
  rw [finishJoin_doc]
  have hd : (mergeDurableCoverage w s).doc = s.doc := by cases w <;> rfl
  by_contra hc
  have hc' : covers (R.oplogVersion (mergeDurableCoverage w s).doc) (v.getD ∅) = false := by
    rw [hd]
    simpa using hc
  simp only [finishJoin, hc', Bool.not_false, if_true] at h
  unfold report at h
  split_ifs at h <;> simp at h

lemma sent_receive {base : List R.Update} {frame : JoinFrame R}
    (h : Effect.sent (.docUpdate u n) ∈ (receive c base frame s).2) :
    covers (R.oplogVersion (receive c base frame s).1.doc) (frame.vector.getD ∅) = true := by
  rcases mem_append.1 h with h | h
  · simp [importBatch] at h
  · rcases mem_append.1 h with h | h
    · simp [flushRemoteDuringHydration, importBatch] at h
    · exact covers_of_sent h

lemma remote_capture (s : Session R) :
    (captureHydratedTarget c s).remoteDuringHydration = s.remoteDuringHydration := by
  unfold captureHydratedTarget rememberLocalTarget
  split_ifs <;> rfl

lemma remote_awake (h : Awake c st s m) : m.remoteDuringHydration = s.remoteDuringHydration := by
  cases h with
  | hydrated _ _ _ => exact remote_capture s
  | later _ => rfl

lemma setChain_doc (s : Session R) (steps : List (JoinStep R)) (w : Chain) :
    (s.setChain steps w).doc = s.doc := by
  cases w <;> rfl

lemma not_obsolete (h : Awake c st s m) (hs : speaksForThisJoin m st = true) :
    ¬ Obsolete s st := by
  have hs' : speaksForThisJoin s st = true := by
    cases h with
    | hydrated _ _ _ => simpa using hs
    | later _ => exact hs
  simp only [speaksForThisJoin, Bool.and_eq_true, Bool.not_eq_true', beq_iff_eq] at hs'
  rintro (h | h)
  · rw [h] at hs'
    cases hs'.1
  · omega

/-- A turn either shows nothing, or it is the last one of a step that is not obsolete. -/
structure Acts (c : Config) (st : JoinStep R) (s : Session R) (t : Turned R) : Prop where
  current : ¬ Obsolete s st
  ended : t.step = none
  imports : importsOf t.effects = [] ∨ ∃ base, BaseOf st base ∧
    importsOf t.effects = base ++ st.frame.updates ++ s.remoteDuringHydration
  covers : ∀ u n, Effect.sent (.docUpdate u n) ∈ t.effects →
    Library.covers (R.oplogVersion t.session.doc) (st.frame.vector.getD ∅) = true

lemma quiet_awake (h : Awake c st s m) : m.doc = s.doc ∧ m.joined = s.joined := by
  cases h with
  | hydrated _ _ _ =>
    refine ⟨capture_doc s, ?_⟩
    unfold captureHydratedTarget rememberLocalTarget
    split_ifs <;> rfl
  | later _ => exact ⟨rfl, rfl⟩

lemma turning_acts (h : Turning c st s t) :
    (t.effects = [] ∧ t.session.doc = s.doc ∧ t.session.joined = s.joined) ∨ Acts c st s t := by
  cases h with
  | queued _ _ => exact .inl ⟨rfl, rfl, rfl⟩
  | obsolete m hm _ =>
    refine .inl ⟨rfl, ?_⟩
    rcases hm with rfl | ha
    · exact ⟨rfl, rfl⟩
    · exact quiet_awake ha
  | fetching m ha _ _ => exact .inl ⟨rfl, quiet_awake ha⟩
  | hashing _ _ _ => exact .inl ⟨rfl, rfl, rfl⟩
  | rejected m why ha hs _ =>
    exact .inr ⟨not_obsolete ha hs, rfl, .inl rfl, fun u n h => by simp [Turned.ended] at h⟩
  | reopened hst hs =>
    have ha : Awake c st s s := .later (by simp [hst])
    exact .inr ⟨not_obsolete ha hs, rfl, .inl rfl,
      fun u n h => by simp [Turned.ended, openMessage] at h⟩
  | received m base ha hs hb =>
    refine .inr ⟨not_obsolete ha hs, rfl, .inr ⟨base, hb, ?_⟩, fun _ _ => sent_receive⟩
    exact (importsOf_receive base st.frame m).trans (by rw [remote_awake ha])

/-- The steps of the current connection are in the gate. -/
lemma chain_current (o : Ordered s) (hw : s.chain w = st :: rest) (h : ¬ Obsolete s st) :
    s.gate = st :: rest ∧ w = .gate := by
  cases w with
  | gate => exact ⟨hw, rfl⟩
  | abandoned i =>
    cases hi : s.abandoned[i]? with
    | none => simp [Session.chain, hi] at hw
    | some l =>
      have hl : l = st :: rest := by simpa [Session.chain, hi] using hw
      have hst : st ∈ s.abandoned.flatten := mem_flatten.2 ⟨l, mem_of_getElem? hi, by simp [hl]⟩
      exact absurd (.inr (o.gone st hst)) h

/-- Once a step has acted, every step of its connection that is still to come arrived
after it. -/
lemma later_arrival {t : Session R} {r : Turned R} (o : Ordered s) (hw : s.chain w = st :: rest)
    (ht : Turning c st s r) (ha : Acts c st s r)
    (hs' : s' = r.session.setChain (r.step.toList ++ rest) w) (hl : Later c s' t)
    (hst' : st' ∈ live t) (hm : st'.mark = st.mark) : st.arrival < st'.arrival := by
  obtain ⟨hgate, rfl⟩ := chain_current o hw ha.current
  have hstill := still_turning ht
  have hlive : st ∈ live s := mem_live_of_chain (w := .gate) (by simp [hw])
  have hmark : st.mark = s.generation := by
    have h1 := o.mark_le st hlive
    have h2 : ¬ st.mark < s.generation := fun h => ha.current (.inr h)
    omega
  have hsorted : ∀ x ∈ rest, st.arrival < x.arrival := by
    have h := o.sorted
    rw [hgate] at h
    exact (pairwise_cons.1 h).1
  rcases hl.since.live st' hst' with ⟨st₀, h₀, hm₀, ha₀⟩ | harr
  · rw [hs'] at h₀
    rcases mem_append.1 h₀ with h | h
    · rw [ha.ended] at h
      rw [← ha₀]
      exact hsorted st₀ h
    · have hgone : st₀ ∈ s.abandoned.flatten := by
        rw [← hstill.abandoned]
        exact h
      have := o.gone st₀ hgone
      omega
  · have hf := o.fresh st hlive
    have hs'' : s'.arrivals = s.arrivals := by
      rw [hs']
      exact hstill.arrivals
    omega

/-- The join steps of every run. A disconnect or a leave makes every step obsolete whose
frame had arrived; an obsolete step shows nothing and changes neither the document nor
the joined flag. The steps of a connection act one after another in the order of their
frames; each imports its base, then its rows in order, then what was relayed meanwhile,
and sends its catch-up only over a document that covers the advertised head. -/
theorem join_steps {Q : Session R → Op R → Prop} {s : Session R} {mine : Set (Operation P)}
    (run : Run c Q s mine) :
    (∀ op s' out, op = .disconnected ∨ op = .leave → step c s op = some (s', out) →
      ∀ t, Later c s' t → ∀ st ∈ live t, st.arrival < s.arrivals → Obsolete t st) ∧
    ∀ w answer st rest s' out, s.chain w = st :: rest →
      step c s (.turn w answer) = some (s', out) →
      (Obsolete s st → out = [] ∧ s'.doc = s.doc ∧ s'.joined = s.joined) ∧
      (out ≠ [] → ∀ t, Later c s' t → ∀ st' ∈ live t, st'.mark = st.mark →
        st.arrival < st'.arrival) ∧
      (importsOf out = [] ∨ ∃ base, BaseOf st base ∧
        importsOf out = base ++ st.frame.updates ++ s.remoteDuringHydration) ∧
      (∀ u n, Effect.sent (.docUpdate u n) ∈ out →
        covers (R.oplogVersion s'.doc) (st.frame.vector.getD ∅) = true) := by
  have o := run.ordered
  refine ⟨?_, ?_⟩
  · intro op s' out hop h t hl st hst harr
    have hgen : s'.generation = s.generation + 1 ∧ s'.arrivals = s.arrivals ∧
        ∀ x ∈ live s', x ∈ live s := by
      rcases hop with rfl | rfl
      · obtain ⟨rfl, -⟩ := of_some h
        exact ⟨rfl, rfl, fun x hx =>
          (live_abandon { s with joined := false, announced := false } x).1 hx⟩
      · obtain ⟨rfl, -⟩ := of_some h
        exact ⟨rfl, rfl, fun x hx =>
          (live_abandon { s with pressureTimer := none, left := true } x).1 hx⟩
    obtain ⟨hg, ha, hlive⟩ := hgen
    have hlater := hl.since.generation
    rcases hl.since.live st hst with ⟨st₀, h₀, hm, -⟩ | h
    · have := o.mark_le st₀ (hlive st₀ h₀)
      exact .inr (by omega)
    · omega
  · intro w answer st rest s' out hw h
    obtain ⟨st₁, rest₁, r, hw₁, ht, rfl, hs'⟩ := advance_cases h
    rw [hw] at hw₁
    obtain ⟨rfl, rfl⟩ := cons.inj hw₁
    have hdoc : s'.doc = r.session.doc := by rw [hs', setChain_doc]
    have hjoined : s'.joined = r.session.joined := by
      rw [hs']
      cases w <;> rfl
    rcases turning_acts ht with ⟨he, hd, hj⟩ | ha
    · refine ⟨fun _ => ⟨he, hdoc.trans hd, hjoined.trans hj⟩, absurd he, ?_, ?_⟩
      · exact .inl (by simp [he, importsOf])
      · simp [he]
    · refine ⟨fun hob => absurd hob ha.current, ?_, ha.imports, ?_⟩
      · exact fun _ _ hl _ hst' => later_arrival o hw ht ha hs' hl hst'
      · intro u n hsent
        rw [hdoc]
        exact ha.covers u n hsent

/-- A list of events, with everything they did. -/
def runOps (c : Config) (s : Session R) : List (Op R) → Option (Session R × List (Effect R))
  | [] => some (s, [])
  | op :: ops =>
    (step c s op).bind fun a => (runOps c a.1 ops).map fun b => (b.1, a.2 ++ b.2)

/-- An editor without a stored copy. -/
def fresh : Config := ⟨true, false, false, true⟩

/-- The answer to `doc-open`: a base by reference with three operations, and one row that
builds on it. -/
def referencedState : DocState versions :=
  ⟨PROTOCOL, some (AList.singleton 1 4), none, some "state/1", some "[3]", none, []⟩

def rowOnBase : Span := ⟨AList.singleton 1 3, AList.singleton 1 4⟩

def rowsOnBase : DocRows versions := ⟨PROTOCOL, some (AList.singleton 1 4), none, [rowOnBase]⟩

/-- Both frames arrive; the first step fetches the base, and the second waits. -/
def fetchingBoth : List (Op versions) :=
  [.join (.state referencedState), .join (.rows rowsOnBase), .turn .gate .failed,
    .turn .gate .failed]

/-- The server no longer offers the base: the first step opens the document again, and
the row of the join that it gave up is still imported, without its base, and reported. -/
theorem row_without_base :
    (runOps fresh (createProjectSession versions fresh) (fetchingBoth ++
      [.turn .gate .restartBaseline, .turn .gate .failed, .turn .gate .failed])).map Prod.snd =
    some [.reported ⟨0, false, 0, "", false⟩, .reported ⟨0, false, 0, "", false⟩,
      .sent (.docOpen ∅), .imported rowOnBase, .reported ⟨0, false, 0, "", false⟩] := rfl

/-- A session whose first join step is at the given stage. -/
def joiningAt (stage : Stage versions) : Session versions :=
  { createProjectSession versions fresh with
    gate := [⟨0, 0, .state referencedState, stage⟩]
    arrivals := 1 }

lemma run_joiningAt : ∃ mine, Run fresh (fun _ _ => True) (joiningAt .fetching) mine := by
  have h1 : Run fresh (fun _ _ => True) (joiningAt .queued) _ :=
    .step (.join (.state referencedState)) .opened trivial rfl
  have h2 : Run fresh (fun _ _ => True) (joiningAt .hydrating) _ :=
    .step (.turn .gate .failed) h1 trivial rfl
  have h3 : Run fresh (fun _ _ => True) (joiningAt .fetching) _ :=
    .step (.turn .gate .failed) h2 trivial rfl
  exact ⟨_, h3⟩

/-- A drop while the base is fetched: the fetched base changes nothing. -/
theorem join_steps_dropped :
    ∃ s mine, Run fresh (fun _ _ => True) s mine ∧
      ∀ s' out, step fresh s (.turn (.abandoned 0) (.bytes (R := versions) stored)) =
        some (s', out) → out = [] ∧ s'.doc = s.doc := by
  obtain ⟨mine, run⟩ := run_joiningAt
  have hdrop : Run fresh (fun _ _ => True) (disconnected fresh (joiningAt .fetching)).1 _ :=
    .step (.disconnected) run trivial rfl
  refine ⟨_, _, hdrop, ?_⟩
  intro s' out h
  obtain ⟨-, hturn⟩ := join_steps hdrop
  obtain ⟨hob, -, -, -⟩ := hturn (.abandoned 0) (.bytes (R := versions) stored)
    ⟨0, 0, .state referencedState, .fetching⟩ [] s' out rfl h
  obtain ⟨hout, hdoc, -⟩ := hob (.inr (by decide))
  exact ⟨hout, hdoc⟩

end LibrePaper.Client
