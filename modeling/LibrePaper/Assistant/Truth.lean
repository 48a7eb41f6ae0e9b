import LibrePaper.Assistant.Held

/-!
# The registry tells the truth

A session that is running stands in the table under its key, no key has two sessions, and a start
that waits does not report a running session as over: as long as no reap writes back over a session
that was registered since it looked.
-/
namespace LibrePaper.Assistant
open Library

namespace Registry

/-- A reap does not write back over a session that runs. -/
def Steady (s : Registry) (o : Op) : Prop :=
  ∀ c key i next, o = .advance c → s.calls c = some (.joining key i next) →
    ∀ h origin j, s.sessions.lookup key = some (.running h origin j) →
      ∀ t ∈ s.tasks j, t.phase ≠ .running

variable {s t : Registry} {c i : ℕ} {key : String}

lemma Inv.begin (hs : s.Inv) {call : Call} (h : s.begin c call = some t) (hgated : ¬call.Gated)
    (hkeyed : call.Keyed) : t.Inv := by
  unfold Registry.begin at h
  split_ifs at h with hc
  cases h
  refine hs.setCall (fun h => absurd h hgated) hkeyed (meant_of_not_gated hgated) ?_
  intro _ _ _ hstop
  rw [hc] at hstop
  cases hstop

lemma Inv.advance (hs : s.Inv) (ho : s.Steady (.advance c)) (h : s.advance c = some t) :
    t.Inv := by
  unfold Registry.advance at h
  split at h
  · next r hc =>
    split_ifs at h with hgate
    cases h
    refine (hs.acquire hgate c).setCall (k := .reap r.key (.check r)) (fun _ => rfl) rfl
      trivial ?_
    intro _ _ _ hstop
    cases hc.symm.trans hstop
  · next key hc =>
    split_ifs at h with hgate
    cases h
    refine (hs.acquire hgate c).setCall (k := .reap key (.remove none)) (fun _ => rfl) trivial
      trivial ?_
    intro _ _ _ hstop
    cases hc.symm.trans hstop
  · next key next hc =>
    cases h
    exact hs.takeOut hc
  · next key i next hc =>
    refine hs.writeBack hc h ?_
    intro j hr
    obtain ⟨hash, origin, hlookup⟩ := hs.running key j hr
    obtain ⟨t, ht, -, hphase⟩ := hr
    exact ho c key i next rfl hc hash origin j hlookup t ht hphase
  · next key next hc =>
    cases h
    cases next with
    | check r =>
      have hkey : r.key = key := hs.keyed c _ hc
      subst hkey
      exact hs.check hc
    | remove r => exact hs.remove hc
    | settle left => exact hs.settle hc
    | report =>
      refine hs.setCall (fun h => h.elim) trivial trivial ?_
      intro _ _ _ hstop
      cases hc.symm.trans hstop
    | list rest => exact hs.list hc rest
  · next key i r hc =>
    split_ifs at h with hover
    cases h
    have hgate : s.gate = some c := hs.gated c _ hc trivial
    have hended : ∀ k, ¬s.LiveAt k i := fun k => not_live_of_outcome hover
    have hold : ∀ key i r, s.calls c = some (.stopping key i r) →
        ∀ t ∈ s.tasks i, t.phase ≠ .aborting := by
      intro key' i' r' hstop t ht hphase
      rw [hc] at hstop
      injection hstop with hstop
      injection hstop with _ hi _
      refine hended t.key ⟨t, hi ▸ ht, rfl, ?_⟩
      rw [Task.outcome, hphase]
    cases r with
    | none => exact hs.leave hgate _ hold
    | some r =>
      have hkey : r.key = key := hs.keyed c _ hc
      refine hs.setCall (fun _ => hgate) trivial ?_ hold
      intro j hlive
      rw [hkey] at hlive
      exact hended key (hs.meant c _ hc j hlive ▸ hlive)
  · cases h

lemma Inv.answer (hs : s.Inv) {result : Except String Unit} (h : s.answer c result = some t) :
    t.Inv := by
  unfold Registry.answer at h
  split at h
  · next r text hc =>
    cases h
    refine hs.leave (hs.gated c _ hc trivial) _ ?_
    intro _ _ _ hstop
    cases hc.symm.trans hstop
  · next r hc =>
    cases h
    exact hs.spawnRunning hc
  · next r text hc =>
    cases h
    refine hs.leave (hs.gated c _ hc trivial) _ ?_
    intro _ _ _ hstop
    cases hc.symm.trans hstop
  · next r hc =>
    have hgate : s.gate = some c := hs.gated c _ hc trivial
    have hold : ∀ key i r, s.calls c = some (.stopping key i r) →
        ∀ t ∈ s.tasks i, t.phase ≠ .aborting := by
      intro _ _ _ hstop
      cases hc.symm.trans hstop
    split at h
    · split at h
      · cases h
        exact hs.leave hgate _ hold
      · cases h
        refine (hs.setCall (k := .reap r.key (.settle polls)) (fun h => h.elim) trivial trivial
          hold).release (c := c) hgate ?_
        intro call hcall hg
        obtain ⟨-, rfl⟩ | ⟨hne, -⟩ := mem_setCall hcall
        · exact hg
        · exact hne rfl
    · cases h
      exact hs.leave hgate _ hold
  · cases h

lemma Inv.step (hs : s.Inv) {o : Op} (ho : s.Steady o) (h : s.step o = some t) : t.Inv := by
  cases o with
  | start c r => exact hs.begin h id trivial
  | stop c key => exact hs.begin h id trivial
  | status c key => exact hs.begin h id trivial
  | dashboard c => exact hs.begin h id trivial
  | advance c => exact hs.advance ho h
  | answer c result => exact hs.answer h
  | report i snapshot =>
    simp only [Registry.step, Registry.report] at h
    split_ifs at h with hlive
    cases h
    exact hs.updateTask i (fun _ => rfl) (fun _ => .inl rfl) fun _ _ _ => hlive.2
  | finish i outcome early =>
    simp only [Registry.step, Registry.finish] at h
    by_cases hlive : (s.tasks i).map Task.outcome = some none
    · rw [if_pos hlive] at h
      cases h
      exact hs.updateTask i (fun _ => rfl) (fun _ => .inr ⟨outcome, rfl⟩)
        fun _ _ => Phase.noConfusion
    · rw [if_neg hlive] at h
      cases h

lemma inv_empty : empty.Inv where
  spawned _ h := absurd rfl h
  entry key h o i hlookup := by
    rw [empty, Finmap.lookup_empty] at hlookup
    cases hlookup
  running key i h := by
    obtain ⟨t, ht, -⟩ := h
    cases ht
  aborting _ _ h := by cases h
  gated _ _ h := by cases h
  keyed _ _ h := by cases h
  meant _ _ h := by cases h
  telling _ _ h := by cases h

lemma settled_of_open {snapshot : StatusSnapshot} (hstopped : snapshot.state ≠ some .stopped)
    (hfailed : snapshot.state ≠ some .failed) :
    settled (some snapshot) = .ready ∨ settled (some snapshot) = .pending := by
  obtain ⟨state, taskId, detail⟩ := snapshot
  cases state with
  | none => exact .inr rfl
  | some state =>
    cases state with
    | starting | connecting => exact .inr rfl
    | ready | working | needsInput => exact .inl rfl
    | stopped => exact absurd rfl hstopped
    | failed => exact absurd rfl hfailed

/-- Where a session runs, a look at its key does not find it over. -/
lemma Inv.settled_of_running (hs : s.Inv) (h : s.RunningAt key i) :
    settled (s.snapshot key) = .ready ∨ settled (s.snapshot key) = .pending := by
  obtain ⟨hash, o, hlookup⟩ := hs.running key i h
  obtain ⟨t, ht, -, hphase⟩ := h
  obtain ⟨hstopped, hfailed⟩ := hs.telling i t ht hphase
  have hsnapshot : s.snapshot key = some t.status := by
    unfold snapshot
    rw [hlookup]
    simp only
    rw [Option.mem_def.1 ht]
    rfl
  rw [hsnapshot]
  exact settled_of_open hstopped hfailed

/-- A waiting start that looks at a running session answers with an error only when its time is
over. -/
lemma Inv.settle_error (hs : s.Inv) {left : ℕ} {text : String} (h : s.RunningAt key i)
    (hdone : (s.settle c key left).calls c = some (.done (.error text))) :
    text = "the assistant did not become ready within 75 seconds" := by
  unfold Registry.settle at hdone
  obtain hready | hpending := hs.settled_of_running h
  · rw [hready] at hdone
    cases (calls_setCall s c _).symm.trans hdone
  · rw [hpending] at hdone
    simp only at hdone
    split_ifs at hdone
    · cases (calls_setCall s c _).symm.trans hdone
      rfl
    · cases (calls_setCall s c _).symm.trans hdone

/-- A running session is in the table, no key has two live ones, and a start that waits does not
report one that runs as over. -/
theorem table_tells_the_truth {l : List Op} {s : Registry} (h : Run step Steady empty l s) :
    (∀ key i, s.RunningAt key i → ∃ hash origin,
      s.sessions.lookup key = some (.running hash origin i)) ∧
    (∀ key i j, s.LiveAt key i → s.LiveAt key j → i = j) ∧
    ∀ c key left, s.calls c = some (.reaped key (.settle left)) →
      ∀ t text, s.advance c = some t → t.calls c = some (.done (.error text)) →
        (∃ i, s.RunningAt key i) → text = "the assistant did not become ready within 75 seconds" := by
  have hs : s.Inv := Run.invariant (I := Inv) (fun _ _ _ hs ho => hs.step ho) h inv_empty
  refine ⟨hs.running, fun _ _ _ => hs.live_unique, fun c key left hc t text ht hdone => ?_⟩
  rintro ⟨i, hr⟩
  unfold advance at ht
  rw [hc] at ht
  cases ht
  exact hs.settle_error hr hdone

lemma steady_of_empty (h : s.sessions = ∅) (o : Op) : s.Steady o := by
  intro _ key _ _ _ _ hash origin j hlookup
  rw [h, Finmap.lookup_empty] at hlookup
  cases hlookup

lemma steady_answer (s : Registry) (c : ℕ) (result : Except String Unit) :
    s.Steady (.answer c result) := fun _ _ _ _ => Op.noConfusion

/-- The first start of a conversation is in the table. -/
theorem first_start_is_listed : ∃ s, Run step Steady empty
    [.start 1 ⟨"k", "site", "hash"⟩, .advance 1, .advance 1, .advance 1, .answer 1 (.ok ())] s ∧
    s.RunningAt "k" 0 ∧ ∃ hash origin, s.sessions.lookup "k" = some (.running hash origin 0) := by
  obtain ⟨s, hrun, hr⟩ : ∃ s, Run step Steady empty
      [.start 1 ⟨"k", "site", "hash"⟩, .advance 1, .advance 1, .advance 1, .answer 1 (.ok ())] s ∧
      s.RunningAt "k" 0 :=
    ⟨_, .cons (steady_of_empty rfl _) rfl (.cons (steady_of_empty rfl _) rfl
      (.cons (steady_of_empty rfl _) rfl (.cons (steady_of_empty rfl _) rfl
      (.cons (steady_answer _ _ _) rfl (.nil _))))), ⟨_, rfl, rfl, rfl⟩⟩
  exact ⟨s, hrun, hr, (table_tells_the_truth hrun).1 "k" 0 hr⟩

/-- A session ends; a status request takes its entry out, a start registers the next session, and
the status request writes back over it. -/
theorem overwritten_by_a_status_request : ¬∀ l s, Run step anyStep empty l s →
    ∀ key i, s.RunningAt key i → ∃ hash origin,
      s.sessions.lookup key = some (.running hash origin i) := by
  intro h
  obtain ⟨s, hrun, hr, hlookup⟩ : ∃ s, Run step anyStep empty
      [.start 1 ⟨"k", "site", "hash"⟩, .advance 1, .advance 1, .advance 1, .answer 1 (.ok ()),
        .finish 0 .ok false, .status 2 "k", .advance 2, .start 3 ⟨"k", "site", "hash"⟩,
        .advance 3, .advance 3, .advance 3, .answer 3 (.ok ()), .advance 2] s ∧
      s.RunningAt "k" 1 ∧
      s.sessions.lookup "k" = some (.terminal ⟨some .stopped, none, none⟩) :=
    ⟨_, .cons trivial rfl (.cons trivial rfl (.cons trivial rfl (.cons trivial rfl
      (.cons trivial rfl (.cons trivial rfl (.cons trivial rfl (.cons trivial rfl
      (.cons trivial rfl (.cons trivial rfl (.cons trivial rfl (.cons trivial rfl
      (.cons trivial rfl (.cons trivial rfl (.nil _)))))))))))))), ⟨_, rfl, rfl, rfl⟩, rfl⟩
  obtain ⟨hash, origin, hrunning⟩ := h _ _ hrun "k" 1 hr
  cases hlookup.symm.trans hrunning

end Registry
end LibrePaper.Assistant
