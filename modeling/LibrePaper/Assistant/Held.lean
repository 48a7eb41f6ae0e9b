import LibrePaper.Assistant.Registry

/-!
# What the registry holds

A session that is running stands in the table under its key, and one that is being stopped is waited
for behind the gate. One lemma for each thing that a call does.
-/
namespace LibrePaper.Assistant
open Library Option Function Finmap

/-- The call works behind the gate. -/
def Next.Gated : Next → Prop
  | .check _ | .remove _ => True
  | _ => False

def Call.Gated : Call → Prop
  | .reap _ next | .joining _ _ next | .reaped _ next => next.Gated
  | .stopping .. | .opening _ | .validating _ => True
  | _ => False

/-- The call works under the key that was asked for. -/
def Next.Keyed (key : String) : Next → Prop
  | .check r | .remove (some r) => r.key = key
  | _ => True

def Call.Keyed : Call → Prop
  | .reap key next | .joining key _ next | .reaped key next => next.Keyed key
  | .stopping key _ (some r) => r.key = key
  | _ => True

lemma Task.abort_key (t : Task) : t.abort.key = t.key := by
  unfold abort
  split_ifs <;> rfl

lemma Task.abort_not_running (t : Task) : t.abort.phase ≠ .running := by
  unfold abort
  split_ifs with h
  · exact Phase.noConfusion
  · intro hphase
    rw [Task.outcome, hphase] at h
    exact h rfl

variable {t : Task}

lemma Task.live_of_abort (h : t.abort.outcome = none) : t.outcome = none := by
  unfold abort at h
  split_ifs at h with ht
  · exact ht
  · exact h

lemma Task.abort_of_ended (h : t.outcome ≠ none) : t.abort = t := by
  unfold abort
  rw [if_neg h]

namespace Registry

/-- A task of the key that has not ended. -/
def LiveAt (s : Registry) (key : String) (i : ℕ) : Prop :=
  ∃ t ∈ s.tasks i, t.key = key ∧ t.outcome = none

/-- A task of the key that runs, and that nobody stops. -/
def RunningAt (s : Registry) (key : String) (i : ℕ) : Prop :=
  ∃ t ∈ s.tasks i, t.key = key ∧ t.phase = .running

/-- What a call waits for is as it left it. -/
def Meant (s : Registry) : Call → Prop
  | .opening r => ∀ i, ¬s.LiveAt r.key i
  | .stopping key i _ => ∀ j, s.LiveAt key j → j = i
  | _ => True

/-- What is shared of a session that runs does not say that it is over. -/
def Telling (t : Task) : Prop :=
  t.phase = .running → t.status.state ≠ some .stopped ∧ t.status.state ≠ some .failed

structure Inv (s : Registry) : Prop where
  spawned : ∀ i, s.tasks i ≠ none → i < s.spawned
  entry : ∀ key h o i, s.sessions.lookup key = some (.running h o i) →
    ∃ t ∈ s.tasks i, t.key = key ∧ t.phase ≠ .aborting
  running : ∀ key i, s.RunningAt key i → ∃ h o, s.sessions.lookup key = some (.running h o i)
  aborting : ∀ i, ∀ t ∈ s.tasks i, t.phase = .aborting →
    ∃ c r, s.calls c = some (.stopping t.key i r)
  gated : ∀ c, ∀ call ∈ s.calls c, call.Gated → s.gate = some c
  keyed : ∀ c, ∀ call ∈ s.calls c, call.Keyed
  meant : ∀ c, ∀ call ∈ s.calls c, s.Meant call
  telling : ∀ i, ∀ t ∈ s.tasks i, Telling t

variable {s : Registry} {key : String} {i c j : ℕ} {k call : Call} {next : Next} {r : Request}
  {f : Task → Task}

lemma RunningAt.live (h : s.RunningAt key i) : s.LiveAt key i := by
  obtain ⟨t, ht, hkey, hphase⟩ := h
  refine ⟨t, ht, hkey, ?_⟩
  rw [Task.outcome, hphase]

/-- A task that has not ended runs or is being stopped. -/
lemma LiveAt.cases (h : s.LiveAt key i) :
    s.RunningAt key i ∨ ∃ t ∈ s.tasks i, t.key = key ∧ t.phase = .aborting := by
  obtain ⟨t, ht, hkey, houtcome⟩ := h
  cases hphase : t.phase with
  | running => exact .inl ⟨t, ht, hkey, hphase⟩
  | aborting => exact .inr ⟨t, ht, hkey, hphase⟩
  | ended o =>
    rw [Task.outcome, hphase] at houtcome
    cases houtcome

/-- Behind the gate, the only task of a key that has not ended is the one in the table, unless the
call itself is stopping another. -/
lemma Inv.live_of_gate (hs : s.Inv) (hgate : s.gate = some c)
    (hcall : ∀ key i r, s.calls c ≠ some (.stopping key i r)) (h : s.LiveAt key i) :
    ∃ h o, s.sessions.lookup key = some (.running h o i) := by
  obtain h | ⟨t, ht, rfl, hphase⟩ := h.cases
  · exact hs.running key i h
  · obtain ⟨c', r, hc'⟩ := hs.aborting i t ht hphase
    have hsame := hs.gated c' _ hc' trivial
    rw [hgate] at hsame
    injection hsame with hsame
    exact absurd (hsame ▸ hc') (hcall _ _ _)

/-- No key has two sessions. -/
lemma Inv.live_unique (hs : s.Inv) (hi : s.LiveAt key i) (hj : s.LiveAt key j) : i = j := by
  obtain h | ⟨t, ht, rfl, hphase⟩ := hi.cases
  · obtain k | ⟨u, hu, rfl, hphase⟩ := hj.cases
    · obtain ⟨_, _, hi⟩ := hs.running key i h
      obtain ⟨_, _, hj⟩ := hs.running key j k
      rw [hi] at hj
      injection hj with hj
      injection hj
    · obtain ⟨c, r, hc⟩ := hs.aborting j u hu hphase
      exact hs.meant c _ hc i hi
  · obtain ⟨c, r, hc⟩ := hs.aborting i t ht hphase
    exact (hs.meant c _ hc j hj).symm

lemma mem_setCall {c' : ℕ} {call' : Call} (h : call' ∈ (s.setCall c k).calls c') :
    c' = c ∧ call' = k ∨ c' ≠ c ∧ call' ∈ s.calls c' := by
  simp only [setCall, update_apply] at h
  by_cases hc : c' = c
  · rw [if_pos hc] at h
    exact .inl ⟨hc, (some_inj.1 h).symm⟩
  · rw [if_neg hc] at h
    exact .inr ⟨hc, h⟩

lemma calls_setCall (s : Registry) (c : ℕ) (call : Call) :
    (s.setCall c call).calls c = some call := update_self _ _ _

/-- A call that moves on, from no task that it is still stopping. -/
lemma Inv.setCall (hs : s.Inv) (hgated : k.Gated → s.gate = some c) (hkeyed : k.Keyed)
    (hmeant : s.Meant k) (hold : ∀ key i r, s.calls c = some (.stopping key i r) →
      ∀ t ∈ s.tasks i, t.phase ≠ .aborting) : (s.setCall c k).Inv where
  spawned := hs.spawned
  entry := hs.entry
  running := hs.running
  aborting i t ht hphase := by
    obtain ⟨c', r, hc'⟩ := hs.aborting i t ht hphase
    have hne : c' ≠ c := by
      rintro rfl
      exact hold _ _ _ hc' t ht hphase
    exact ⟨c', r, (update_of_ne hne _ _).trans hc'⟩
  gated c' call' h hg := by
    obtain ⟨rfl, rfl⟩ | ⟨-, h⟩ := mem_setCall h
    · exact hgated hg
    · exact hs.gated c' call' h hg
  keyed c' call' h := by
    obtain ⟨rfl, rfl⟩ | ⟨-, h⟩ := mem_setCall h
    · exact hkeyed
    · exact hs.keyed c' call' h
  meant c' call' h := by
    obtain ⟨rfl, rfl⟩ | ⟨-, h⟩ := mem_setCall h
    · exact hmeant
    · exact hs.meant c' call' h
  telling := hs.telling

lemma Inv.acquire (hs : s.Inv) (hgate : s.gate = none) (c : ℕ) :
    Inv { s with gate := some c } where
  spawned := hs.spawned
  entry := hs.entry
  running := hs.running
  aborting := hs.aborting
  gated c' call h hg := by
    have hheld := hs.gated c' call h hg
    rw [hgate] at hheld
    cases hheld
  keyed := hs.keyed
  meant := hs.meant
  telling := hs.telling

lemma Inv.release (hs : s.Inv) (hgate : s.gate = some c)
    (hcall : ∀ call ∈ s.calls c, ¬call.Gated) : Inv { s with gate := none } where
  spawned := hs.spawned
  entry := hs.entry
  running := hs.running
  aborting := hs.aborting
  gated c' call h hg := by
    have hheld := hs.gated c' call h hg
    rw [hgate] at hheld
    injection hheld with hheld
    exact absurd hg (hcall call (hheld ▸ h))
  keyed := hs.keyed
  meant := hs.meant
  telling := hs.telling

/-- A call behind the gate that answers. -/
lemma Inv.leave (hs : s.Inv) (hgate : s.gate = some c) (answer : Answer)
    (hold : ∀ key i r, s.calls c = some (.stopping key i r) →
      ∀ t ∈ s.tasks i, t.phase ≠ .aborting) : (s.leave c answer).Inv := by
  refine (hs.setCall (k := .done answer) (fun h => h.elim) trivial trivial hold).release
    (c := c) hgate ?_
  intro call h hg
  obtain ⟨-, rfl⟩ | ⟨hne, -⟩ := mem_setCall h
  · exact hg
  · exact hne rfl

/-- Another entry under a key, of no session, where none runs. -/
lemma Inv.withSessions (hs : s.Inv) {k : String} {table : Finmap fun _ : String => Entry}
    (hother : ∀ j, j ≠ k → table.lookup j = s.sessions.lookup j)
    (hkey : ∀ h o i, table.lookup k ≠ some (.running h o i)) (hrunning : ∀ i, ¬s.RunningAt k i) :
    Inv { s with sessions := table } where
  spawned := hs.spawned
  entry j h o i hj := by
    have hne : j ≠ k := by
      rintro rfl
      exact hkey h o i hj
    exact hs.entry j h o i ((hother j hne).symm.trans hj)
  running j i hr := by
    have hne : j ≠ k := by
      rintro rfl
      exact hrunning i hr
    obtain ⟨h, o, hj⟩ := hs.running j i hr
    exact ⟨h, o, (hother j hne).trans hj⟩
  aborting := hs.aborting
  gated := hs.gated
  keyed := hs.keyed
  meant := hs.meant
  telling := hs.telling

lemma finished_cases (h : s.finished key = some i) :
    ∃ hash o, s.sessions.lookup key = some (.running hash o i) ∧
      ((s.tasks i).bind Task.outcome).isSome := by
  unfold finished at h
  split at h
  · next hash o j hlookup =>
    split_ifs at h with hover
    injection h with h
    exact ⟨hash, o, h ▸ hlookup, h ▸ hover⟩
  · cases h

lemma not_live_of_outcome (h : ((s.tasks i).bind Task.outcome).isSome) : ¬s.LiveAt key i := by
  rintro ⟨t, ht, -, houtcome⟩
  rw [mem_def.1 ht, bind_some, houtcome] at h
  cases h

/-- Under the key of a finished entry nothing runs. -/
lemma Inv.not_running_of_finished (hs : s.Inv) (h : s.finished key = some i) (j : ℕ) :
    ¬s.RunningAt key j := by
  intro hr
  obtain ⟨hash, o, hlookup, hover⟩ := finished_cases h
  obtain ⟨_, _, hj⟩ := hs.running key j hr
  rw [hlookup] at hj
  injection hj with hj
  injection hj with _ _ hj
  exact not_live_of_outcome hover (hj ▸ hr.live)

lemma Inv.takeOut (hs : s.Inv) (hc : s.calls c = some (.reap key next)) :
    (s.takeOut c key next).Inv := by
  have hgated : next.Gated → s.gate = some c := hs.gated c _ hc
  have hkeyed : next.Keyed key := hs.keyed c _ hc
  have hold : ∀ key i r, s.calls c = some (.stopping key i r) →
      ∀ t ∈ s.tasks i, t.phase ≠ .aborting := by
    intro _ _ _ h
    rw [hc] at h
    cases h
  unfold Registry.takeOut
  split
  · next i hfinished =>
    refine Inv.withSessions (hs.setCall (k := .joining key i next) hgated hkeyed trivial hold)
      (k := key) (fun _ => lookup_erase_ne) ?_ (hs.not_running_of_finished hfinished)
    intro h o j hj
    rw [lookup_erase] at hj
    cases hj
  · exact hs.setCall (k := .reaped key next) hgated hkeyed trivial hold

lemma Inv.writeBack {t : Registry} (hs : s.Inv) (hc : s.calls c = some (.joining key i next))
    (h : s.writeBack c key i next = some t) (hrunning : ∀ j, ¬s.RunningAt key j) : t.Inv := by
  obtain ⟨outcome, -, rfl⟩ := map_eq_some_iff.1 h
  have hkeyed : next.Keyed key := hs.keyed c _ hc
  have hgated : next.Gated → s.gate = some c := hs.gated c _ hc
  refine Inv.withSessions (hs.setCall (k := .reaped key next) hgated hkeyed trivial ?_)
    (k := key) (fun _ => lookup_insert_of_ne _) ?_ hrunning
  · intro _ _ _ h
    rw [hc] at h
    cases h
  · intro h o j hj
    rw [lookup_insert] at hj
    cases hj

lemma Inv.check (hs : s.Inv) (hc : s.calls c = some (.reaped r.key (.check r))) :
    (s.check c r).Inv := by
  have hgate : s.gate = some c := hs.gated c _ hc trivial
  have hnone : ∀ key i r, s.calls c ≠ some (.stopping key i r) := by
    intro _ _ _ h
    rw [hc] at h
    cases h
  have hold : ∀ key i r, s.calls c = some (.stopping key i r) →
      ∀ t ∈ s.tasks i, t.phase ≠ .aborting := fun _ _ _ h => absurd h (hnone _ _ _)
  unfold Registry.check
  split
  · split
    · exact hs.leave hgate _ hold
    · split_ifs
      · exact hs.setCall (fun _ => hgate) trivial trivial hold
      · exact hs.setCall (fun _ => hgate) rfl trivial hold
  · next hlookup =>
    refine hs.setCall (fun _ => hgate) trivial ?_ hold
    intro i hlive
    obtain ⟨h, o, hi⟩ := hs.live_of_gate hgate hnone hlive
    exact hlookup h o i hi

lemma Inv.settle (hs : s.Inv) {left : ℕ} (hc : s.calls c = some (.reaped key (.settle left))) :
    (s.settle c key left).Inv := by
  have hold : ∀ key i r, s.calls c = some (.stopping key i r) →
      ∀ t ∈ s.tasks i, t.phase ≠ .aborting := by
    intro _ _ _ h
    rw [hc] at h
    cases h
  unfold Registry.settle
  split
  · exact hs.setCall (fun h => h.elim) trivial trivial hold
  · exact hs.setCall (fun h => h.elim) trivial trivial hold
  · exact hs.setCall (fun h => h.elim) trivial trivial hold
  · split_ifs
    · exact hs.setCall (fun h => h.elim) trivial trivial hold
    · exact hs.setCall (fun h => h.elim) trivial trivial hold

lemma Inv.list (hs : s.Inv) {rest : List String}
    (hc : s.calls c = some (.reaped key (.list rest))) (rest' : List String) :
    (s.list c rest').Inv := by
  have hold : ∀ key i r, s.calls c = some (.stopping key i r) →
      ∀ t ∈ s.tasks i, t.phase ≠ .aborting := by
    intro _ _ _ h
    rw [hc] at h
    cases h
  cases rest' with
  | nil => exact hs.setCall (fun h => h.elim) trivial trivial hold
  | cons k rest' => exact hs.setCall (fun h => h.elim) trivial trivial hold

lemma Meant.mono {s' : Registry} (hlive : ∀ key i, s'.LiveAt key i → s.LiveAt key i)
    (h : s.Meant call) : s'.Meant call := by
  cases call with
  | opening r => exact fun i hi => h i (hlive r.key i hi)
  | stopping key i r => exact fun j hj => h j (hlive key j hj)
  | _ => trivial

lemma meant_of_not_gated (h : ¬call.Gated) : s.Meant call := by
  cases call with
  | opening r => exact absurd trivial h
  | stopping key i r => exact absurd trivial h
  | _ => trivial

lemma mem_updateTask (h : t ∈ (s.updateTask i f).tasks j) :
    j ≠ i ∧ t ∈ s.tasks j ∨ j = i ∧ ∃ u ∈ s.tasks j, f u = t := by
  simp only [updateTask, update_apply] at h
  by_cases hj : j = i
  · rw [if_pos hj] at h
    obtain ⟨u, hu, rfl⟩ := map_eq_some_iff.1 h
    exact .inr ⟨hj, u, hj ▸ hu, rfl⟩
  · rw [if_neg hj] at h
    exact .inl ⟨hj, h⟩

lemma tasks_updateTask_eq_none : (s.updateTask i f).tasks j = none ↔ s.tasks j = none := by
  simp only [updateTask, update_apply]
  by_cases hj : j = i
  · rw [if_pos hj, map_eq_none_iff, hj]
  · rw [if_neg hj]

/-- A task that goes on, or that ends. -/
lemma Inv.updateTask (hs : s.Inv) (i : ℕ) (hkey : ∀ t, (f t).key = t.key)
    (hphase : ∀ t, (f t).phase = t.phase ∨ ∃ o, (f t).phase = .ended o)
    (htelling : ∀ t, Telling t → Telling (f t)) : (s.updateTask i f).Inv := by
  have hback : ∀ j, ∀ t ∈ (s.updateTask i f).tasks j,
      ∃ u ∈ s.tasks j, u.key = t.key ∧ (t.phase = u.phase ∨ ∃ o, t.phase = .ended o) := by
    intro j t ht
    obtain ⟨-, ht⟩ | ⟨-, u, hu, rfl⟩ := mem_updateTask ht
    · exact ⟨t, ht, rfl, .inl rfl⟩
    · exact ⟨u, hu, (hkey u).symm, hphase u⟩
  have hlive : ∀ key j, (s.updateTask i f).LiveAt key j → s.LiveAt key j := by
    rintro key j ⟨t, ht, rfl, houtcome⟩
    obtain ⟨u, hu, hkey, hphase | ⟨o, hphase⟩⟩ := hback j t ht
    · refine ⟨u, hu, hkey, ?_⟩
      rw [Task.outcome, ← hphase]
      exact houtcome
    · rw [Task.outcome, hphase] at houtcome
      cases houtcome
  constructor
  · exact fun j hj => hs.spawned j (mt tasks_updateTask_eq_none.2 hj)
  · intro key h o j hlookup
    obtain ⟨u, hu, hukey, hne⟩ := hs.entry key h o j hlookup
    cases ht : (s.updateTask i f).tasks j with
    | none => exact absurd (tasks_updateTask_eq_none.1 ht) (ne_none_iff_exists'.2 ⟨u, hu⟩)
    | some t =>
      obtain ⟨u', hu', hkey', hphase'⟩ := hback j t ht
      cases (mem_def.1 hu).symm.trans hu'
      refine ⟨t, rfl, hkey'.symm.trans hukey, ?_⟩
      obtain hphase' | ⟨o, hphase'⟩ := hphase'
      · rw [hphase']
        exact hne
      · rw [hphase']
        exact Phase.noConfusion
  · rintro key j ⟨t, ht, rfl, hrunning⟩
    obtain ⟨u, hu, hkey, hphase | ⟨o, hphase⟩⟩ := hback j t ht
    · exact hs.running t.key j ⟨u, hu, hkey, hphase ▸ hrunning⟩
    · rw [hrunning] at hphase
      cases hphase
  · intro j t ht haborting
    obtain ⟨u, hu, hkey, hphase | ⟨o, hphase⟩⟩ := hback j t ht
    · rw [← hkey]
      exact hs.aborting j u hu (hphase ▸ haborting)
    · rw [haborting] at hphase
      cases hphase
  · exact hs.gated
  · exact hs.keyed
  · exact fun c call hc => Meant.mono hlive (hs.meant c call hc)
  · intro j t ht
    obtain ⟨-, ht⟩ | ⟨-, u, hu, rfl⟩ := mem_updateTask ht
    · exact hs.telling j t ht
    · exact htelling u (hs.telling j u hu)

/-- A stop behind the gate takes its key's entry out and aborts its task. -/
lemma Inv.abort (hs : s.Inv) {r : Option Request} {hash : String} {o : Option String}
    (hgate : s.gate = some c) (hnone : ∀ key i r, s.calls c ≠ some (.stopping key i r))
    (hkeyed : (Call.stopping key i r).Keyed)
    (hlookup : s.sessions.lookup key = some (.running hash o i)) :
    (({ s with sessions := s.sessions.erase key }.updateTask i Task.abort).setCall c
      (.stopping key i r)).Inv := by
  have hlive : ∀ k j, ({ s with sessions := s.sessions.erase key }.updateTask i
      Task.abort).LiveAt k j → s.LiveAt k j := by
    rintro k j ⟨t, ht, rfl, houtcome⟩
    obtain ⟨-, ht⟩ | ⟨rfl, u, hu, rfl⟩ := mem_updateTask ht
    · exact ⟨t, ht, rfl, houtcome⟩
    · exact ⟨u, hu, u.abort_key.symm, Task.live_of_abort houtcome⟩
  have hsession : ∀ k j, s.LiveAt k j → k = key → j = i := by
    rintro k j hj rfl
    obtain ⟨_, _, hj⟩ := hs.live_of_gate hgate hnone hj
    rw [hlookup] at hj
    injection hj with hj
    injection hj with _ _ hj
    exact hj.symm
  obtain ⟨t, ht, htkey, -⟩ := hs.entry key hash o i hlookup
  constructor
  · exact fun j hj => hs.spawned j (mt tasks_updateTask_eq_none.2 hj)
  · intro k h o' j hj
    have hne : k ≠ key := by
      rintro rfl
      exact absurd (hj.symm.trans (lookup_erase _ _)) (some_ne_none _)
    obtain ⟨u, hu, hukey, hphase⟩ := hs.entry k h o' j ((lookup_erase_ne hne).symm.trans hj)
    have hji : j ≠ i := by
      rintro rfl
      cases (mem_def.1 hu).symm.trans ht
      exact hne (hukey.symm.trans htkey)
    exact ⟨u, (update_of_ne hji _ _).trans hu, hukey, hphase⟩
  · rintro k j ⟨u, hu, rfl, hrunning⟩
    obtain ⟨hji, hu⟩ | ⟨-, u, -, rfl⟩ := mem_updateTask hu
    · have hr : s.RunningAt u.key j := ⟨u, hu, rfl, hrunning⟩
      obtain ⟨h, o', hj⟩ := hs.running u.key j hr
      exact ⟨h, o', (lookup_erase_ne fun hk => hji (hsession _ j hr.live hk)).trans hj⟩
    · exact absurd hrunning u.abort_not_running
  · intro j u hu haborting
    obtain ⟨-, hu⟩ | ⟨rfl, v, hv, rfl⟩ := mem_updateTask hu
    · obtain ⟨c', r', hc'⟩ := hs.aborting j u hu haborting
      have hne : c' ≠ c := by
        rintro rfl
        exact hnone _ _ _ hc'
      exact ⟨c', r', (update_of_ne hne _ _).trans hc'⟩
    · cases (mem_def.1 hv).symm.trans ht
      refine ⟨c, r, ?_⟩
      rw [Task.abort_key, htkey]
      exact update_self _ _ _
  · intro c' call hc' hg
    obtain ⟨rfl, rfl⟩ | ⟨-, hc'⟩ := mem_setCall hc'
    · exact hgate
    · exact hs.gated c' call hc' hg
  · intro c' call hc'
    obtain ⟨rfl, rfl⟩ | ⟨-, hc'⟩ := mem_setCall hc'
    · exact hkeyed
    · exact hs.keyed c' call hc'
  · intro c' call hc'
    obtain ⟨rfl, rfl⟩ | ⟨-, hc'⟩ := mem_setCall hc'
    · exact fun j hj => hsession key j (hlive key j hj) rfl
    · exact Meant.mono hlive (hs.meant c' call hc')
  · intro j u hu
    obtain ⟨-, hu⟩ | ⟨-, v, -, rfl⟩ := mem_updateTask hu
    · exact hs.telling j u hu
    · exact fun hrunning => absurd hrunning v.abort_not_running

lemma Inv.remove (hs : s.Inv) {r : Option Request}
    (hc : s.calls c = some (.reaped key (.remove r))) : (s.remove c key r).Inv := by
  have hgate : s.gate = some c := hs.gated c _ hc trivial
  have hkeyed : ∀ i, (Call.stopping key i r).Keyed := by
    intro i
    have h := hs.keyed c _ hc
    cases r with
    | none => trivial
    | some r => exact h
  have hnone : ∀ key i r, s.calls c ≠ some (.stopping key i r) := by
    intro _ _ _ h
    rw [hc] at h
    cases h
  unfold Registry.remove
  simp only
  split
  · next hash o i hlookup => exact hs.abort hgate hnone (hkeyed i) hlookup
  · next hlookup =>
    refine Inv.leave (s := { s with sessions := s.sessions.erase key }) (c := c) ?_ hgate _
      fun _ _ _ h => absurd h (hnone _ _ _)
    refine hs.withSessions (k := key) (fun _ => lookup_erase_ne) ?_ ?_
    · intro h o j hj
      rw [lookup_erase] at hj
      cases hj
    · intro i hr
      obtain ⟨h, o, hi⟩ := hs.running key i hr
      exact hlookup h o i hi

/-- What a start's key held when it spawns its session is over. -/
lemma Inv.tasks_abortAt (hs : s.Inv) (hlive : ∀ i, ¬s.LiveAt key i) :
    (s.abortAt key).tasks = s.tasks := by
  unfold abortAt
  split
  · next hash o i hlookup =>
    obtain ⟨t, ht, hkey, -⟩ := hs.entry key hash o i hlookup
    have hended : t.outcome ≠ none := fun h => hlive i ⟨t, ht, hkey, h⟩
    unfold Registry.updateTask
    simp only
    rw [mem_def.1 ht, map_some, Task.abort_of_ended hended, ← mem_def.1 ht, update_eq_self]
  · rfl

lemma Inv.spawnRunning (hs : s.Inv) (hc : s.calls c = some (.opening r)) :
    (s.spawnRunning c r).Inv := by
  have hgate : s.gate = some c := hs.gated c _ hc trivial
  have hlive : ∀ i, ¬s.LiveAt r.key i := hs.meant c _ hc
  have hungated : ∀ c' call, c' ≠ c → call ∈ s.calls c' → ¬call.Gated := by
    intro c' call hne hc' hg
    have hheld := hs.gated c' call hc' hg
    rw [hgate] at hheld
    injection hheld with hheld
    exact hne hheld.symm
  have hold : ∀ j, j ≠ s.spawned →
      (s.spawnRunning c r).tasks j = s.tasks j := by
    intro j hj
    unfold Registry.spawnRunning
    simp only
    rw [hs.tasks_abortAt hlive, Function.update_of_ne hj]
  have hnew : (s.spawnRunning c r).tasks s.spawned =
      some ⟨r.key, ⟨none, none, none⟩, .running⟩ := Function.update_self _ _ _
  have hlookup : (s.spawnRunning c r).sessions =
      s.sessions.insert r.key (.running r.wanted (some r.requester) s.spawned) := rfl
  have hcalls : ∀ c' call, call ∈ (s.spawnRunning c r).calls c' →
      call = .reap r.key (.settle polls) ∨ c' ≠ c ∧ call ∈ s.calls c' := by
    intro c' call h
    exact (mem_setCall (s := s) (c := c) (k := .reap r.key (.settle polls)) h).imp
      (fun h => h.2) id
  constructor
  · intro j hj
    show j < s.spawned + 1
    by_cases hspawned : j = s.spawned
    · omega
    · rw [hold j hspawned] at hj
      exact Nat.lt_succ_of_lt (hs.spawned j hj)
  · intro k h o j hj
    rw [hlookup] at hj
    by_cases hk : k = r.key
    · rw [hk, Finmap.lookup_insert] at hj
      injection hj with hj
      injection hj with _ _ hj
      rw [← hj, hk]
      exact ⟨_, hnew, rfl, Phase.noConfusion⟩
    · rw [Finmap.lookup_insert_of_ne _ hk] at hj
      obtain ⟨t, ht, hkey, hphase⟩ := hs.entry k h o j hj
      have hne : j ≠ s.spawned := Nat.ne_of_lt (hs.spawned j (Option.ne_none_iff_exists'.2 ⟨t, ht⟩))
      exact ⟨t, (hold j hne).trans ht, hkey, hphase⟩
  · rintro k j ⟨t, ht, rfl, hrunning⟩
    rw [hlookup]
    by_cases hj : j = s.spawned
    · rw [hj, Option.mem_def, hnew] at ht
      injection ht with ht
      rw [← ht, hj]
      exact ⟨_, _, Finmap.lookup_insert _⟩
    · rw [hold j hj] at ht
      have hr : s.RunningAt t.key j := ⟨t, ht, rfl, hrunning⟩
      have hk : t.key ≠ r.key := fun hk => hlive j (hk ▸ hr.live)
      obtain ⟨h, o, hj⟩ := hs.running t.key j hr
      exact ⟨h, o, (Finmap.lookup_insert_of_ne _ hk).trans hj⟩
  · intro j t ht haborting
    by_cases hj : j = s.spawned
    · rw [hj, Option.mem_def, hnew] at ht
      injection ht with ht
      rw [← ht] at haborting
      cases haborting
    · rw [hold j hj] at ht
      obtain ⟨c', r', hc'⟩ := hs.aborting j t ht haborting
      have hne : c' ≠ c := by
        rintro rfl
        rw [hc] at hc'
        cases hc'
      exact absurd trivial (hungated c' _ hne hc')
  · intro c' call h hg
    obtain rfl | ⟨hne, h⟩ := hcalls c' call h
    · exact hg.elim
    · exact absurd hg (hungated c' call hne h)
  · intro c' call h
    obtain rfl | ⟨-, h⟩ := hcalls c' call h
    · trivial
    · exact hs.keyed c' call h
  · intro c' call h
    obtain rfl | ⟨hne, h⟩ := hcalls c' call h
    · trivial
    · exact meant_of_not_gated (hungated c' call hne h)
  · intro j t ht
    by_cases hj : j = s.spawned
    · rw [hj, Option.mem_def, hnew] at ht
      injection ht with ht
      rw [← ht]
      exact fun _ => ⟨nofun, nofun⟩
    · rw [hold j hj] at ht
      exact hs.telling j t ht

end Registry
end LibrePaper.Assistant
