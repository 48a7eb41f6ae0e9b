import LibrePaper.Storage.Backoff

/-!
# Background work is kept

The results about the worker: what is asked for is never lost, the deadline map is bounded and
wakes the worker in time, a fresh scan is what the rescan bit is spent on, and a backoff is the
task's own. A full map keeps no count for a task that it has no entry for.
-/
namespace LibrePaper.Storage
open List Option Function
namespace World

variable {w w' : World} {task : Task}

/-- The task was asked for, scheduled or has failed, and it was not completed since; durable
state names it. -/
def Outstanding (w : World) (task : Task) : Prop := task ∈ w.owed ∨ w.phase = .running task

/-- The task is queued, waits for its deadline or is running; or so is the task under which a
scan finds its work; or it was turned away and a scan that begins later finds it. The orphan
sweep, which no scan finds, is enqueued whenever the bit or a refused deadline is consumed. -/
def Kept (w : World) (task : Task) : Prop :=
  w.Carried task ∨ w.Held (finder task) ∨ w.LeftToScan task ∨
    task = .sweepOrphans ∧ w.OrphansPlaced

lemma kept_of_reachable (hw : Reachable w) (h : w.Outstanding task) : w.Kept task := by
  have hinv := inv_of_reachable hw
  rcases h with h | h
  · by_cases ho : task = .sweepOrphans
    · exact .inr (.inr (.inr ⟨ho, hinv.orphans⟩))
    · rcases hinv.placed task h ho with hp | hp | hp
      · exact .inl (.inl hp)
      · exact .inr (.inl hp)
      · exact .inr (.inr (.inl hp))
  · exact .inl (.inr h)

/-- The step in which the work of the task fails. -/
def Op.fails : Op → Bool
  | .fail => true
  | .checked none => true
  | _ => false

/-- The wait after a failure counts the failures that the task's own entry remembers. -/
lemma backingOff_of_failed (w : World) (task : Task) :
    (w.failed task).BackingOff task
        ⟨w.now + RETRY.delay (w.deadlines.failures task + 1), w.deadlines.failures task + 1, true⟩ ∨
      w.deadlines.lookup task = none ∧ w.deadlines.len = DEADLINES ∧
        ∃ r, (w.failed task).deadlines.refusal = some r ∧
          r ≤ w.now + RETRY.delay (w.deadlines.failures task + 1) := by
  rcases @Deadlines.lookup_failed w.deadlines task w.now with
    h | ⟨hnone, hfull, hrefuse⟩
  · exact .inl ⟨h, rfl, Nat.succ_pos _, nofun⟩
  · refine .inr ⟨hnone, hfull, ?_⟩
    rw [show (w.failed task).deadlines = w.deadlines.failed task w.now from rfl, hrefuse]
    exact Deadlines.refusal_refuse_le

lemma failed_of_step {op : Op} (hop : Op.fails op = true) (hbusy : w.phase.busyWith = some task)
    (hstep : w.step op = some w') : w' = w.failed task := by
  cases op with
  | fail =>
    unfold World.step at hstep
    dsimp only at hstep
    split at hstep
    · rename_i other hphase
      rw [hphase] at hbusy
      cases hbusy
      exact (some.inj hstep).symm
    · cases hstep
  | checked answer =>
    cases answer with
    | none =>
      unfold World.step at hstep
      dsimp only at hstep
      split at hstep
      · rename_i document hphase hanswer
        rw [hphase] at hbusy
        cases hbusy
        exact (some.inj hstep).symm
      · rename_i hanswer
        cases hanswer
      · rename_i hanswer
        cases hanswer
      · cases hstep
    | some answer => cases hop
  | _ => cases hop

end World

open World in
/-- Background work is never lost. -/
theorem background_work_kept {w : World} (hw : Reachable w) :
    (∀ task, w.Outstanding task → w.Kept task) ∧
    (∀ task e, w.deadlines.lookup task = some e → e.armed = true →
      (∀ now, e.due ≤ now → task ∈ w.deadlines.dueTasks now) ∧
      ∃ next, w.deadlines.next = some next ∧ next ≤ e.due) ∧
    (∀ r, w.deadlines.refusal = some r → ∃ next, w.deadlines.next = some next ∧ next ≤ r) ∧
    w.deadlines.len ≤ DEADLINES ∧
    (∀ op w', w.step op = some w' → w.rescan = true → w'.rescan = false →
      .scan {} ∈ w'.localQueue ∧ w.localQueue.any Task.isScan = false) ∧
    (∀ task op w', w.phase.busyWith = some task → Op.fails op = true → w.step op = some w' →
      w'.BackingOff task
        ⟨w.now + RETRY.delay (w.deadlines.failures task + 1), w.deadlines.failures task + 1, true⟩ ∨
      w.deadlines.lookup task = none ∧ w.deadlines.len = DEADLINES ∧
        ∃ r, w'.deadlines.refusal = some r ∧
          r ≤ w.now + RETRY.delay (w.deadlines.failures task + 1)) ∧
    (∀ task, w.deadlines.failures task ≤ w.streak task) ∧
    (∀ task e, w.BackingOff task e → ∀ ops w', w.steps ops = some w' → w'.now < e.due →
      w'.BackingOff task e) := by
  refine ⟨fun _ => kept_of_reachable hw, ?_, ?_, (inv_of_reachable hw).bound, ?_, ?_, ?_,
    fun _ _ h _ _ hsteps => h.steps hsteps⟩
  · intro task e hl ha
    exact ⟨fun now hnow => Deadlines.mem_dueTasks.2 ⟨e, hl, ha, hnow⟩, Deadlines.next_le_due hl ha⟩
  · exact fun _ => Deadlines.next_le_refusal
  · intro op w' hstep hbit hbit'
    rcases (moves_of_step hstep).bit hbit with hb | hb
    · rw [hb] at hbit'
      cases hbit'
    · exact hb
  · intro task op w' hbusy hop hstep
    rw [failed_of_step hop hbusy hstep]
    exact backingOff_of_failed w task
  · intro task
    obtain ⟨catalog, ops, hops⟩ := hw
    exact failures_le_streak hops task

def noIds : Ids := ⟨[], List.Pairwise.nil, nofun⟩

/-- One label waits for its archive. -/
def oneArchive : Catalog where
  compaction := noIds
  deleting := noIds
  archives := ⟨[1], List.pairwise_singleton _ _, by decide⟩
  erasing := noIds
  supersededBaseDue := none

/-- A worker that was started over an empty catalogue and has looked at all of it, and a label
that asks for its archive. -/
def bootOps : List Op :=
  [.start, .start, .fire [], .receive, .process, .page, .overflow, .takeRescan, .fire [], .pop,
    .process, .page, .overflow, .takeRescan, .fire [], .receive, .process, .finish, .overflow,
    .takeRescan, .fire [], .pop, .process, .page, .overflow, .takeRescan, .change oneArchive]

def nothing : Catalog := ⟨noIds, noIds, noIds, noIds, none⟩

/-- The label is asked for, and its archive fails. -/
def failingOps : List Op := bootOps ++ [.ask (.archive 1), .fire [], .receive, .process, .fail]

lemma failing_runs : ((World.initial nothing).steps failingOps).isSome = true := by decide

def failing : World := ((World.initial nothing).steps failingOps).get failing_runs

/-- The archive that failed waits for its first backoff, and is not lost. -/
theorem background_work_kept_failing : Reachable failing ∧ failing.Outstanding (.archive 1) ∧
    failing.Kept (.archive 1) ∧ failing.deadlines.len ≤ DEADLINES := by
  have hreach : Reachable failing := ⟨nothing, failingOps, by unfold failing; rw [some_get]⟩
  have hout : failing.Outstanding (.archive 1) := .inl (by decide)
  exact ⟨hreach, hout, (background_work_kept hreach).1 _ hout,
    (background_work_kept hreach).2.2.2.1⟩

/-- A document in the trash is asked for, and waits for the end of its grace period. -/
def graceOps (document : ℕ) : List Op :=
  [.ask (.delete document), .fire [], .receive, .process, .schedule 604800, .finish, .overflow,
    .takeRescan]

namespace World

/-- The worker has nothing to do, and the map holds `n` deadlines, all of them later. -/
structure Calm (w : World) (n : ℕ) : Prop where
  phase : w.phase = .top
  now : w.now = 0
  channel : w.channel = []
  localQueue : w.localQueue = []
  bit : w.rescan = false
  refusal : w.deadlines.rescanDue 0 = false
  len : w.deadlines.len = n
  later : ∀ e ∈ w.deadlines.entries.entries, e.2.armed = true ∧ 0 < e.2.due
  fresh : ∀ document, n ≤ document → w.deadlines.lookup (.delete document) = none
  archive : w.deadlines.lookup (.archive 1) = none

variable {w w' : World} {task : Task} {n : ℕ}

lemma retained_self {f : Task → Entry → Option Entry} {l : List (Sigma fun _ : Task => Entry)}
    (h : ∀ e ∈ l, f e.1 e.2 = some e.2) : Library.retained f l = l := by
  induction l with
  | nil => rfl
  | cons e l ih =>
    unfold Library.retained at ih ⊢
    rw [filterMap_cons_some (by rw [h e mem_cons_self]; rfl),
      ih fun e' he' => h e' (mem_cons_of_mem e he')]

/-- Nothing is handed out before it is due. -/
lemma Calm.due (h : w.Calm n) : w.deadlines.due w.now = w.deadlines ∧
    w.deadlines.dueTasks w.now = [] ∧ w.deadlines.rescanDue w.now = false := by
  have hfired : ∀ e ∈ w.deadlines.entries.entries,
      Deadlines.fired w.now e.1 e.2 = some e.2 := by
    intro e he
    unfold Deadlines.fired
    rw [if_neg]
    rw [Bool.and_eq_true, decide_eq_true_iff, h.now, not_and]
    intro _
    have := (h.later e he).2
    omega
  have hpruned : ∀ e ∈ w.deadlines.entries.entries,
      Deadlines.pruned w.now e.1 e.2 = some e.2 := by
    intro e he
    unfold Deadlines.pruned
    rw [if_pos]
    rw [(h.later e he).1]
    rfl
  have hrescan : w.deadlines.rescanDue w.now = false := by
    rw [h.now]
    exact h.refusal
  refine ⟨?_, ?_, hrescan⟩
  · have h1 : Library.retain (Deadlines.fired w.now) w.deadlines.entries = w.deadlines.entries :=
      AList.ext (retained_self hfired)
    have h2 : Library.retain (Deadlines.pruned w.now) w.deadlines.entries = w.deadlines.entries :=
      AList.ext (retained_self hpruned)
    unfold Deadlines.due
    rw [h1, h2, hrescan]
    rfl
  · unfold Deadlines.dueTasks
    rw [map_eq_nil_iff, filter_eq_nil_iff]
    intro e he
    rw [Bool.and_eq_true, decide_eq_true_iff, h.now, not_and]
    intro _
    have := (h.later e he).2
    omega

variable {ops : List Op} {v : World}

lemma steps_cons {op : Op} (hstep : w.step op = some v) (hsteps : v.steps ops = some w') :
    w.steps (op :: ops) = some w' := by
  unfold World.steps
  rw [hstep]
  exact hsteps

lemma steps_append {more : List Op} (hsteps : w.steps ops = some v)
    (hmore : v.steps more = some w') : w.steps (ops ++ more) = some w' := by
  induction ops generalizing w with
  | nil =>
    cases hsteps
    exact hmore
  | cons op ops ih =>
    unfold World.steps at hsteps
    obtain ⟨u, hu, hrest⟩ := bind_eq_some_iff.1 hsteps
    exact steps_cons hu (ih hrest)

/-- What is asked for of an idle worker is run at once. -/
lemma Calm.begins (h : w.Calm n) (hnone : w.deadlines.lookup task = none)
    (horphans : task ≠ .sweepOrphans) :
    ∃ v, w.steps [.ask task, .fire [], .receive, .process] = some v ∧ v.phase = .running task ∧
      v.now = 0 ∧ v.channel = [] ∧ v.localQueue = [] ∧ v.rescan = false ∧
      v.deadlines = w.deadlines ∧ v.streak = w.streak := by
  obtain ⟨hdue, htasks, hrescan⟩ := h.due
  have hask : w.ask task = ({ w with channel := [task] }).owe task := by
    unfold ask
    rw [if_pos (by rw [h.channel]; decide), h.channel]
    rfl
  have hfire : (w.ask task).step (.fire []) = some { w.ask task with phase := .select } := by
    rw [hask]
    simp [World.step, World.fireDue, owe, h.phase, hdue, htasks, hrescan, isPerm_iff]
  have hreceive : ({ w.ask task with phase := .select } : World).step .receive =
      some { w.ask task with phase := .popped task, channel := [] } := by
    rw [hask]
    simp [World.step, owe, h.localQueue]
  have hprocess : ({ w.ask task with phase := .popped task, channel := [] } : World).step .process =
      some (({ w.ask task with phase := .popped task, channel := [] } : World).run task) := by
    rw [hask]
    simp [World.step, World.process, owe, Deadlines.waiting, hnone]
  refine ⟨({ w.ask task with phase := .popped task, channel := [] } : World).run task, ?_, rfl, ?_⟩
  · exact steps_cons rfl (steps_cons hfire (steps_cons hreceive (steps_cons hprocess rfl)))
  · rw [hask]
    refine ⟨h.now, rfl, h.localQueue, ?_, rfl, rfl⟩
    simp [World.run, owe, h.bit, horphans]

/-- The worker goes back to its loop when nothing else is owed. -/
lemma settle (hphase : v.phase = .settling) (hlocal : v.localQueue = []) (hbit : v.rescan = false) :
    v.steps [.overflow, .takeRescan] = some { v with phase := .top } := by
  have hoverflow : v.step .overflow = some { v with phase := .settled } := by
    simp [World.step, World.overflow, hphase, hbit]
  have htake : ({ v with phase := .settled } : World).step .takeRescan =
      some { v with phase := .top } := by
    simp [World.step, World.takeRescan, hlocal, hbit]
  exact steps_cons hoverflow (steps_cons htake rfl)

/-- One more deletion waits for the end of its grace period. -/
lemma Calm.grace (h : w.Calm n) (hroom : n < DEADLINES) :
    ∃ v, w.steps (graceOps n) = some v ∧ v.Calm (n + 1) ∧
      v.streak (.archive 1) = w.streak (.archive 1) := by
  obtain ⟨v, hsteps, hphase, hnow, hchannel, hlocal, hbit, hdeadlines, hstreak⟩ :=
    @Calm.begins _ (.delete n) _ h (h.fresh n le_rfl) (fun heq => by cases heq)
  have hnone : v.deadlines.lookup (.delete n) = none := by
    rw [hdeadlines]
    exact h.fresh n le_rfl
  have hlen : v.deadlines.len ≠ DEADLINES := by
    rw [hdeadlines, h.len]
    omega
  let e : Entry := ⟨604800, 0, true⟩
  let d : Deadlines := { v.deadlines with entries := v.deadlines.entries.insert (.delete n) e }
  have hat : v.deadlines.at (.delete n) (v.now + (604800 - v.now)) = d := by
    unfold Deadlines.at
    rw [hnone, hnow]
    exact Deadlines.insert_of_room hlen
  have hclear : d.clear (.delete n) = d := by
    have hl : d.lookup (.delete n) = some e := AList.lookup_insert _
    unfold Deadlines.clear
    rw [hl]
    simp only [e, d, if_true, AList.insert_insert]
  let u := (v.scheduleAt 604800 (.delete n)).owe (.delete n)
  have hud : u.deadlines = d := hat
  have hschedule : v.step (.schedule 604800) = some u := by
    unfold World.step
    dsimp only
    rw [hphase]
  have hfinish : u.step .finish = some (u.cleared (.delete n)) := by
    have hp : u.phase = .running (.delete n) := hphase
    unfold World.step
    dsimp only
    rw [hp]
    rfl
  have hcd : (u.cleared (.delete n)).deadlines = d := by
    change u.deadlines.clear (.delete n) = d
    rw [hud, hclear]
  have hentries : d.entries.entries = ⟨.delete n, e⟩ :: w.deadlines.entries.entries := by
    rw [← hdeadlines]
    exact AList.entries_insert_of_notMem (AList.lookup_eq_none.1 hnone)
  refine ⟨{ u.cleared (.delete n) with phase := .top }, ?_, ?_, ?_⟩
  · exact steps_append hsteps (steps_cons hschedule (steps_cons hfinish
      (settle rfl hlocal hbit)))
  · refine ⟨rfl, hnow, hchannel, hlocal, hbit, ?_, ?_, ?_, ?_, ?_⟩
    all_goals dsimp only
    all_goals rw [hcd]
    · change v.deadlines.rescanDue 0 = false
      rw [hdeadlines]
      exact h.refusal
    · change d.entries.entries.length = n + 1
      rw [hentries, length_cons]
      exact congrArg (· + 1) h.len
    · intro f hf
      rw [hentries] at hf
      rcases mem_cons.1 hf with rfl | hf
      · exact ⟨rfl, Nat.succ_pos 604799⟩
      · exact h.later f hf
    · intro document hd
      have hne : Task.delete document ≠ .delete n := by
        intro heq
        injection heq with heq
        omega
      have hold := h.fresh document (by omega)
      rw [← hdeadlines] at hold
      exact (AList.lookup_insert_ne hne).trans hold
    · have hold := h.archive
      rw [← hdeadlines] at hold
      exact (AList.lookup_insert_ne (fun heq => by cases heq)).trans hold
  · have hne : Task.archive 1 ≠ .delete n := fun heq => by cases heq
    change update v.streak (.delete n) 0 (.archive 1) = _
    rw [update_of_ne hne, hstreak]

lemma boot_runs : ((World.initial nothing).steps bootOps).isSome = true := by decide

def booted : World := ((World.initial nothing).steps bootOps).get boot_runs

lemma booted_keys : booted.deadlines.entries.keys = [.sweepOrphans] := by decide

lemma booted_lookup (h : task ≠ .sweepOrphans) : booted.deadlines.lookup task = none := by
  refine AList.lookup_eq_none.2 fun hmem => ?_
  have hkeys : task ∈ booted.deadlines.entries.keys := hmem
  rw [booted_keys] at hkeys
  exact h (mem_singleton.1 hkeys)

lemma booted_calm : booted.Calm 1 where
  phase := by decide
  now := by decide
  channel := by decide
  localQueue := by decide
  bit := by decide
  refusal := by decide
  len := by decide
  later := by decide
  fresh document _ := by exact booted_lookup fun heq => by cases heq
  archive := booted_lookup fun heq => by cases heq

lemma booted_steps : (World.initial nothing).steps bootOps = some booted := by
  unfold booted
  rw [some_get]

/-- The trash fills the map. -/
lemma filled (n : ℕ) (hn : n < DEADLINES) : ∃ ops w, (World.initial nothing).steps ops = some w ∧
    w.Calm (n + 1) ∧ w.streak (.archive 1) = 0 := by
  induction n with
  | zero => exact ⟨bootOps, booted, booted_steps, booted_calm, by decide⟩
  | succ n ih =>
    obtain ⟨ops, w, hops, hcalm, hstreak⟩ := ih (by omega)
    obtain ⟨v, hv, hcalm', hs⟩ := hcalm.grace hn
    exact ⟨ops ++ graceOps (n + 1), v, steps_append hops hv, hcalm', hs.trans hstreak⟩

/-- A full map keeps nothing of a failure. -/
lemma Calm.refuses (h : w.Calm DEADLINES) :
    ∃ ops v, w.steps ops = some v ∧ v.Calm DEADLINES ∧
      v.streak (.archive 1) = w.streak (.archive 1) + 1 := by
  obtain ⟨v, hsteps, hphase, hnow, hchannel, hlocal, hbit, hdeadlines, hstreak⟩ :=
    @Calm.begins _ (.archive 1) _ h h.archive nofun
  have hnone : v.deadlines.lookup (.archive 1) = none := by
    rw [hdeadlines]
    exact h.archive
  have hfull : v.deadlines.len = DEADLINES := by
    rw [hdeadlines]
    exact h.len
  have hfailed : v.deadlines.failed (.archive 1) v.now = w.deadlines.refuse 60 := by
    unfold Deadlines.failed Deadlines.backoff
    rw [Deadlines.failures_none hnone, hnone, hnow]
    dsimp only
    rw [Deadlines.insert_of_full hfull, hdeadlines]
    rfl
  have hfail : v.step .fail = some (v.failed (.archive 1)) := by
    unfold World.step
    dsimp only
    rw [hphase]
  have hfd : (v.failed (.archive 1)).deadlines = w.deadlines.refuse 60 := hfailed
  refine ⟨_, { v.failed (.archive 1) with phase := .top }, steps_append hsteps
    (steps_cons hfail (settle rfl hlocal hbit)), ?_, ?_⟩
  · refine ⟨rfl, hnow, hchannel, hlocal, hbit, ?_, ?_, ?_, ?_, ?_⟩
    all_goals dsimp only
    all_goals rw [hfd]
    · have hold := h.refusal
      unfold Deadlines.rescanDue at hold ⊢
      unfold Deadlines.refuse
      cases href : w.deadlines.refusal with
      | none => rfl
      | some r =>
        rw [href, any_some, decide_eq_false_iff_not] at hold
        dsimp only
        rw [any_some, decide_eq_false_iff_not]
        omega
    · exact h.len
    · exact h.later
    · exact h.fresh
    · exact h.archive
  · change update v.streak (.archive 1) (v.streak (.archive 1) + 1) (.archive 1) = _
    rw [update_self, hstreak]

end World

open World in
/-- The map is full of deletions that wait for their grace, an archive fails twice in a row, and
its second wait is the first one over again. -/
theorem full_map_forgets : ∃ w, Reachable w ∧ w.phase = .running (.archive 1) ∧
    w.streak (.archive 1) = 1 ∧ w.deadlines.backoff (.archive 1) = 60 ∧
    RETRY.delay (w.streak (.archive 1) + 1) = 120 := by
  obtain ⟨ops, u, hops, hcalm, hzero⟩ := filled 1023 (by decide)
  obtain ⟨more, v, hmore, hcalm', hone⟩ := hcalm.refuses
  obtain ⟨w, hw, hphase, _, _, _, _, hdeadlines, hstreak⟩ :=
    @Calm.begins _ (.archive 1) _ hcalm' hcalm'.archive nofun
  have hs : w.streak (.archive 1) = 1 := by rw [hstreak, hone, hzero]
  refine ⟨w, ⟨nothing, _, steps_append (steps_append hops hmore) hw⟩, hphase, hs, ?_, ?_⟩
  · unfold Deadlines.backoff
    rw [hdeadlines, Deadlines.failures_none hcalm'.archive]
    decide
  · rw [hs]
    decide

end LibrePaper.Storage
