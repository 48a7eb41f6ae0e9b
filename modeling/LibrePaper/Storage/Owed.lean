import LibrePaper.Storage.Worker

/-!
# Where owed work is

A task that is owed sits in a queue, waits for a deadline, or was turned away and is left to
a scan of durable state that begins later. Most steps of the worker carry all three along.
-/
namespace LibrePaper.Storage
open List Function

def Phase.inHand : Phase → Option Task
  | .popped task => some task
  | .checking document => some (.delete document)
  | _ => none

namespace World

/-- The task is queued, or it has a deadline that `due` hands out. -/
def Held (w : World) (task : Task) : Prop :=
  task ∈ w.channel ∨ task ∈ w.localQueue ∨ w.phase.inHand = some task ∨ w.deadlines.Armed task

/-- A scan of all of durable state has yet to begin. -/
def RescanOwed (w : World) : Prop :=
  w.rescan = true ∨ 0 < w.refusing ∨ w.deadlines.refusal.isSome = true ∨ w.Held (.scan {})

/-- The task is queued, waits, or is being run. -/
def Carried (w : World) (task : Task) : Prop := w.Held task ∨ w.phase = .running task

end World

/-- A scan that resumes at the cursor has yet to come upon the task. -/
def Ahead (c : PendingWorkCursor) : Task → Prop
  | .compact document => ∃ after, c.compaction = some after ∧ after < document
  | .delete document => ∃ after, c.deleting = some after ∧ after < document
  | .archive label => ∃ after, c.archives = some after ∧ after < label
  | .eraseAccount account _ => ∃ after, c.erasing = some after ∧ after < account
  | .sweepSupersededBases => True
  | _ => False

namespace World

/-- A pass over durable state that began at the moment `m` or later will come upon the task. -/
def OnPass (w : World) (m : ℕ) (task : Task) : Prop :=
  ∃ p ∈ w.passes, m ≤ p.2 ∧ w.Carried (.scan p.1) ∧ Ahead p.1 task

/-- The task was turned away, and a fresh scan that begins after that moment finds it. -/
def LeftToScan (w : World) (task : Task) : Prop :=
  ∃ m, w.refusedAt task = some m ∧ (w.RescanOwed ∨ w.OnPass m task)

/-- The work of the task has not been lost. -/
def Placed (w : World) (task : Task) : Prop :=
  w.Held task ∨ w.Held (finder task) ∨ w.LeftToScan task

/-- What is queued, owed to a rescan or on a pass in one world still is in the other. -/
structure Carries (w w' : World) : Prop where
  held : ∀ task, w.Held task → w'.Held task
  rescan : w.RescanOwed → w'.RescanOwed
  pass : ∀ p ∈ w.passes, w.Carried (.scan p.1) →
    p ∈ w'.passes ∧ w'.Carried (.scan p.1) ∨ w'.RescanOwed
  refused : ∀ task, w'.refusedAt task = w.refusedAt task ∨
    w'.refusedAt task = some w.moment ∧ w'.RescanOwed
  moment : w'.moment = w.moment

variable {w w' w'' : World} {task : Task}

lemma held_of (hchannel : ∀ t ∈ w.channel, t ∈ w'.channel)
    (hlocal : ∀ t ∈ w.localQueue, t ∈ w'.localQueue)
    (hhand : ∀ t, w.phase.inHand = some t → w'.Held t)
    (harmed : ∀ t, w.deadlines.Armed t → w'.Held t) (t : Task) (h : w.Held t) : w'.Held t := by
  rcases h with h | h | h | h
  · exact .inl (hchannel t h)
  · exact .inr (.inl (hlocal t h))
  · exact hhand t h
  · exact harmed t h

lemma held_armed (h : w.deadlines.Armed task) : w.Held task := .inr (.inr (.inr h))

lemma held_local (h : task ∈ w.localQueue) : w.Held task := .inr (.inl h)

lemma held_hand (h : w.phase.inHand = some task) : w.Held task := .inr (.inr (.inl h))

lemma rescanOwed_bit (h : w.rescan = true) : w.RescanOwed := .inl h

lemma rescanOwed_refusing (h : 0 < w.refusing) : w.RescanOwed := .inr (.inl h)

lemma rescanOwed_refusal (h : w.deadlines.refusal.isSome = true) : w.RescanOwed :=
  .inr (.inr (.inl h))

lemma rescanOwed_held (h : w.Held (.scan {})) : w.RescanOwed := .inr (.inr (.inr h))

namespace Carries

lemma refl (w : World) : Carries w w :=
  ⟨fun _ h => h, id, fun _ hp h => .inl ⟨hp, h⟩, fun _ => .inl rfl, rfl⟩

lemma trans (h : Carries w w') (h' : Carries w' w'') : Carries w w'' where
  held task hw := h'.held task (h.held task hw)
  rescan hw := h'.rescan (h.rescan hw)
  pass p hp hw := by
    rcases h.pass p hp hw with ⟨hp', hw'⟩ | hres
    · exact h'.pass p hp' hw'
    · exact .inr (h'.rescan hres)
  refused task := by
    rcases h'.refused task with h2 | ⟨h2, hres⟩
    · rcases h.refused task with h1 | ⟨h1, hres⟩
      · exact .inl (h2.trans h1)
      · exact .inr ⟨h2.trans h1, h'.rescan hres⟩
    · exact .inr ⟨h2.trans (congrArg some h.moment), hres⟩
  moment := h'.moment.trans h.moment

/-- The passes are not touched. -/
lemma of (held : ∀ t, w.Held t → w'.Held t)
    (bit : w.rescan = true → w'.RescanOwed) (refusing : 0 < w.refusing → w'.RescanOwed)
    (refusal : w.deadlines.refusal.isSome = true → w'.RescanOwed)
    (passes : w'.passes = w.passes)
    (running : ∀ c, w.phase = .running (.scan c) → w'.Carried (.scan c) ∨ w'.RescanOwed)
    (refused : ∀ t, w'.refusedAt t = w.refusedAt t ∨ w'.refusedAt t = some w.moment ∧ w'.RescanOwed)
    (moment : w'.moment = w.moment) : Carries w w' where
  held := held
  rescan h := by
    rcases h with h | h | h | h
    · exact bit h
    · exact refusing h
    · exact refusal h
    · exact rescanOwed_held (held _ h)
  pass p hp h := by
    rw [passes]
    rcases h with h | h
    · exact .inl ⟨hp, .inl (held _ h)⟩
    · rcases running p.1 h with hc | hres
      · exact .inl ⟨hp, hc⟩
      · exact .inr hres
  refused := refused
  moment := moment

end Carries

/-- Placed work stays placed. -/
lemma Placed.carry (h : w.Placed task) (hc : Carries w w') : w'.Placed task := by
  rcases h with h | h | ⟨m, hm, h⟩
  · exact .inl (hc.held _ h)
  · exact .inr (.inl (hc.held _ h))
  · right; right
    rcases hc.refused task with heq | ⟨heq, hres⟩
    · refine ⟨m, heq.trans hm, ?_⟩
      rcases h with h | ⟨p, hp, hle, hcar, hahead⟩
      · exact .inl (hc.rescan h)
      · rcases hc.pass p hp hcar with ⟨hp', hcar'⟩ | hres
        · exact .inr ⟨p, hp', hle, hcar', hahead⟩
        · exact .inl hres
    · exact ⟨w.moment, heq, .inl hres⟩

/-- A world that differs in nothing that places work. -/
lemma Carries.of_same (hchannel : w'.channel = w.channel) (hlocal : w'.localQueue = w.localQueue)
    (hphase : w'.phase = w.phase) (hdeadlines : w'.deadlines = w.deadlines)
    (hbit : w'.rescan = w.rescan) (hrefusing : w'.refusing = w.refusing)
    (hpasses : w'.passes = w.passes) (hrefused : w'.refusedAt = w.refusedAt)
    (hmoment : w'.moment = w.moment) : Carries w w' := by
  refine Carries.of ?_ ?_ ?_ ?_ hpasses ?_ ?_ hmoment
  · intro t h
    unfold Held at h ⊢
    rw [hchannel, hlocal, hphase, hdeadlines]
    exact h
  · intro h
    exact rescanOwed_bit (hbit.trans h)
  · intro h
    exact rescanOwed_refusing (by rw [hrefusing]; exact h)
  · intro h
    exact rescanOwed_refusal (by rw [hdeadlines]; exact h)
  · intro c h
    exact .inl (.inr (hphase.trans h))
  · intro t
    exact .inl (congrFun hrefused t)

lemma carries_owe : Carries w (w.owe task) := Carries.of_same rfl rfl rfl rfl rfl rfl rfl rfl rfl

lemma turnAway_refusedAt (t : Task) : (w.turnAway task).refusedAt t = w.refusedAt t ∨
    (w.turnAway task).refusedAt t = some w.moment := by
  unfold turnAway
  by_cases h : t = task
  · right
    rw [h]
    exact update_self _ _ _
  · left
    exact update_of_ne h _ _

lemma refusedAt_turnAway : (w.turnAway task).refusedAt task = some w.moment := update_self _ _ _

lemma carries_ask : Carries w (w.ask task) := by
  unfold ask
  split
  · refine @Carries.trans _ { w with channel := w.channel ++ [task] } _ ?_ carries_owe
    refine Carries.of ?_ (fun h => rescanOwed_bit h) (fun h => rescanOwed_refusing h)
      (fun h => rescanOwed_refusal h) rfl (fun c h => .inl (.inr h)) (fun _ => .inl rfl) rfl
    exact held_of (fun t h => mem_append_left _ h) (fun _ h => h) (fun _ h => held_hand h)
      (fun _ h => held_armed h)
  · refine Carries.trans ?_ carries_owe
    refine Carries.of (fun _ h => h) (fun h => rescanOwed_bit h)
      (fun _ => rescanOwed_refusing (Nat.succ_pos _)) (fun h => rescanOwed_refusal h) rfl
      (fun c h => .inl (.inr h)) ?_ rfl
    intro t
    rcases @turnAway_refusedAt { w with refusing := w.refusing + 1 } task t with h | h
    · exact .inl h
    · exact .inr ⟨h, rescanOwed_refusing (Nat.succ_pos _)⟩

lemma ask_placed : (w.ask task).Placed task := by
  unfold ask
  split
  · exact .inl (.inl (mem_append_right _ (mem_singleton_self _)))
  · exact .inr (.inr ⟨w.moment, update_self _ _ _,
      .inl (rescanOwed_refusing (Nat.succ_pos _))⟩)

lemma carries_flag : Carries w w.flag := by
  refine Carries.of (fun _ h => h) ?_ ?_ ?_ rfl (fun c h => .inl (.inr h)) (fun _ => .inl rfl) rfl
  all_goals exact fun _ => rescanOwed_bit rfl

/-- Only the task that a deadline was refused to is turned away. -/
lemma keep_refusedAt {d : Deadlines} (h : Deadlines.Keeps w.deadlines d) (t : Task) :
    (w.keep task d).refusedAt t = w.refusedAt t ∨
      (w.keep task d).refusedAt t = some w.moment ∧ d.refusal.isSome = true := by
  unfold keep
  by_cases hlt : w.deadlines.refused < d.refused
  · simp only [if_pos hlt]
    rcases @turnAway_refusedAt w task t with h1 | h1
    · exact .inl h1
    · exact .inr ⟨h1, h.refused hlt⟩
  · left
    simp only [if_neg hlt]

variable {d : Deadlines} {due : ℕ} {queue order : List Task} {t : Task}

/-- A map that keeps what it owed. -/
lemma carries_keep (h : Deadlines.Keeps w.deadlines d) : Carries w (w.keep task d) := by
  refine Carries.of ?_ (fun hb => rescanOwed_bit hb) (fun hr => rescanOwed_refusing hr)
    (fun hr => rescanOwed_refusal (h.refusal hr)) rfl (fun c hc => .inl (.inr hc)) ?_ rfl
  · exact held_of (fun _ hm => hm) (fun _ hm => hm) (fun _ hh => held_hand hh)
      (fun t ha => held_armed (h.armed t ha))
  · intro t
    rcases keep_refusedAt h t with h1 | ⟨h1, hr⟩
    · exact .inl h1
    · exact .inr ⟨h1, rescanOwed_refusal hr⟩

/-- A task that is put into the map waits for its deadline, or was turned away. -/
lemma keep_armed_or {d : Deadlines} (h : Deadlines.Keeps w.deadlines d)
    (hp : d.Armed task ∨ w.deadlines.refused < d.refused) :
    d.Armed task ∨ (w.keep task d).refusedAt task = some w.moment ∧ d.refusal.isSome = true := by
  by_cases hlt : w.deadlines.refused < d.refused
  · right
    refine ⟨?_, h.refused hlt⟩
    unfold keep
    simp only [if_pos hlt]
    exact refusedAt_turnAway
  · rcases hp with ha | hr
    · exact .inl ha
    · exact absurd hr hlt

lemma keep_placed (h : Deadlines.Keeps w.deadlines d)
    (hp : d.Armed task ∨ w.deadlines.refused < d.refused) : (w.keep task d).Placed task := by
  rcases keep_armed_or h hp with ha | ⟨hm, hr⟩
  · exact .inl (held_armed ha)
  · exact .inr (.inr ⟨w.moment, hm, .inl (rescanOwed_refusal hr)⟩)

lemma carries_scheduleAt : Carries w (w.scheduleAt due task) := carries_keep Deadlines.keeps_at

lemma scheduleAt_placed : (w.scheduleAt due task).Placed task :=
  keep_placed Deadlines.keeps_at Deadlines.at_placed

lemma carries_local (h : ∀ t ∈ w.localQueue, t ∈ queue) :
    Carries w { w with localQueue := queue } := by
  refine Carries.of ?_ (fun hb => rescanOwed_bit hb) (fun hr => rescanOwed_refusing hr)
    (fun hr => rescanOwed_refusal hr) rfl (fun c hc => .inl (.inr hc))
    (fun _ => .inl rfl) rfl
  exact held_of (fun _ hm => hm) h (fun _ hh => held_hand hh) (fun _ ha => held_armed ha)

lemma carries_enqueueOrphanSweep : Carries w w.enqueueOrphanSweep := by
  unfold enqueueOrphanSweep
  split
  · exact Carries.refl w
  · split
    · exact carries_keep Deadlines.keeps_at
    · exact carries_local fun _ => mem_append_left _

/-- The orphan sweep is queued or waits once it was enqueued, or its deadline was refused. -/
lemma enqueueOrphanSweep_placed : w.enqueueOrphanSweep.Held .sweepOrphans ∨
    w.enqueueOrphanSweep.deadlines.refusal.isSome = true := by
  unfold enqueueOrphanSweep
  split
  · rename_i h
    left
    rw [Bool.or_eq_true, decide_eq_true_iff] at h
    rcases h with h | h
    · exact held_local h
    · exact held_armed (Deadlines.waiting_armed h)
  · split
    · rcases @Deadlines.at_placed w.deadlines .sweepOrphans _ with h | h
      · exact .inl (held_armed h)
      · exact .inr (Deadlines.keeps_at.refused h)
    · exact .inl (held_local (mem_append_right _ (mem_singleton_self _)))

lemma carries_freshScan : Carries w w.freshScan := by
  unfold freshScan
  split
  · refine Carries.of (fun _ h => h) ?_ ?_ ?_ rfl (fun c h => .inl (.inr h))
      (fun _ => .inl rfl) rfl
    all_goals exact fun _ => rescanOwed_bit rfl
  · exact carries_local fun _ => mem_append_left _

lemma carries_enqueueDueRescan : Carries w w.enqueueDueRescan :=
  carries_enqueueOrphanSweep.trans carries_freshScan

lemma enqueueDueRescan_owed : w.enqueueDueRescan.RescanOwed := by
  unfold enqueueDueRescan freshScan
  split
  · exact rescanOwed_bit rfl
  · exact rescanOwed_held (held_local (mem_append_right _ (mem_singleton_self _)))

lemma mem_enqueue (h : t ∈ queue ∨ t = task) : t ∈ enqueue queue task := by
  unfold enqueue
  split
  · rename_i hmem
    rcases h with h | rfl
    · exact h
    · exact hmem
  · rcases h with h | rfl
    · exact mem_append_left _ h
    · exact mem_append_right _ (mem_singleton_self _)

lemma mem_foldl_enqueue (h : t ∈ queue ∨ t ∈ order) : t ∈ order.foldl enqueue queue := by
  induction order generalizing queue with
  | nil =>
    rcases h with h | h
    · exact h
    · cases h
  | cons task order ih =>
    rw [foldl_cons]
    apply ih
    rcases h with h | h
    · exact .inl (mem_enqueue (.inl h))
    · rcases mem_cons.1 h with h | h
      · exact .inl (mem_enqueue (.inr h))
      · exact .inr h

/-- Whatever `due` takes from the map goes into the local queue. -/
lemma held_fired (horder : ∀ t ∈ w.deadlines.dueTasks w.now, t ∈ order) :
    ∀ t, w.Held t →
      ({ w with
        deadlines := w.deadlines.due w.now
        localQueue := order.foldl enqueue w.localQueue } : World).Held t := by
  apply held_of
  · exact fun t h => h
  · exact fun t h => mem_foldl_enqueue (.inl h)
  · exact fun t h => held_hand h
  · intro t ha
    rcases Deadlines.due_armed ha with hd | hd
    · exact held_local (mem_foldl_enqueue (.inr (horder t hd)))
    · exact held_armed hd

lemma carries_fireDue (horder : ∀ t ∈ w.deadlines.dueTasks w.now, t ∈ order) :
    Carries w (w.fireDue order) := by
  have hheld := held_fired horder
  unfold fireDue
  split
  · have hc := carries_enqueueDueRescan (w := { w with
      deadlines := w.deadlines.due w.now
      localQueue := order.foldl enqueue w.localQueue })
    exact ⟨fun t h => hc.held t (hheld t h), fun _ => enqueueDueRescan_owed,
      fun _ _ _ => .inr enqueueDueRescan_owed, hc.refused, hc.moment⟩
  · rename_i hdue
    refine Carries.of hheld (fun hb => rescanOwed_bit hb) (fun hr => rescanOwed_refusing hr) ?_ rfl
      (fun c h => .inl (.inr h)) (fun _ => .inl rfl) rfl
    intro hr
    rcases @Deadlines.due_refusal w.deadlines w.now hr with h | h
    · exact absurd h hdue
    · exact rescanOwed_refusal h

end World
end LibrePaper.Storage
