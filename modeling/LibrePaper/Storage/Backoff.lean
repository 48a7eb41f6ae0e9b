import LibrePaper.Storage.Reached

/-!
# Backoff

What a task waits after it failed depends on its own entry in the deadline map, and no other
task changes that entry before it has come due.
-/
namespace LibrePaper.Storage
open Option Function
namespace Deadlines

variable {d d' d'' : Deadlines} {task other : Task} {due now : ℕ} {e : Entry} {own : Option Task}

lemma failures_of_lookup (h : d'.lookup other = d.lookup other) :
    d'.failures other = d.failures other := by
  unfold failures
  rw [h]

lemma failures_eq (h : d.lookup task = some e) : d.failures task = e.failures := by
  unfold failures
  rw [h]
  rfl

lemma failures_none (h : d.lookup task = none) : d.failures task = 0 := by
  unfold failures
  rw [h]
  rfl

lemma failures_set : ({ d with entries := d.entries.insert task e } : Deadlines).failures task =
    e.failures :=
  failures_eq (AList.lookup_insert _)

lemma at_of_failing (h : d.lookup task = some e) (ha : e.armed = true) (hf : 0 < e.failures) :
    d.at task due = d := by
  unfold «at»
  rw [h]
  simp only [ha, if_pos hf, if_true]

lemma failures_at : (d.at task due).failures task = d.failures task := by
  unfold «at»
  split
  · rename_i e h
    rw [failures_eq h]
    split
    · split
      · exact failures_eq h
      · exact failures_set
    · exact failures_set
  · rename_i h
    rw [failures_none h]
    by_cases hfull : d.len = DEADLINES
    · rw [insert_of_full hfull]
      exact failures_none h
    · rw [insert_of_room hfull]
      exact failures_set

lemma failures_clear : (d.clear task).failures task = 0 := by
  unfold clear
  split
  · split
    · exact failures_set
    · exact failures_none (AList.lookup_erase _ _)
  · rename_i h
    exact failures_none h

lemma failures_due_le : (d.due now).failures task ≤ d.failures task := by
  cases h : d.lookup task with
  | none =>
    have hnone : (d.due now).lookup task = none := by
      rw [lookup_due, h]
      rfl
    rw [failures_none hnone]
    exact Nat.zero_le _
  | some e =>
    rw [failures_eq h]
    unfold failures
    rw [lookup_due, h, bind_some]
    unfold fired pruned
    split
    · split
      · exact Nat.zero_le _
      · rw [bind_some]
        split
        · exact le_rfl
        · exact Nat.zero_le _
    · rw [bind_some]
      split
      · exact le_rfl
      · exact Nat.zero_le _

/-- The entry of a task that failed, unless a full map refused to hold it. -/
lemma lookup_failed : (d.failed task now).lookup task =
      some ⟨now + d.backoff task, d.failures task + 1, true⟩ ∨
    d.lookup task = none ∧ d.len = DEADLINES ∧
      d.failed task now = d.refuse (now + d.backoff task) := by
  unfold failed
  split
  · exact .inl (AList.lookup_insert _)
  · rename_i h
    by_cases hfull : d.len = DEADLINES
    · exact .inr ⟨h, hfull, insert_of_full hfull⟩
    · left
      rw [insert_of_room hfull]
      exact AList.lookup_insert _

lemma refusal_refuse_le : ∃ r, (d.refuse due).refusal = some r ∧ r ≤ due := by
  unfold refuse
  cases d.refusal with
  | none => exact ⟨due, rfl, le_rfl⟩
  | some existing => exact ⟨min existing due, rfl, min_le_right _ _⟩

lemma failures_failed_le : (d.failed task now).failures task ≤ d.failures task + 1 := by
  rcases @lookup_failed d task now with h | ⟨h, _, hrefuse⟩
  · exact (failures_eq h).le
  · rw [hrefuse, failures_none (show (d.refuse _).lookup task = none from h)]
    exact Nat.zero_le _

/-- Only the entry of the task that the worker is busy with loses a backoff or counts a
failure. -/
structure Touches (own : Option Task) (now : ℕ) (d d' : Deadlines) : Prop where
  failing : ∀ task e, own ≠ some task → d.lookup task = some e → e.armed = true →
    0 < e.failures → now < e.due → d'.lookup task = some e
  failures : ∀ task, own ≠ some task → d'.failures task ≤ d.failures task

namespace Touches

lemma refl (own : Option Task) (now : ℕ) (d : Deadlines) : Touches own now d d :=
  ⟨fun _ _ _ h _ _ _ => h, fun _ _ => le_rfl⟩

lemma trans (h : Touches own now d d') (h' : Touches own now d' d'') :
    Touches own now d d'' where
  failing task e hown hl ha hf hdue :=
    h'.failing task e hown (h.failing task e hown hl ha hf hdue) ha hf hdue
  failures task hown := (h'.failures task hown).trans (h.failures task hown)

lemma of_ne (h : ∀ other, own ≠ some other → d'.lookup other = d.lookup other) :
    Touches own now d d' where
  failing task _ hown hl _ _ _ := (h task hown).trans hl
  failures task hown := (failures_of_lookup (h task hown)).le

end Touches

lemma touches_at : Touches own now d (d.at task due) where
  failing other e _ hl ha hf _ := by
    by_cases ho : other = task
    · rw [← ho, at_of_failing hl ha hf]
      exact hl
    · rw [lookup_at_ne ho]
      exact hl
  failures other _ := by
    by_cases ho : other = task
    · rw [ho]
      exact failures_at.le
    · exact (failures_of_lookup (lookup_at_ne ho)).le

lemma touches_due : Touches own now d (d.due now) where
  failing _ _ _ hl ha _ hdue := lookup_due_of_later hl ha hdue
  failures _ _ := failures_due_le

lemma touches_clear : Touches (some task) now d (d.clear task) :=
  Touches.of_ne fun _ hown => lookup_clear_ne fun ho => hown (congrArg some ho.symm)

lemma touches_failed : Touches (some task) now d (d.failed task now) :=
  Touches.of_ne fun _ hown => lookup_failed_ne fun ho => hown (congrArg some ho.symm)

lemma touches_remove : Touches (some task) now d (d.remove task) :=
  Touches.of_ne fun _ hown => lookup_remove_ne fun ho => hown (congrArg some ho.symm)

end Deadlines

/-- The task that the worker runs or looks up. -/
def Phase.busyWith : Phase → Option Task
  | .running task => some task
  | .checking document => some (.delete document)
  | _ => none

namespace World

variable {w w' : World} {task : Task}

variable {own : Option Task} {order : List Task} {op : Op} {e : Entry} {ops : List Op}

lemma touches_enqueueOrphanSweep {now : ℕ} :
    Deadlines.Touches own now w.deadlines w.enqueueOrphanSweep.deadlines := by
  unfold enqueueOrphanSweep
  split
  · exact Deadlines.Touches.refl _ _ _
  · split
    · exact Deadlines.touches_at
    · exact Deadlines.Touches.refl _ _ _

lemma touches_fireDue : Deadlines.Touches own w.now w.deadlines (w.fireDue order).deadlines := by
  unfold fireDue
  split
  · refine Deadlines.touches_due.trans ?_
    unfold enqueueDueRescan
    rw [freshScan_deadlines]
    exact touches_enqueueOrphanSweep (w := { w with
      deadlines := w.deadlines.due w.now
      localQueue := order.foldl enqueue w.localQueue })
  · exact Deadlines.touches_due

lemma touches_noticeSuperseded {own : Option Task} {now : ℕ} {due : Option ℕ} :
    Deadlines.Touches own now w.deadlines (w.noticeSuperseded due).deadlines := by
  cases due with
  | none => exact Deadlines.Touches.refl _ _ _
  | some due => exact Deadlines.touches_at

lemma askAtStart_deadlines : (w.askAtStart task).deadlines = w.deadlines := by
  unfold askAtStart
  split
  all_goals exact ask_fields.2.1

lemma touches_finish : Deadlines.Touches (some task) w.now w.deadlines
    (w.finish task).deadlines := by
  unfold finish
  split
  · exact Deadlines.touches_clear.trans Deadlines.touches_at
  · exact Deadlines.touches_clear

/-- What one step does to the deadlines and to the bit: only the task that the worker is busy
with is affected, only a task that waits for nothing gets busy, and the bit is taken only for a
fresh scan, when no older one is on its way. -/
structure Moves (w w' : World) : Prop where
  bit : w.rescan = true → w'.rescan = true ∨
    .scan {} ∈ w'.localQueue ∧ w.localQueue.any Task.isScan = false
  now : w.now ≤ w'.now
  touches : Deadlines.Touches w.phase.busyWith w.now w.deadlines w'.deadlines
  busy : ∀ task, w'.phase.busyWith = some task → w.phase.busyWith = some task ∨
    w.deadlines.waiting task w.now = false ∨ w.deadlines.failures task = 0
  streak : ∀ task, w.phase.busyWith ≠ some task → w'.streak task = w.streak task
  own : ∀ task, w.phase.busyWith = some task →
    w'.deadlines.failures task ≤ w.deadlines.failures task ∧ w'.streak task = w.streak task ∨
    w'.deadlines.failures task = 0 ∨
    w'.deadlines.failures task ≤ w.deadlines.failures task + 1 ∧
      w'.streak task = w.streak task + 1

namespace Moves

/-- A step that no task fails or succeeds in. -/
lemma quiet (hbit : w.rescan = true → w'.rescan = true) (hnow : w.now ≤ w'.now)
    (htouches : ∀ own, Deadlines.Touches own w.now w.deadlines w'.deadlines)
    (hbusy : ∀ task, w'.phase.busyWith = some task → w.phase.busyWith = some task ∨
      w.deadlines.waiting task w.now = false ∨ w.deadlines.failures task = 0)
    (hstreak : w'.streak = w.streak) : Moves w w' where
  bit hb := .inl (hbit hb)
  now := hnow
  touches := htouches _
  busy := hbusy
  streak task _ := congrFun hstreak task
  own task _ := .inl ⟨(htouches none).failures task nofun, congrFun hstreak task⟩

lemma same (hbit : w.rescan = true → w'.rescan = true) (hnow : w.now ≤ w'.now)
    (hdeadlines : w'.deadlines = w.deadlines)
    (hbusy : ∀ task, w'.phase.busyWith = some task → w.phase.busyWith = some task ∨
      w.deadlines.waiting task w.now = false ∨ w.deadlines.failures task = 0)
    (hstreak : w'.streak = w.streak) : Moves w w' :=
  quiet hbit hnow (fun own => by rw [hdeadlines]; exact Deadlines.Touches.refl _ _ _) hbusy hstreak

end Moves

lemma ask_streak : (w.ask task).streak = w.streak ∧ (w.ask task).now = w.now := by
  unfold ask
  split
  all_goals exact ⟨rfl, rfl⟩

lemma askAtStart_streak :
    (w.askAtStart task).streak = w.streak ∧ (w.askAtStart task).now = w.now := by
  unfold askAtStart
  split
  · exact ask_streak
  · exact ask_streak

lemma askAtStart_bit (h : w.rescan = true) : (w.askAtStart task).rescan = true := by
  unfold askAtStart
  split
  · exact ask_fields.2.2.1.trans h
  · rfl

lemma run_bit (h : w.rescan = true) : (w.run task).rescan = true := by
  unfold run
  rw [h, Bool.true_or]

lemma enqueueOrphanSweep_streak :
    w.enqueueOrphanSweep.streak = w.streak ∧ w.enqueueOrphanSweep.now = w.now := by
  unfold enqueueOrphanSweep
  split
  · exact ⟨rfl, rfl⟩
  · split
    all_goals exact ⟨rfl, rfl⟩

lemma freshScan_streak : w.freshScan.streak = w.streak ∧ w.freshScan.now = w.now := by
  unfold freshScan
  split
  all_goals exact ⟨rfl, rfl⟩

lemma fireDue_streak : (w.fireDue order).streak = w.streak ∧ (w.fireDue order).now = w.now := by
  unfold fireDue
  split
  · unfold enqueueDueRescan
    rw [freshScan_streak.1, freshScan_streak.2, enqueueOrphanSweep_streak.1,
      enqueueOrphanSweep_streak.2]
    exact ⟨rfl, rfl⟩
  · exact ⟨rfl, rfl⟩

lemma noticeSuperseded_streak {due : Option ℕ} :
    (w.noticeSuperseded due).streak = w.streak ∧ (w.noticeSuperseded due).now = w.now := by
  cases due
  all_goals exact ⟨rfl, rfl⟩

lemma moves_failed (hbusy : w.phase.busyWith = some task) : Moves w (w.failed task) where
  bit hb := .inl hb
  now := le_rfl
  touches := by
    rw [hbusy]
    exact Deadlines.touches_failed
  busy t ht := by cases ht
  streak t ht := by
    have hne : t ≠ task := fun heq => ht (hbusy.trans (congrArg some heq.symm))
    exact update_of_ne hne _ _
  own t ht := by
    obtain rfl := some.inj (hbusy.symm.trans ht)
    exact .inr (.inr ⟨Deadlines.failures_failed_le, update_self _ _ _⟩)

lemma moves_finish (hphase : w.phase = .running task) : Moves w (w.finish task) := by
  have hbusy : w.phase.busyWith = some task := by
    rw [hphase]
    rfl
  have hnow : (w.finish task).now = w.now := by
    unfold finish
    split
    all_goals rfl
  have hstreak : (w.finish task).streak = update w.streak task 0 := by
    unfold finish
    split
    all_goals rfl
  have hidle : (w.finish task).phase = .settling := by
    unfold finish
    split
    all_goals rfl
  refine ⟨fun hb => .inl ?_, hnow.ge, by rw [hbusy]; exact touches_finish, ?_, ?_, ?_⟩
  · unfold finish
    split
    all_goals exact hb
  · intro t ht
    rw [hidle] at ht
    cases ht
  · intro t ht
    rw [hstreak]
    exact update_of_ne (fun heq => ht (hbusy.trans (congrArg some heq.symm))) _ _
  · intro t ht
    obtain rfl := some.inj (hbusy.symm.trans ht)
    right; left
    unfold finish
    split
    · exact Deadlines.failures_at.trans Deadlines.failures_clear
    · exact Deadlines.failures_clear

lemma moves_scanned {c : PendingWorkCursor} (hphase : w.phase = .running (.scan c)) :
    Moves w (w.scanned c) := by
  have hbusy : w.phase.busyWith = some (.scan c) := by
    rw [hphase]
    rfl
  have hmid := @noticeSuperseded_streak (w.cleared (.scan c)) (w.catalog.scan c).supersededBaseDue
  have htouches := @touches_noticeSuperseded (w.cleared (.scan c)) none w.now
    (w.catalog.scan c).supersededBaseDue
  refine ⟨fun hb => .inl (frame_noticeSuperseded.bit (w := w.cleared (.scan c)) hb), hmid.2.ge,
    ?_, ?_, ?_, ?_⟩
  · rw [hbusy]
    exact Deadlines.touches_clear.trans (touches_noticeSuperseded (w := w.cleared (.scan c)))
  · intro t ht
    rw [show (w.scanned c).phase = .settling from (frame_noticeSuperseded).phase] at ht
    cases ht
  · intro t ht
    rw [show (w.scanned c).streak = update w.streak (.scan c) 0 from hmid.1]
    exact update_of_ne (fun heq => ht (hbusy.trans (congrArg some heq.symm))) _ _
  · intro t ht
    obtain rfl := some.inj (hbusy.symm.trans ht)
    right; left
    have hle := htouches.failures (.scan c) nofun
    rw [show (w.cleared (.scan c)).deadlines.failures (.scan c) = 0 from
      Deadlines.failures_clear] at hle
    exact Nat.le_zero.1 hle

/-- Every step moves on so. -/
lemma moves_of_step (hstep : w.step op = some w') : Moves w w' := by
  have hidle : ∀ {t : Task} {p : Phase}, p.busyWith = none → p.busyWith = some t →
      w.phase.busyWith = some t ∨ w.deadlines.waiting t w.now = false ∨
        w.deadlines.failures t = 0 := by
    intro t p hp ht
    rw [hp] at ht
    cases ht
  cases op <;> dsimp only [World.step] at hstep
  case tick seconds =>
    cases hstep
    exact Moves.same id (Nat.le_add_right _ _) rfl (fun _ => .inl) rfl
  case ask task =>
    cases hstep
    obtain ⟨hphase, hdeadlines, hbit, _⟩ := @ask_fields w task
    exact Moves.same hbit.trans ask_streak.2.ge hdeadlines
      (fun t ht => .inl (by rw [hphase] at ht; exact ht)) ask_streak.1
  case flag =>
    obtain ⟨_, heq⟩ := ite_none_right_eq_some.1 hstep
    cases heq
    exact Moves.same (fun _ => rfl) le_rfl rfl (fun _ => .inl) rfl
  case change catalog =>
    cases hstep
    exact Moves.same id le_rfl rfl (fun _ => .inl) rfl
  case start =>
    split at hstep
    · cases hstep
      exact Moves.same askAtStart_bit askAtStart_streak.2.ge askAtStart_deadlines
        (fun _ => hidle rfl) askAtStart_streak.1
    · cases hstep
      exact Moves.same askAtStart_bit askAtStart_streak.2.ge askAtStart_deadlines
        (fun _ => hidle rfl) askAtStart_streak.1
    · cases hstep
  case fire order =>
    obtain ⟨_, heq⟩ := ite_none_right_eq_some.1 hstep
    cases heq
    exact Moves.quiet frame_fireDue.bit fireDue_streak.2.ge (fun own => touches_fireDue)
      (fun _ => hidle rfl) fireDue_streak.1
  case pop =>
    split at hstep
    · cases hstep
      exact Moves.same id le_rfl rfl (fun _ => hidle rfl) rfl
    · cases hstep
  case receive =>
    split at hstep
    · cases hstep
      exact Moves.same id le_rfl rfl (fun _ => hidle rfl) rfl
    · cases hstep
  case wake =>
    obtain ⟨_, heq⟩ := ite_none_right_eq_some.1 hstep
    cases heq
    exact Moves.same id le_rfl rfl (fun _ => hidle rfl) rfl
  case process =>
    split at hstep
    · rename_i task hphase
      cases hstep
      unfold World.process
      split
      · split
        · split
          · rename_i hzero
            refine Moves.same id le_rfl rfl ?_ rfl
            intro t ht
            cases ht
            exact .inr (.inr hzero)
          · exact Moves.same id le_rfl rfl (fun _ => hidle rfl) rfl
        · exact Moves.same id le_rfl rfl (fun _ => hidle rfl) rfl
      · rename_i hwaiting
        refine Moves.same run_bit le_rfl rfl ?_ rfl
        intro t ht
        cases ht
        exact .inr (.inl (Bool.eq_false_iff.2 hwaiting))
    · cases hstep
  case checked answer =>
    split at hstep
    · rename_i document hphase
      cases hstep
      exact moves_failed (by rw [hphase]; rfl)
    · rename_i document hphase
      cases hstep
      refine Moves.same run_bit le_rfl rfl ?_ rfl
      intro t ht
      cases ht
      exact .inl (by rw [hphase]; rfl)
    · cases hstep
      exact Moves.same id le_rfl rfl (fun _ => hidle rfl) rfl
    · cases hstep
  case schedule due =>
    split at hstep
    · cases hstep
      exact Moves.quiet id le_rfl (fun own => Deadlines.touches_at) (fun _ => .inl) rfl
    · cases hstep
      exact Moves.quiet id le_rfl (fun own => Deadlines.touches_at) (fun _ => .inl) rfl
    · cases hstep
  case remove =>
    split at hstep
    · rename_i document hphase
      obtain ⟨_, heq⟩ := ite_none_left_eq_some.1 hstep
      cases heq
      have hbusy : w.phase.busyWith = some (.delete document) := by
        rw [hphase]
        rfl
      refine ⟨.inl, le_rfl, by rw [hbusy]; exact Deadlines.touches_remove, fun _ => .inl,
        fun t _ => rfl, ?_⟩
      intro t ht
      obtain rfl := some.inj (hbusy.symm.trans ht)
      exact .inr (.inl (Deadlines.failures_none (AList.lookup_erase _ _)))
    · cases hstep
  case page =>
    split at hstep
    · rename_i c hphase
      cases hstep
      exact moves_scanned hphase
    · cases hstep
  case finish =>
    split at hstep
    · rename_i task hphase
      obtain ⟨_, heq⟩ := ite_none_left_eq_some.1 hstep
      cases heq
      exact moves_finish hphase
    · cases hstep
  case fail =>
    split at hstep
    · rename_i task hphase
      cases hstep
      exact moves_failed (by rw [hphase]; rfl)
    · cases hstep
  case overflow =>
    obtain ⟨_, heq⟩ := ite_none_right_eq_some.1 hstep
    cases heq
    unfold World.overflow
    split
    · exact Moves.quiet frame_enqueueOrphanSweep.bit enqueueOrphanSweep_streak.2.ge
        (fun own => touches_enqueueOrphanSweep) (fun _ => hidle rfl)
        enqueueOrphanSweep_streak.1
    · exact Moves.same id le_rfl rfl (fun _ => hidle rfl) rfl
  case takeRescan =>
    obtain ⟨_, heq⟩ := ite_none_right_eq_some.1 hstep
    cases heq
    unfold World.takeRescan
    split
    · exact Moves.same id le_rfl rfl (fun _ => hidle rfl) rfl
    · rename_i hscan
      split
      · refine ⟨fun _ => .inr ⟨List.mem_append_right _ (List.mem_singleton_self _),
          Bool.eq_false_iff.2 hscan⟩, le_rfl, Deadlines.Touches.refl _ _ _,
          fun _ => hidle rfl, fun t _ => rfl, fun t _ => .inl ⟨le_rfl, rfl⟩⟩
      · exact Moves.same id le_rfl rfl (fun _ => hidle rfl) rfl

/-- The task waits out a backoff, and the worker is not busy with it. -/
structure BackingOff (w : World) (task : Task) (e : Entry) : Prop where
  entry : w.deadlines.lookup task = some e
  armed : e.armed = true
  failed : 0 < e.failures
  idle : w.phase.busyWith ≠ some task

/-- A backoff stands through every step until it has come due. -/
lemma BackingOff.step (h : w.BackingOff task e) (hstep : w.step op = some w')
    (hdue : w'.now < e.due) : w'.BackingOff task e := by
  have hmoves := moves_of_step hstep
  have hnow : w.now < e.due := lt_of_le_of_lt hmoves.now hdue
  refine ⟨hmoves.touches.failing task e h.idle h.entry h.armed h.failed hnow, h.armed, h.failed, ?_⟩
  intro hbusy
  rcases hmoves.busy task hbusy with hb | hb | hb
  · exact h.idle hb
  · have hwaiting : w.deadlines.waiting task w.now = true := by
      unfold Deadlines.waiting
      rw [h.entry, any_some, h.armed, Bool.true_and, decide_eq_true_iff]
      exact hnow
    rw [hb] at hwaiting
    cases hwaiting
  · rw [Deadlines.failures_eq h.entry] at hb
    exact absurd hb (Nat.pos_iff_ne_zero.1 h.failed)

lemma steps_now (hsteps : w.steps ops = some w') : w.now ≤ w'.now := by
  induction ops generalizing w with
  | nil =>
    cases hsteps
    exact le_rfl
  | cons op ops ih =>
    unfold World.steps at hsteps
    obtain ⟨v, hv, hrest⟩ := bind_eq_some_iff.1 hsteps
    exact (moves_of_step hv).now.trans (ih hrest)

/-- A backoff stands through every run until it has come due. -/
lemma BackingOff.steps (h : w.BackingOff task e) (hsteps : w.steps ops = some w')
    (hdue : w'.now < e.due) : w'.BackingOff task e := by
  induction ops generalizing w with
  | nil =>
    cases hsteps
    exact h
  | cons op ops ih =>
    unfold World.steps at hsteps
    obtain ⟨v, hv, hrest⟩ := bind_eq_some_iff.1 hsteps
    exact ih (h.step hv (lt_of_le_of_lt (steps_now hrest) hdue)) hrest

/-- The map never remembers more failures of a task than it had in a row. -/
lemma failures_le_streak {catalog : Catalog} (hsteps : (World.initial catalog).steps ops = some w)
    (task : Task) : w.deadlines.failures task ≤ w.streak task := by
  have hstart : ∀ t, (World.initial catalog).deadlines.failures t ≤
      (World.initial catalog).streak t := fun t => le_rfl
  generalize World.initial catalog = v at hsteps hstart
  induction ops generalizing v with
  | nil =>
    cases hsteps
    exact hstart task
  | cons op ops ih =>
    unfold World.steps at hsteps
    obtain ⟨u, hu, hrest⟩ := bind_eq_some_iff.1 hsteps
    refine ih u hrest fun t => ?_
    have hmoves := moves_of_step hu
    by_cases hbusy : v.phase.busyWith = some t
    · rcases hmoves.own t hbusy with ⟨hle, hs⟩ | hzero | ⟨hle, hs⟩
      · rw [hs]
        exact hle.trans (hstart t)
      · rw [hzero]
        exact Nat.zero_le _
      · rw [hs]
        exact hle.trans (Nat.succ_le_succ (hstart t))
    · rw [hmoves.streak t hbusy]
      exact (hmoves.touches.failures t hbusy).trans (hstart t)

end World
end LibrePaper.Storage
