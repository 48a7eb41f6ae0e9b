import LibrePaper.Storage.Pages

/-!
# Every world that a run reaches

Work that was asked for is placed in every reachable world. Each step either carries the
places along, or begins a task, or reads a page of the scan.
-/
namespace LibrePaper.Storage
open List Option
namespace World

/-- The orphan sweep is never forgotten: no scan finds it, but the bit and a refused deadline
enqueue it before they are consumed. -/
def OrphansPlaced (w : World) : Prop :=
  w.phase = .boot ∨ w.phase = .booting ∨ w.Carried .sweepOrphans ∨
    w.deadlines.refusal.isSome = true ∨ w.rescan = true ∧ w.phase ≠ .settled

/-- What every reachable world satisfies. -/
structure Inv (w : World) : Prop where
  placed : ∀ task ∈ w.owed, task ≠ .sweepOrphans → w.Placed task
  named : ∀ task ∈ w.owed, w.catalog.names task = true
  orphans : w.OrphansPlaced
  moments : ∀ task m, w.refusedAt task = some m → m ≤ w.moment
  bound : w.deadlines.len ≤ DEADLINES
  checking : ∀ document, w.phase = .checking document → w.deadlines.Armed (.delete document)

/-- What the helpers leave alone. -/
structure Frame (w w' : World) : Prop where
  catalog : w'.catalog = w.catalog
  owed : w'.owed = w.owed
  phase : w'.phase = w.phase
  bit : w.rescan = true → w'.rescan = true
  bound : w.deadlines.len ≤ DEADLINES → w'.deadlines.len ≤ DEADLINES

variable {w w' w'' : World} {task : Task}

namespace Frame

lemma refl (w : World) : Frame w w := ⟨rfl, rfl, rfl, id, id⟩

lemma trans (h : Frame w w') (h' : Frame w' w'') : Frame w w'' where
  catalog := h'.catalog.trans h.catalog
  owed := h'.owed.trans h.owed
  phase := h'.phase.trans h.phase
  bit hb := h'.bit (h.bit hb)
  bound hb := h'.bound (h.bound hb)

end Frame

lemma frame_keep {d : Deadlines} (h : Deadlines.Keeps w.deadlines d) :
    Frame w (w.keep task d) :=
  ⟨rfl, rfl, rfl, id, h.bound⟩

lemma frame_enqueueOrphanSweep : Frame w w.enqueueOrphanSweep := by
  unfold enqueueOrphanSweep
  split
  · exact Frame.refl w
  · split
    · exact frame_keep Deadlines.keeps_at
    · exact ⟨rfl, rfl, rfl, id, id⟩

lemma frame_freshScan : Frame w w.freshScan := by
  unfold freshScan
  split
  · exact ⟨rfl, rfl, rfl, fun _ => rfl, id⟩
  · exact ⟨rfl, rfl, rfl, id, id⟩

lemma frame_fireDue {order : List Task} : Frame w (w.fireDue order) := by
  have hfired : Frame w { w with
      deadlines := w.deadlines.due w.now
      localQueue := order.foldl enqueue w.localQueue } :=
    ⟨rfl, rfl, rfl, id, Deadlines.due_bound⟩
  unfold fireDue
  split
  · exact hfired.trans (frame_enqueueOrphanSweep.trans frame_freshScan)
  · exact hfired

lemma freshScan_deadlines : w.freshScan.deadlines = w.deadlines := by
  unfold freshScan
  split
  all_goals rfl

/-- The orphan sweep is placed again whenever a refusal comes due. -/
lemma enqueueDueRescan_orphans : w.enqueueDueRescan.Held .sweepOrphans ∨
    w.enqueueDueRescan.deadlines.refusal.isSome = true := by
  unfold enqueueDueRescan
  rcases enqueueOrphanSweep_placed (w := w) with h | h
  · exact .inl (carries_freshScan.held _ h)
  · right
    rw [freshScan_deadlines]
    exact h

/-- One step that carries the places along. -/
lemma Inv.carry (h : w.Inv) (hc : Carries w w')
    (howed : ∀ t ∈ w'.owed, t ∈ w.owed ∨ w'.Placed t)
    (hnamed : ∀ t ∈ w'.owed, w'.catalog.names t = true) (horphans : w'.OrphansPlaced)
    (hbound : w'.deadlines.len ≤ DEADLINES)
    (hchecking : ∀ document, w'.phase = .checking document →
      w'.deadlines.Armed (.delete document)) : w'.Inv where
  placed t ht hne := by
    rcases howed t ht with hold | hnew
    · exact (h.placed t hold hne).carry hc
    · exact hnew
  named := hnamed
  orphans := horphans
  moments t m hm := by
    rw [hc.moment]
    rcases hc.refused t with heq | ⟨heq, _⟩
    · exact h.moments t m (heq.symm.trans hm)
    · rw [heq] at hm
      exact (some.inj hm).ge
  bound := hbound
  checking := hchecking

lemma mem_owe {t : Task} (h : t ∈ (w.owe task).owed) :
    t ∈ w.owed ∨ t = task ∧ w.catalog.names t = true := by
  unfold owe at h
  dsimp only at h
  split at h
  · rename_i hn
    rcases mem_cons.1 h with rfl | h
    · exact .inr ⟨rfl, hn⟩
    · exact .inl h
  · exact .inl h

lemma OrphansPlaced.carry (h : w.OrphansPlaced) (hc : Carries w w')
    (hphase : w'.phase = w.phase)
    (hrefusal : w.deadlines.refusal.isSome = true → w'.deadlines.refusal.isSome = true)
    (hbit : w.rescan = true → w'.rescan = true) : w'.OrphansPlaced := by
  unfold OrphansPlaced at h ⊢
  rw [hphase]
  rcases h with h | h | h | h | ⟨h, hne⟩
  · exact .inl h
  · exact .inr (.inl h)
  · rcases h with h | h
    · exact .inr (.inr (.inl (.inl (hc.held _ h))))
    · exact .inr (.inr (.inl (.inr (hphase.trans h))))
  · exact .inr (.inr (.inr (.inl (hrefusal h))))
  · exact .inr (.inr (.inr (.inr ⟨hbit h, hne⟩)))

/-- The worker is in its loop, and not at the orphan sweep. -/
def loops : Phase → Bool
  | .boot => false
  | .booting => false
  | .running task => task ≠ .sweepOrphans
  | _ => true

lemma loops_of_inHand {phase : Phase} (h : phase.inHand = some task) : loops phase = true := by
  cases phase <;> cases h <;> rfl

lemma loops_of_ne {phase : Phase} (hboot : phase ≠ .boot) (hbooting : phase ≠ .booting)
    (hsweep : phase ≠ .running .sweepOrphans) : loops phase = true := by
  cases phase <;> simp_all [loops]

/-- The orphan sweep after the worker has moved on in its loop. -/
lemma OrphansPlaced.move (h : w.OrphansPlaced) (hphase : loops w.phase = true)
    (hheld : w.Held .sweepOrphans → w'.OrphansPlaced)
    (hrefusal : w.deadlines.refusal.isSome = true → w'.OrphansPlaced)
    (hbit : w.rescan = true → w.phase ≠ .settled → w'.OrphansPlaced) : w'.OrphansPlaced := by
  rcases h with h | h | (h | h) | h | ⟨h, hne⟩
  · rw [h] at hphase
    cases hphase
  · rw [h] at hphase
    cases hphase
  · exact hheld h
  · rw [h] at hphase
    cases hphase
  · exact hrefusal h
  · exact hbit h hne

lemma orphansPlaced_held (h : w.Held .sweepOrphans) : w.OrphansPlaced :=
  .inr (.inr (.inl (.inl h)))

lemma orphansPlaced_refusal (h : w.deadlines.refusal.isSome = true) : w.OrphansPlaced :=
  .inr (.inr (.inr (.inl h)))

lemma orphansPlaced_bit (h : w.rescan = true) (hne : w.phase ≠ .settled) : w.OrphansPlaced :=
  .inr (.inr (.inr (.inr ⟨h, hne⟩)))

lemma ask_fields : (w.ask task).phase = w.phase ∧ (w.ask task).deadlines = w.deadlines ∧
    (w.ask task).rescan = w.rescan ∧ (w.ask task).catalog = w.catalog := by
  unfold ask
  split
  all_goals exact ⟨rfl, rfl, rfl, rfl⟩

lemma mem_ask {t : Task} (h : t ∈ (w.ask task).owed) :
    t ∈ w.owed ∨ t = task ∧ w.catalog.names t = true := by
  unfold ask at h
  split at h
  all_goals exact mem_owe h

lemma Inv.ask (h : w.Inv) (task : Task) : (w.ask task).Inv := by
  obtain ⟨hphase, hdeadlines, hbit, hcatalog⟩ := @ask_fields w task
  refine h.carry carries_ask ?_ ?_ ?_ ?_ ?_
  · intro t ht
    rcases mem_ask ht with ht | ⟨rfl, _⟩
    · exact .inl ht
    · exact .inr ask_placed
  · intro t ht
    rw [hcatalog]
    rcases mem_ask ht with ht | ⟨_, hn⟩
    · exact h.named t ht
    · exact hn
  · exact h.orphans.carry carries_ask hphase (fun hr => by rw [hdeadlines]; exact hr)
      (fun hb => by rw [hbit]; exact hb)
  · rw [hdeadlines]
    exact h.bound
  · intro document hp
    rw [hdeadlines]
    exact h.checking document (hphase.symm.trans hp)

lemma Inv.flag (h : w.Inv) : w.flag.Inv := by
  refine h.carry carries_flag (fun _ => .inl) h.named ?_ h.bound h.checking
  exact h.orphans.carry carries_flag rfl id (fun _ => rfl)

lemma Inv.askAtStart (h : w.Inv) (task : Task) : (w.askAtStart task).Inv := by
  unfold World.askAtStart
  split
  · exact h.ask task
  · exact (h.ask task).flag

lemma Inv.tick (h : w.Inv) (seconds : ℕ) : ({ w with now := w.now + seconds } : World).Inv := by
  have hc : Carries w { w with now := w.now + seconds } :=
    Carries.of_same rfl rfl rfl rfl rfl rfl rfl rfl rfl
  exact h.carry hc (fun _ => .inl) h.named
    (h.orphans.carry hc rfl id id) h.bound h.checking

/-- Durable state changes; what it no longer names is done or withdrawn. -/
lemma Inv.change (h : w.Inv) (catalog : Catalog) :
    ({ w with catalog := catalog, owed := w.owed.filter catalog.names } : World).Inv := by
  have hc : Carries w { w with catalog := catalog, owed := w.owed.filter catalog.names } :=
    Carries.of_same rfl rfl rfl rfl rfl rfl rfl rfl rfl
  refine h.carry hc ?_ ?_ ?_ h.bound h.checking
  · exact fun t ht => .inl (mem_of_mem_filter ht)
  · exact fun t ht => (mem_filter.1 ht).2
  · exact h.orphans.carry hc rfl id id

lemma carries_phase {phase : Phase}
    (hhand : ∀ t, w.phase.inHand = some t → ({ w with phase := phase } : World).Held t)
    (hrun : ∀ c, w.phase ≠ .running (.scan c)) : Carries w { w with phase := phase } := by
  refine Carries.of ?_ (fun hb => rescanOwed_bit hb) (fun hr => rescanOwed_refusing hr)
    (fun hr => rescanOwed_refusal hr) rfl (fun c h => absurd h (hrun c)) (fun _ => .inl rfl) rfl
  exact held_of (fun _ h => h) (fun _ h => h) hhand (fun _ h => held_armed h)

lemma held_phase {phase : Phase} (hhand : w.phase.inHand = none) (h : w.Held task) :
    ({ w with phase := phase } : World).Held task := by
  rcases h with h | h | h | h
  · exact .inl h
  · exact held_local h
  · rw [hhand] at h
    cases h
  · exact held_armed h

lemma Inv.phase (h : w.Inv) {phase : Phase} (hhand : w.phase.inHand = none)
    (hrun : ∀ t, w.phase ≠ .running t) (hchecking : ∀ document, phase ≠ .checking document)
    (horphans : ({ w with phase := phase } : World).OrphansPlaced) :
    ({ w with phase := phase } : World).Inv := by
  have hc : Carries w { w with phase := phase } :=
    carries_phase (fun t ht => by rw [hhand] at ht; cases ht) (fun c => hrun _)
  exact h.carry hc (fun _ => .inl) h.named horphans h.bound
    (fun document hp => absurd hp (hchecking document))

lemma Inv.move (h : w.Inv) {phase : Phase} (hhand : w.phase.inHand = none)
    (hrun : ∀ t, w.phase ≠ .running t) (hloops : loops w.phase = true)
    (hchecking : ∀ document, phase ≠ .checking document) (hsettled : phase ≠ .settled) :
    ({ w with phase := phase } : World).Inv := by
  exact h.phase hhand hrun hchecking (h.orphans.move hloops
    (fun hheld => orphansPlaced_held (held_phase hhand hheld)) (fun hr => orphansPlaced_refusal hr)
    fun hb _ => orphansPlaced_bit hb hsettled)

lemma askAtStart_phase : (w.askAtStart task).phase = w.phase := by
  unfold askAtStart
  split
  all_goals exact ask_fields.1

/-- The orphan sweep is asked for before the loop; a full channel sets the bit. -/
lemma askAtStart_orphans : (w.askAtStart .sweepOrphans).Held .sweepOrphans ∨
    (w.askAtStart .sweepOrphans).rescan = true := by
  unfold askAtStart
  split
  · rename_i hroom
    left
    unfold World.ask
    rw [if_pos hroom]
    exact .inl (mem_append_right _ (mem_singleton_self _))
  · exact .inr rfl

lemma Inv.boot (h : w.Inv) (hphase : w.phase = .boot) :
    ({ w.askAtStart (.scan {}) with phase := .booting } : World).Inv := by
  have hp := (@askAtStart_phase w (.scan {})).trans hphase
  refine (h.askAtStart (.scan {})).phase ?_ ?_ nofun (.inr (.inl rfl))
  all_goals rw [hp]
  · rfl
  · nofun

lemma Inv.booting (h : w.Inv) (hphase : w.phase = .booting) :
    ({ w.askAtStart .sweepOrphans with phase := .top } : World).Inv := by
  have hp := (@askAtStart_phase w .sweepOrphans).trans hphase
  have hhand : (w.askAtStart .sweepOrphans).phase.inHand = none := by
    rw [hp]
    rfl
  refine (h.askAtStart .sweepOrphans).phase hhand ?_ nofun ?_
  · rw [hp]
    nofun
  · rcases askAtStart_orphans (w := w) with ho | ho
    · exact orphansPlaced_held (held_phase hhand ho)
    · exact orphansPlaced_bit ho nofun

/-- Everything that has come due is moved into the local queue. -/
lemma Inv.fireDue (h : w.Inv) {order : List Task} (hphase : w.phase = .top)
    (horder : ∀ t ∈ w.deadlines.dueTasks w.now, t ∈ order) : (w.fireDue order).Inv := by
  have hc := carries_fireDue horder
  have hf := @frame_fireDue w order
  refine h.carry hc ?_ ?_ ?_ (hf.bound h.bound) ?_
  · exact fun t ht => .inl (by rw [hf.owed] at ht; exact ht)
  · intro t ht
    rw [hf.owed] at ht
    rw [hf.catalog]
    exact h.named t ht
  · refine h.orphans.move (by rw [hphase]; rfl) (fun hheld => orphansPlaced_held (hc.held _ hheld))
      ?_ ?_
    · intro hr
      unfold World.fireDue
      split
      · rcases enqueueDueRescan_orphans (w := { w with
          deadlines := w.deadlines.due w.now
          localQueue := order.foldl enqueue w.localQueue }) with ho | ho
        · exact orphansPlaced_held ho
        · exact orphansPlaced_refusal ho
      · rename_i hdue
        rcases @Deadlines.due_refusal w.deadlines w.now hr with hd | hd
        · exact absurd hd hdue
        · exact orphansPlaced_refusal hd
    · intro hb hne
      exact orphansPlaced_bit (hf.bit hb) (by rw [hf.phase]; exact hne)
  · intro document hd
    rw [hf.phase, hphase] at hd
    cases hd

lemma Inv.fire (h : w.Inv) {order : List Task} (hphase : w.phase = .top)
    (horder : ∀ t ∈ w.deadlines.dueTasks w.now, t ∈ order) :
    ({ w.fireDue order with phase := .select } : World).Inv := by
  have hp : (w.fireDue order).phase = .top := frame_fireDue.phase.trans hphase
  refine (h.fireDue hphase horder).move ?_ ?_ ?_ nofun
    nofun
  all_goals rw [hp]
  · rfl
  · nofun
  · rfl

/-- The worker takes a task from one of its queues. -/
lemma Inv.take (h : w.Inv) {channel queue : List Task} (hphase : w.phase = .select)
    (hchannel : ∀ t ∈ w.channel, t = task ∨ t ∈ channel)
    (hqueue : ∀ t ∈ w.localQueue, t = task ∨ t ∈ queue) :
    ({ w with channel := channel, localQueue := queue, phase := .popped task } : World).Inv := by
  have hheld : ∀ t, w.Held t → ({ w with
      channel := channel, localQueue := queue, phase := .popped task } : World).Held t := by
    intro t ht
    rcases ht with ht | ht | ht | ht
    · rcases hchannel t ht with rfl | ht
      · exact held_hand rfl
      · exact .inl ht
    · rcases hqueue t ht with rfl | ht
      · exact held_hand rfl
      · exact held_local ht
    · rw [hphase] at ht
      cases ht
    · exact held_armed ht
  have hc : Carries w { w with
      channel := channel, localQueue := queue, phase := .popped task } :=
    Carries.of hheld (fun hb => rescanOwed_bit hb) (fun hr => rescanOwed_refusing hr)
      (fun hr => rescanOwed_refusal hr) rfl (fun c hrun => by rw [hphase] at hrun; cases hrun)
      (fun _ => .inl rfl) rfl
  refine h.carry hc (fun _ => .inl) h.named ?_ h.bound nofun
  exact h.orphans.move (by rw [hphase]; rfl) (fun ho => orphansPlaced_held (hheld _ ho))
    (fun hr => orphansPlaced_refusal hr) (fun hb _ => orphansPlaced_bit hb nofun)

/-- What the worker has in hand waits for a deadline; it is dropped, or looked up again. -/
lemma Inv.drop (h : w.Inv) {phase : Phase} (hhand : w.phase.inHand = some task)
    (harmed : w.deadlines.Armed task) (hsettled : phase ≠ .settled)
    (hchecking : ∀ document, phase = .checking document → task = .delete document) :
    ({ w with phase := phase } : World).Inv := by
  have hrun : ∀ t, w.phase ≠ .running t := by
    intro t ht
    rw [ht] at hhand
    cases hhand
  have hheld : ∀ t, w.Held t → ({ w with phase := phase } : World).Held t := by
    refine held_of (fun _ hm => hm) (fun _ hm => hm) ?_ (fun _ ha => held_armed ha)
    intro t ht
    rw [hhand] at ht
    cases ht
    exact held_armed harmed
  have hc : Carries w { w with phase := phase } :=
    carries_phase (fun t ht => hheld t (held_hand ht)) (fun c => hrun _)
  refine h.carry hc (fun _ => .inl) h.named ?_ h.bound ?_
  · exact h.orphans.move (loops_of_inHand hhand) (fun ho => orphansPlaced_held (hheld _ ho))
      (fun hr => orphansPlaced_refusal hr) (fun hb _ => orphansPlaced_bit hb hsettled)
  · intro document hd
    rw [← hchecking document hd]
    exact harmed

/-- A task begins. If it is a fresh scan, then its pass finds whatever was turned away. -/
lemma Inv.run (h : w.Inv) (hhand : w.phase.inHand = some task) : (w.run task).Inv := by
  have hrun : ∀ t, w.phase ≠ .running t := by
    intro t ht
    rw [ht] at hhand
    cases hhand
  have hheld : ∀ t, t ≠ task → w.Held t → (w.run task).Held t := by
    intro t hne ht
    rcases ht with ht | ht | ht | ht
    · exact .inl ht
    · exact held_local ht
    · rw [hhand] at ht
      exact absurd (some.inj ht).symm hne
    · exact held_armed ht
  have hpass : ∀ p ∈ w.passes, p ∈ (w.run task).passes := by
    intro p hp
    unfold World.run
    dsimp only
    split
    · exact mem_cons_of_mem _ hp
    · exact hp
  refine ⟨?_, ?_, ?_, ?_, h.bound, nofun⟩
  · intro t ht hne
    obtain ⟨hold, hkeep⟩ := mem_filter.1 ht
    obtain ⟨hself, hfinder⟩ := of_decide_eq_true hkeep
    rcases h.placed t hold hne with hp | hp | ⟨m, hm, hp⟩
    · exact .inl (hheld t hself hp)
    · exact .inr (.inl (hheld _ hfinder hp))
    · refine .inr (.inr ⟨m, hm, ?_⟩)
      rcases hp with (hp | hp | hp | hp) | ⟨p, hp, hle, hcar, hahead⟩
      · exact .inl (rescanOwed_bit (by unfold World.run; rw [hp, Bool.true_or]))
      · exact .inl (rescanOwed_refusing hp)
      · exact .inl (rescanOwed_refusal hp)
      · by_cases hscan : task = .scan {}
        · refine .inr ⟨({}, w.moment), ?_, h.moments t m hm, .inr ?_, ?_⟩
          · unfold World.run
            rw [if_pos hscan]
            exact mem_cons_self
          · exact congrArg Phase.running hscan
          · exact ahead_default (h.named t hold) (fun heq => hself (heq.trans hscan.symm)) hne
        · exact .inl (rescanOwed_held (hheld _ (fun heq => hscan heq.symm) hp))
      · refine .inr ⟨p, hpass p hp, hle, ?_, hahead⟩
        by_cases hscan : task = .scan p.1
        · exact .inr (congrArg Phase.running hscan)
        · rcases hcar with hcar | hcar
          · exact .inl (hheld _ (fun heq => hscan heq.symm) hcar)
          · exact absurd hcar (hrun _)
  · exact fun t ht => h.named t (mem_of_mem_filter ht)
  · by_cases horphans : task = .sweepOrphans
    · exact .inr (.inr (.inl (.inr (congrArg Phase.running horphans))))
    · refine h.orphans.move (loops_of_inHand hhand)
        (fun ho => orphansPlaced_held (hheld _ (fun heq => horphans heq.symm) ho))
        (fun hr => orphansPlaced_refusal hr) fun hb _ => orphansPlaced_bit ?_ nofun
      unfold World.run
      rw [hb, Bool.true_or]
  · exact fun t m hm => (h.moments t m hm).trans (Nat.le_succ _)

/-- A task that fails waits out its backoff, or is left to a rescan. -/
lemma Inv.failed (h : w.Inv) (hhand : ∀ t, w.phase.inHand = some t → w.deadlines.Armed t)
    (hrun : ∀ t, w.phase = .running t → t = task) (hboot : w.phase ≠ .boot)
    (hbooting : w.phase ≠ .booting) : (w.failed task).Inv := by
  have hkeeps : Deadlines.Keeps w.deadlines (w.deadlines.failed task w.now) :=
    Deadlines.keeps_failed
  have hplaced := @keep_armed_or w task _ hkeeps Deadlines.failed_placed
  have hheld : ∀ t, w.Held t → (w.failed task).Held t :=
    held_of (fun _ hm => hm) (fun _ hm => hm)
      (fun t ht => held_armed (hkeeps.armed t (hhand t ht)))
      (fun t ha => held_armed (hkeeps.armed t ha))
  have hc : Carries w (w.failed task) := by
    refine Carries.of hheld (fun hb => rescanOwed_bit hb) (fun hr => rescanOwed_refusing hr)
      (fun hr => rescanOwed_refusal (hkeeps.refusal hr)) rfl ?_ ?_ rfl
    · intro c hphase
      rw [hrun _ hphase]
      rcases hplaced with ha | ⟨_, hr⟩
      · exact .inl (.inl (held_armed ha))
      · exact .inr (rescanOwed_refusal hr)
    · intro t
      rcases @keep_refusedAt w task _ hkeeps t with h1 | ⟨h1, hr⟩
      · exact .inl h1
      · exact .inr ⟨h1, rescanOwed_refusal hr⟩
  have hmem : ∀ t ∈ (w.failed task).owed, t ∈ w.owed ∨ t = task ∧ w.catalog.names t = true :=
    fun t ht => mem_owe (w := w.keep task (w.deadlines.failed task w.now)) ht
  refine h.carry hc ?_ ?_ ?_ (hkeeps.bound h.bound) nofun
  · intro t ht
    rcases hmem t ht with ht | ⟨rfl, _⟩
    · exact .inl ht
    · rcases hplaced with ha | ⟨hm, hr⟩
      · exact .inr (.inl (held_armed ha))
      · exact .inr (.inr (.inr ⟨w.moment, hm, .inl (rescanOwed_refusal hr)⟩))
  · intro t ht
    rcases hmem t ht with ht | ⟨_, hn⟩
    · exact h.named t ht
    · exact hn
  · by_cases hsweep : w.phase = .running .sweepOrphans
    · rw [← hrun _ hsweep] at hplaced ⊢
      rcases hplaced with ha | ⟨_, hr⟩
      · exact orphansPlaced_held (held_armed ha)
      · exact orphansPlaced_refusal hr
    · exact h.orphans.move (loops_of_ne hboot hbooting hsweep)
        (fun ho => orphansPlaced_held (hheld _ ho))
        (fun hr => orphansPlaced_refusal (hkeeps.refusal hr)) fun hb _ => orphansPlaced_bit hb nofun

lemma held_cleared (hhand : w.phase.inHand = none) {t : Task} (h : w.Held t) :
    (w.cleared task).Held t := by
  rcases h with h | h | h | h
  · exact .inl h
  · exact held_local h
  · rw [hhand] at h
    cases h
  · exact held_armed (Deadlines.keeps_clear.armed t h)

/-- A task is over. -/
lemma Inv.cleared (h : w.Inv) (hphase : w.phase = .running task) (hscan : task.isScan = false)
    (horphans : task ≠ .sweepOrphans) : (w.cleared task).Inv := by
  have hhand : w.phase.inHand = none := by
    rw [hphase]
    rfl
  have hc : Carries w (w.cleared task) := by
    refine Carries.of (fun t ht => held_cleared hhand ht) (fun hb => rescanOwed_bit hb)
      (fun hr => rescanOwed_refusing hr)
      (fun hr => rescanOwed_refusal (Deadlines.keeps_clear.refusal hr)) rfl ?_
      (fun _ => .inl rfl) rfl
    intro c hc
    rw [hphase] at hc
    injection hc with hc
    rw [hc] at hscan
    cases hscan
  refine h.carry hc (fun _ => .inl) h.named ?_ (Deadlines.keeps_clear.bound h.bound)
    nofun
  exact h.orphans.move (by rw [hphase]; exact decide_eq_true horphans)
    (fun ho => orphansPlaced_held (hc.held _ ho))
    (fun hr => orphansPlaced_refusal (Deadlines.keeps_clear.refusal hr))
    fun hb _ => orphansPlaced_bit hb nofun

/-- The orphan sweep is over, and waits for its next interval. -/
lemma Inv.finish_orphans (h : w.Inv) (hphase : w.phase = .running .sweepOrphans) :
    (w.finish .sweepOrphans).Inv := by
  have hhand : w.phase.inHand = none := by
    rw [hphase]
    rfl
  have hkeeps : Deadlines.Keeps w.deadlines (w.finish .sweepOrphans).deadlines :=
    Deadlines.keeps_clear.trans Deadlines.keeps_at
  have hplaced : (w.finish .sweepOrphans).deadlines.Armed .sweepOrphans ∨
      (w.deadlines.clear .sweepOrphans).refused < (w.finish .sweepOrphans).deadlines.refused :=
    Deadlines.at_placed
  have hheld : ∀ t, w.Held t → (w.finish .sweepOrphans).Held t :=
    held_of (fun _ hm => hm) (fun _ hm => hm) (fun t ht => by rw [hhand] at ht; cases ht)
      (fun t ha => held_armed (hkeeps.armed t ha))
  have hc : Carries w (w.finish .sweepOrphans) := by
    refine Carries.of hheld (fun hb => rescanOwed_bit hb) (fun hr => rescanOwed_refusing hr)
      (fun hr => rescanOwed_refusal (hkeeps.refusal hr)) rfl
      (fun c hc => by rw [hphase] at hc; cases hc) ?_ rfl
    intro t
    rcases @keep_refusedAt (w.cleared .sweepOrphans) .sweepOrphans _
      Deadlines.keeps_at t with h1 | ⟨h1, hr⟩
    · exact .inl h1
    · exact .inr ⟨h1, rescanOwed_refusal hr⟩
  refine h.carry hc (fun _ => .inl) h.named ?_ (hkeeps.bound h.bound)
    nofun
  rcases hplaced with ha | hr
  · exact orphansPlaced_held (held_armed ha)
  · exact orphansPlaced_refusal (Deadlines.keeps_at.refused hr)

lemma Inv.finish (h : w.Inv) (hphase : w.phase = .running task) (hscan : task.isScan = false) :
    (w.finish task).Inv := by
  by_cases ht : task = .sweepOrphans
  · rw [ht] at hphase ⊢
    exact h.finish_orphans hphase
  · unfold World.finish
    rw [if_neg ht]
    exact h.cleared hphase hscan ht

/-- A task that is running schedules itself. -/
lemma Inv.schedule (h : w.Inv) (due : ℕ) (task : Task) :
    ((w.scheduleAt due task).owe task).Inv := by
  have hkeeps : Deadlines.Keeps w.deadlines (w.deadlines.at task (w.now + (due - w.now))) :=
    Deadlines.keeps_at
  have hc : Carries w ((w.scheduleAt due task).owe task) := carries_scheduleAt.trans carries_owe
  refine h.carry hc ?_ ?_ ?_ (hkeeps.bound h.bound)
    (fun document hd => hkeeps.armed _ (h.checking document hd))
  · intro t ht
    rcases mem_owe ht with ht | ⟨rfl, _⟩
    · exact .inl ht
    · exact .inr (scheduleAt_placed.carry carries_owe)
  · intro t ht
    rcases mem_owe ht with ht | ⟨_, hn⟩
    · exact h.named t ht
    · exact hn
  · exact h.orphans.carry hc rfl hkeeps.refusal id

/-- The reminder of a document that is gone is forgotten. -/
lemma Inv.remove (h : w.Inv) {document : ℕ} (hphase : w.phase = .running (.delete document))
    (hgone : document ∉ w.catalog.deleting.list) :
    ({ w with deadlines := w.deadlines.remove (.delete document) } : World).Inv := by
  have hheld : ∀ t, t ≠ .delete document → w.Held t →
      ({ w with deadlines := w.deadlines.remove (.delete document) } : World).Held t := by
    intro t hne ht
    rcases ht with ht | ht | ht | ht
    · exact .inl ht
    · exact held_local ht
    · exact held_hand ht
    · exact held_armed (Deadlines.armed_of_ne (Deadlines.lookup_remove_ne hne) ht)
  refine ⟨?_, h.named, ?_, h.moments, Deadlines.remove_bound h.bound, ?_⟩
  · intro t ht hne
    have hself : t ≠ .delete document := by
      intro heq
      have hn := h.named t ht
      rw [heq] at hn
      exact hgone (of_decide_eq_true hn)
    have hfinder : finder t ≠ .delete document := by
      intro heq
      cases t with
      | eraseAccount account after => cases heq
      | _ => exact hself heq
    rcases h.placed t ht hne with hp | hp | ⟨m, hm, hp⟩
    · exact .inl (hheld t hself hp)
    · exact .inr (.inl (hheld _ hfinder hp))
    · refine .inr (.inr ⟨m, hm, ?_⟩)
      rcases hp with (hp | hp | hp | hp) | ⟨p, hp, hle, hcar, hahead⟩
      · exact .inl (rescanOwed_bit hp)
      · exact .inl (rescanOwed_refusing hp)
      · exact .inl (rescanOwed_refusal hp)
      · exact .inl (rescanOwed_held (hheld _ nofun hp))
      · refine .inr ⟨p, hp, hle, ?_, hahead⟩
        rcases hcar with hcar | hcar
        · exact .inl (hheld _ nofun hcar)
        · exact .inr hcar
  · exact h.orphans.move (by rw [hphase]; rfl) (fun ho => orphansPlaced_held (hheld _ nofun ho))
      (fun hr => orphansPlaced_refusal hr) fun hb hne => orphansPlaced_bit hb hne
  · intro d hd
    rw [show w.phase = .checking d from hd] at hphase
    cases hphase

/-- The orphan sweep is enqueued before the bit can be taken. -/
lemma Inv.overflow (h : w.Inv) (hphase : w.phase = .settling) : w.overflow.Inv := by
  have hsame : w.enqueueOrphanSweep.Inv := by
    have hf := frame_enqueueOrphanSweep (w := w)
    have hc := carries_enqueueOrphanSweep (w := w)
    refine h.carry hc ?_ ?_ ?_ (hf.bound h.bound) ?_
    · exact fun t ht => .inl (by rw [hf.owed] at ht; exact ht)
    · intro t ht
      rw [hf.owed] at ht
      rw [hf.catalog]
      exact h.named t ht
    · rcases enqueueOrphanSweep_placed (w := w) with ho | ho
      · exact orphansPlaced_held ho
      · exact orphansPlaced_refusal ho
    · intro document hd
      rw [hf.phase, hphase] at hd
      cases hd
  unfold World.overflow
  split
  · have hp : w.enqueueOrphanSweep.phase = .settling := frame_enqueueOrphanSweep.phase.trans hphase
    have hhand : w.enqueueOrphanSweep.phase.inHand = none := by
      rw [hp]
      rfl
    refine hsame.phase hhand (by rw [hp]; nofun)
      nofun ?_
    rcases enqueueOrphanSweep_placed (w := w) with ho | ho
    · exact orphansPlaced_held (held_phase hhand ho)
    · exact orphansPlaced_refusal ho
  · rename_i hbit
    have hhand : w.phase.inHand = none := by
      rw [hphase]
      rfl
    refine h.phase hhand (by rw [hphase]; nofun)
      nofun ?_
    exact h.orphans.move (by rw [hphase]; rfl)
      (fun ho => orphansPlaced_held (held_phase hhand ho)) (fun hr => orphansPlaced_refusal hr)
      fun hb _ => absurd hb hbit

/-- The bit is taken only for a scan of all of durable state. -/
lemma Inv.takeRescan (h : w.Inv) (hphase : w.phase = .settled) : w.takeRescan.Inv := by
  have hhand : w.phase.inHand = none := by
    rw [hphase]
    rfl
  have hrun : ∀ t, w.phase ≠ .running t := by
    rw [hphase]
    nofun
  have htop : ({ w with phase := .top } : World).Inv :=
    h.move hhand hrun (by rw [hphase]; rfl) nofun nofun
  unfold World.takeRescan
  split
  · exact htop
  · split
    · have hscan : ({ w with
          rescan := false, localQueue := w.localQueue ++ [.scan {}], phase := .top } :
          World).RescanOwed :=
        rescanOwed_held (held_local (mem_append_right _ (mem_singleton_self _)))
      have hheld : ∀ t, w.Held t → ({ w with
          rescan := false, localQueue := w.localQueue ++ [.scan {}], phase := .top } :
          World).Held t := by
        apply held_of
        · exact fun t ht => ht
        · exact fun _ => mem_append_left _
        · intro t ht
          rw [hhand] at ht
          cases ht
        · exact fun t ha => held_armed ha
      have hc : Carries w { w with
          rescan := false, localQueue := w.localQueue ++ [.scan {}], phase := .top } :=
        Carries.of hheld (fun _ => hscan) (fun hr => rescanOwed_refusing hr)
          (fun hr => rescanOwed_refusal hr) rfl (fun c hc => absurd hc (hrun _))
          (fun _ => .inl rfl) rfl
      refine h.carry hc (fun _ => .inl) h.named ?_ h.bound nofun
      exact h.orphans.move (by rw [hphase]; rfl) (fun ho => orphansPlaced_held (hheld _ ho))
        (fun hr => orphansPlaced_refusal hr) fun _ hne => absurd hphase hne
    · exact htop

lemma carries_noticeSuperseded {due : Option ℕ} : Carries w (w.noticeSuperseded due) := by
  cases due with
  | none => exact Carries.refl w
  | some due => exact carries_scheduleAt

lemma frame_noticeSuperseded {due : Option ℕ} : Frame w (w.noticeSuperseded due) := by
  cases due with
  | none => exact Frame.refl w
  | some due => exact frame_keep Deadlines.keeps_at

lemma noticeSuperseded_localQueue {due : Option ℕ} :
    (w.noticeSuperseded due).localQueue = w.localQueue := by
  cases due
  all_goals rfl

lemma noticeSuperseded_refusal {due : Option ℕ} (h : w.deadlines.refusal.isSome = true) :
    (w.noticeSuperseded due).deadlines.refusal.isSome = true := by
  cases due with
  | none => exact h
  | some due => exact Deadlines.keeps_at.refusal h

lemma noticeSuperseded_refusedAt {due : Option ℕ} (t : Task) :
    (w.noticeSuperseded due).refusedAt t = w.refusedAt t ∨
      (w.noticeSuperseded due).refusedAt t = some w.moment ∧
        (w.noticeSuperseded due).deadlines.refusal.isSome = true := by
  cases due with
  | none => exact .inl rfl
  | some due => exact keep_refusedAt Deadlines.keeps_at t

lemma noticeSuperseded_sweep {due : Option ℕ} (h : due.isSome = true) :
    (w.noticeSuperseded due).deadlines.Armed .sweepSupersededBases ∨
      (w.noticeSuperseded due).refusedAt .sweepSupersededBases = some w.moment ∧
        (w.noticeSuperseded due).deadlines.refusal.isSome = true := by
  cases due with
  | none => cases h
  | some due => exact keep_armed_or Deadlines.keeps_at Deadlines.at_placed

lemma mem_advance {c : PendingWorkCursor} {next : Option PendingWorkCursor}
    {passes : List (PendingWorkCursor × ℕ)} {p : PendingWorkCursor × ℕ} (h : p ∈ passes)
    (hne : p.1 ≠ c) : p ∈ advance c next passes :=
  mem_filterMap.2 ⟨p, h, by rw [if_neg hne]⟩

lemma mem_advance_next {n : PendingWorkCursor} {passes : List (PendingWorkCursor × ℕ)}
    {p : PendingWorkCursor × ℕ} (h : p ∈ passes) : (n, p.2) ∈ advance p.1 (some n) passes :=
  mem_filterMap.2 ⟨p, h, by rw [if_pos rfl]; rfl⟩

section Scanned
variable {c : PendingWorkCursor}

lemma held_scanned (hphase : w.phase = .running (.scan c)) {t : Task} (h : w.Held t) :
    (w.scanned c).Held t := by
  have hhand : w.phase.inHand = none := by
    rw [hphase]
    rfl
  have hmid := (@carries_noticeSuperseded _ (w.catalog.scan c).supersededBaseDue).held t
    (@held_cleared w (.scan c) hhand t h)
  rcases hmid with hm | hm | hm | hm
  · exact .inl hm
  · rw [noticeSuperseded_localQueue] at hm
    exact held_local (mem_append_left _ (mem_append_left _ hm))
  · exact held_hand hm
  · exact held_armed hm

lemma rescanOwed_scanned (hphase : w.phase = .running (.scan c)) (h : w.RescanOwed) :
    (w.scanned c).RescanOwed := by
  rcases h with h | h | h | h
  · exact rescanOwed_bit (frame_noticeSuperseded.bit (w := w.cleared (.scan c)) h)
  · refine rescanOwed_refusing ?_
    unfold scanned noticeSuperseded
    dsimp only
    split
    all_goals exact h
  · exact rescanOwed_refusal (noticeSuperseded_refusal (Deadlines.keeps_clear.refusal h))
  · exact rescanOwed_held (held_scanned hphase h)

lemma mem_scanned_tasks {t : Task} (h : t ∈ (w.catalog.scan c).tasks) :
    (w.scanned c).Held t :=
  held_local (mem_append_left _ (mem_append_right _ h))

lemma mem_scanned_next {n : PendingWorkCursor} (h : (w.catalog.scan c).next = some n) :
    (w.scanned c).Held (.scan n) := by
  refine held_local (mem_append_right _ ?_)
  unfold follow
  rw [h]
  exact mem_singleton_self _

lemma scanned_refusedAt (t : Task) : (w.scanned c).refusedAt t = w.refusedAt t ∨
    (w.scanned c).refusedAt t = some w.moment ∧ (w.scanned c).RescanOwed := by
  rcases @noticeSuperseded_refusedAt (w.cleared (.scan c))
    (w.catalog.scan c).supersededBaseDue t with h | ⟨h, hr⟩
  · exact .inl h
  · exact .inr ⟨h, rescanOwed_refusal hr⟩

lemma scanned_sweep (hnamed : w.catalog.names .sweepSupersededBases = true) :
    (w.scanned c).Placed .sweepSupersededBases := by
  have hdue : (w.catalog.scan c).supersededBaseDue.isSome = true := hnamed
  rcases noticeSuperseded_sweep (w := w.cleared (.scan c)) hdue with ha | ⟨hm, hr⟩
  · exact .inl (held_armed ha)
  · exact .inr (.inr ⟨w.moment, hm, .inl (rescanOwed_refusal hr)⟩)

/-- A page hands over what it finds, and the next page has the rest ahead of it. -/
lemma placed_scanned (h : w.Inv) (hphase : w.phase = .running (.scan c)) {t : Task}
    (ht : t ∈ w.owed) (hne : t ≠ .sweepOrphans) : (w.scanned c).Placed t := by
  rcases h.placed t ht hne with hp | hp | ⟨m, hm, hp⟩
  · exact .inl (held_scanned hphase hp)
  · exact .inr (.inl (held_scanned hphase hp))
  · rcases scanned_refusedAt t with href | ⟨href, hres⟩
    · rcases hp with hp | ⟨p, hp, hle, hcar, hahead⟩
      · exact .inr (.inr ⟨m, href.trans hm, .inl (rescanOwed_scanned hphase hp)⟩)
      · by_cases hc : p.1 = c
        · by_cases hsweep : t = .sweepSupersededBases
          · rw [hsweep]
            exact scanned_sweep (by rw [← hsweep]; exact h.named t ht)
          · rw [hc] at hahead
            rcases Catalog.scan_finds (h.named t ht) hahead hsweep with hf | ⟨n, hn, hahead'⟩
            · exact .inr (.inl (mem_scanned_tasks hf))
            · refine .inr (.inr ⟨m, href.trans hm, .inr ⟨(n, p.2), ?_, hle,
                .inl (mem_scanned_next hn), hahead'⟩⟩)
              change (n, p.2) ∈ advance c (w.catalog.scan c).next w.passes
              rw [hn, ← hc]
              exact mem_advance_next hp
        · refine .inr (.inr ⟨m, href.trans hm, .inr ⟨p, mem_advance hp hc, hle, ?_, hahead⟩⟩)
          rcases hcar with hcar | hcar
          · exact .inl (held_scanned hphase hcar)
          · rw [hphase] at hcar
            injection hcar with hcar
            injection hcar with hcar
            exact absurd hcar.symm hc
    · exact .inr (.inr ⟨w.moment, href, .inl hres⟩)

lemma Inv.scanned (h : w.Inv) (hphase : w.phase = .running (.scan c)) : (w.scanned c).Inv := by
  have hf := @frame_noticeSuperseded (w.cleared (.scan c)) (w.catalog.scan c).supersededBaseDue
  have howed : (w.scanned c).owed = w.owed := hf.owed
  refine ⟨?_, ?_, ?_, ?_, hf.bound (Deadlines.keeps_clear.bound h.bound), ?_⟩
  · intro t ht hne
    rw [howed] at ht
    exact placed_scanned h hphase ht hne
  · intro t ht
    rw [howed] at ht
    rw [show (w.scanned c).catalog = w.catalog from hf.catalog]
    exact h.named t ht
  · refine h.orphans.move (by rw [hphase]; rfl)
      (fun ho => orphansPlaced_held (held_scanned hphase ho)) ?_ ?_
    · exact fun hr => orphansPlaced_refusal
        (noticeSuperseded_refusal (Deadlines.keeps_clear.refusal hr))
    · intro hb _
      refine orphansPlaced_bit (hf.bit hb) ?_
      rw [show (w.scanned c).phase = .settling from hf.phase]
      nofun
  · intro t m hm
    have hmoment : (w.scanned c).moment = w.moment :=
      (carries_noticeSuperseded (w := w.cleared (.scan c))).moment
    rw [hmoment]
    rcases scanned_refusedAt t with href | ⟨href, _⟩
    · exact h.moments t m (href.symm.trans hm)
    · rw [href] at hm
      exact (some.inj hm).ge
  · intro document hd
    rw [show (w.scanned c).phase = .settling from hf.phase] at hd
    cases hd

end Scanned

lemma Inv.initial (catalog : Catalog) : (World.initial catalog).Inv where
  placed t ht := by cases ht
  named t ht := by cases ht
  orphans := .inl rfl
  moments t m hm := by cases hm
  bound := Nat.zero_le _
  checking document hd := by cases hd

lemma Inv.process (h : w.Inv) (hphase : w.phase = .popped task) : (w.process task).Inv := by
  have hhand : w.phase.inHand = some task := by
    rw [hphase]
    rfl
  unfold World.process
  split
  · rename_i hwaiting
    have harmed := Deadlines.waiting_armed hwaiting
    have hdrop : ({ w with phase := .settling } : World).Inv := h.drop hhand harmed nofun nofun
    split
    · split
      · refine h.drop hhand harmed nofun ?_
        intro document hd
        injection hd with hd
        rw [hd]
      · exact hdrop
    · exact hdrop
  · exact h.run hhand

lemma Inv.checked (h : w.Inv) {document : ℕ} (hphase : w.phase = .checking document) :
    (w.failed (.delete document)).Inv ∧ (w.run (.delete document)).Inv ∧
      ({ w with phase := .settling } : World).Inv := by
  have hhand : w.phase.inHand = some (.delete document) := by
    rw [hphase]
    rfl
  have harmed := h.checking document hphase
  refine ⟨?_, h.run hhand, h.drop hhand harmed nofun
    nofun⟩
  refine h.failed ?_ ?_ ?_ ?_
  · intro t ht
    rw [hhand] at ht
    cases ht
    exact harmed
  all_goals rw [hphase]
  · nofun
  · nofun
  · nofun

lemma Inv.step (h : w.Inv) {op : Op} (hstep : w.step op = some w') : w'.Inv := by
  cases op <;> dsimp only [World.step] at hstep
  case tick seconds =>
    cases hstep
    exact h.tick seconds
  case ask task =>
    cases hstep
    exact h.ask task
  case flag =>
    obtain ⟨_, heq⟩ := ite_none_right_eq_some.1 hstep
    cases heq
    exact h.flag
  case change catalog =>
    cases hstep
    exact h.change catalog
  case start =>
    split at hstep
    · rename_i hphase
      cases hstep
      exact h.boot hphase
    · rename_i hphase
      cases hstep
      exact h.booting hphase
    · cases hstep
  case fire order =>
    obtain ⟨⟨hphase, horder⟩, heq⟩ := ite_none_right_eq_some.1 hstep
    cases heq
    exact h.fire hphase fun t ht => (isPerm_iff.1 horder).mem_iff.2 ht
  case pop =>
    split at hstep
    · rename_i task rest hphase hlocal
      cases hstep
      refine h.take hphase (fun _ => .inr) ?_
      intro t ht
      rw [hlocal] at ht
      exact mem_cons.1 ht
    · cases hstep
  case receive =>
    split at hstep
    · rename_i task rest hphase hlocal hchannel
      cases hstep
      refine h.take hphase ?_ (fun _ => .inr)
      intro t ht
      rw [hchannel] at ht
      exact mem_cons.1 ht
    · cases hstep
  case wake =>
    obtain ⟨⟨hphase, _⟩, heq⟩ := ite_none_right_eq_some.1 hstep
    cases heq
    refine h.move ?_ ?_ ?_ nofun nofun
    all_goals rw [hphase]
    · rfl
    · nofun
    · rfl
  case process =>
    split at hstep
    · rename_i task hphase
      cases hstep
      exact h.process hphase
    · cases hstep
  case checked answer =>
    split at hstep
    · rename_i document hphase
      cases hstep
      exact (h.checked hphase).1
    · rename_i document hphase
      cases hstep
      exact (h.checked hphase).2.1
    · rename_i document hphase
      cases hstep
      exact (h.checked hphase).2.2
    · cases hstep
  case schedule due =>
    split at hstep
    · cases hstep
      exact h.schedule due _
    · cases hstep
      exact h.schedule due _
    · cases hstep
  case remove =>
    split at hstep
    · rename_i document hphase
      obtain ⟨hgone, heq⟩ := ite_none_left_eq_some.1 hstep
      cases heq
      exact h.remove hphase hgone
    · cases hstep
  case page =>
    split at hstep
    · rename_i c hphase
      cases hstep
      exact h.scanned hphase
    · cases hstep
  case finish =>
    split at hstep
    · rename_i task hphase
      obtain ⟨hscan, heq⟩ := ite_none_left_eq_some.1 hstep
      cases heq
      exact h.finish hphase (Bool.eq_false_iff.2 hscan)
    · cases hstep
  case fail =>
    split at hstep
    · rename_i task hphase
      cases hstep
      refine h.failed ?_ ?_ ?_ ?_
      all_goals rw [hphase]
      · nofun
      · intro t ht
        injection ht with ht
        exact ht.symm
      · nofun
      · nofun
    · cases hstep
  case overflow =>
    obtain ⟨hphase, heq⟩ := ite_none_right_eq_some.1 hstep
    cases heq
    exact h.overflow hphase
  case takeRescan =>
    obtain ⟨hphase, heq⟩ := ite_none_right_eq_some.1 hstep
    cases heq
    exact h.takeRescan hphase

lemma Inv.steps {ops : List Op} (h : w.Inv) (hsteps : w.steps ops = some w') : w'.Inv := by
  induction ops generalizing w with
  | nil =>
    cases hsteps
    exact h
  | cons op ops ih =>
    unfold World.steps at hsteps
    obtain ⟨v, hv, hrest⟩ := bind_eq_some_iff.1 hsteps
    exact ih (h.step hv) hrest

lemma inv_of_reachable (h : Reachable w) : w.Inv := by
  obtain ⟨catalog, ops, hops⟩ := h
  exact (Inv.initial catalog).steps hops

end World
end LibrePaper.Storage
