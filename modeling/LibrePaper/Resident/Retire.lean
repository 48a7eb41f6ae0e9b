import LibrePaper.Resident.Invariant

/-!
# Retirement

A sweep takes out what it has found idle, and the table holds the only clone of, without
looking at its state again. The results hold of the runs in which nothing begins to work
on a document that a sweep under way has found idle, and in which a sweep for fenced
sequencers takes out fenced ones.
-/
namespace LibrePaper.Resident
open List

/-- Whether something has a clone of a sequencer that was taken from the table. -/
def Refers (r : Registry) (q : ℕ) : Prop :=
  (∃ k, (r.call k).pc.keeps = some q) ∨
    (∃ σ, r.alive σ = true ∧ (r.slot σ).content = some q) ∨ ∃ i, q ∈ (r.sweep i).clones

/-- Whether anything but the table has a sequencer. -/
def Held (r : Registry) (q : ℕ) : Prop := (∃ k, (r.call k).pc.inserts = some q) ∨ Refers r q

/-- Whether a sequencer can be reached. -/
def Reaches (r : Registry) (q : ℕ) : Prop := (∃ d, r.resident d = some q) ∨ Held r q

/-- Whether a sweep has found a sequencer idle, by its document or by itself. -/
def Registry.sampled (r : Registry) (i q : ℕ) : Prop :=
  match r.sweep i with
  | .idle _ found => (r.sequencer q).document ∈ found
  | .empty p true => p = q
  | _ => False

/-- What retirement relies on: no batch is buffered and no subscriber registered on a
document that a sweep under way has found idle, a sweep that finds a sequencer idle finds
the resident one, and one for fenced sequencers takes out fenced ones. -/
structure AllowsRetire (r : Registry) (op : Op) : Prop where
  works : ∀ k q i, op = .ingest k ∨ op = .subscribe k → (r.call k).pc = .holding q →
    (r.sequencer q).fenced = false → ¬ r.sampled i q
  sample : ∀ i q todo found, op = .sample i → r.sweep i = .idle (q :: todo) found →
    (r.sequencer q).idle = true → ∀ p, r.resident (r.sequencer q).document = some p → p = q
  finish : ∀ i found, op = .finish i → r.sweep i = .fenced [] found → ∀ d ∈ found, ∀ q,
    r.resident d = some q → (r.sequencer q).fenced = true

/-- What a sweep has found idle is idle while it is resident, and what is referred to is
resident, unless it is fenced. -/
structure Whole (r : Registry) : Prop extends Ok r where
  sampled : ∀ i d q, r.resident d = some q → (r.sequencer q).fenced = false → r.sampled i q →
    (r.sequencer q).idle = true
  kept : ∀ q, (r.sequencer q).fenced = false → Refers r q →
    r.resident (r.sequencer q).document = some q

section Steps

variable {r t : Registry} {k : ℕ}

variable {σ d q i : ℕ} {op : Op} {s : Sequencer}

lemma Ok.alive_iff (h : Ok r) : r.alive σ = true ↔
    r.admitting (r.slot σ).document = some σ ∨ ∃ k, (r.call k).pc.slot = some σ := by
  rw [Registry.alive, Bool.or_eq_true, decide_eq_true_eq, any_eq_true]
  refine or_congr_right ⟨fun ⟨k, _, hk⟩ => ⟨k, of_decide_eq_true hk⟩, fun ⟨k, hk⟩ => ?_⟩
  refine ⟨k, mem_range.2 ((h.calls k).bound fun hdone => ?_), decide_eq_true hk⟩
  rw [hdone] at hk
  cases hk

lemma Whole.empty : Whole .empty where
  toOk := .empty
  sampled := by simp [Registry.empty]
  kept := by
    rintro q - (⟨k, hk⟩ | ⟨σ, -, hσ⟩ | ⟨i, hi⟩)
    · cases hk
    · cases hσ
    · cases hi

/-- A sequencer that is referred to after a step and not before must be resident. -/
lemma Whole.frame (h : Whole r) (hok : Ok t)
    (hseq : ∀ q, Refers t q ∨ (∃ d, t.resident d = some q) → t.sequencer q = r.sequencer q)
    (hres : t.resident = r.resident) (hsweep : t.sweep = r.sweep)
    (hkeeps : ∀ k q, (t.call k).pc.keeps = some q → Refers r q ∨ ∃ d, r.resident d = some q)
    (hslots : ∀ σ q, t.alive σ = true → (t.slot σ).content = some q →
      Refers r q ∨ ∃ d, r.resident d = some q) : Whole t := by
  refine ⟨hok, fun i d q hq hf hi => ?_, fun q hf href => ?_⟩
  · have hs := hseq q (.inr ⟨d, hq⟩)
    rw [hs]
    refine h.sampled i d q (hres ▸ hq) (hs ▸ hf) ?_
    unfold Registry.sampled at hi ⊢
    rwa [hsweep, hs] at hi
  · have hs := hseq q (.inl href)
    rw [hres, hs]
    have hold : Refers r q ∨ ∃ d, r.resident d = some q := by
      rcases href with ⟨k, hk⟩ | ⟨σ, ha, hσ⟩ | ⟨i, hi⟩
      · exact hkeeps k q hk
      · exact hslots σ q ha hσ
      · exact .inl (.inr (.inr ⟨i, hsweep ▸ hi⟩))
    rcases hold with hold | ⟨d, hd⟩
    · exact h.kept q (hs ▸ hf) hold
    · exact (h.resident d q hd).2 ▸ hd

/-- A call moves on, to a slot that something has a clone of, and with a sequencer that
was referred to or resident. -/
lemma Whole.goes (h : Whole r) (pc : Pc) (hok : Ok (r.goes k pc))
    (hslot : ∀ σ, pc.slot = some σ → r.alive σ = true)
    (hkeeps : ∀ q, pc.keeps = some q → Refers r q ∨ ∃ d, r.resident d = some q) :
    Whole (r.goes k pc) := by
  have hcall := r.goes_call k pc
  refine h.frame hok (fun _ _ => rfl) rfl rfl (fun j q hj => ?_) fun σ q ha hσ => ?_
  · rw [hcall] at hj
    split_ifs at hj
    · exact hkeeps q hj
    · exact .inl (.inl ⟨j, hj⟩)
  · refine .inl (.inr (.inl ⟨σ, ?_, hσ⟩))
    rcases hok.alive_iff.1 ha with hadm | ⟨j, hj⟩
    · exact h.toOk.alive_iff.2 (.inl hadm)
    · rw [hcall] at hj
      split_ifs at hj
      · exact hslot σ hj
      · exact h.toOk.alive_iff.2 (.inr ⟨j, hj⟩)

/-- A new slot is empty. -/
lemma Whole.opens (h : Whole r) (hd : r.admitting d = none) : Whole (r.opens d) := by
  have hok := h.toOk.opens hd
  refine h.frame hok (fun _ _ => rfl) rfl rfl (fun j q hj => .inl (.inl ⟨j, hj⟩))
    fun σ q ha hσ => ?_
  have hslot : (r.opens d).slot σ = if σ = r.slots then ⟨d, none⟩ else r.slot σ :=
    Function.update_apply _ _ _ _
  rw [hslot] at hσ
  split_ifs at hslot hσ with hne
  have halive : r.alive σ = true := by
    rcases hok.alive_iff.1 ha with hadm | hcall
    · rw [hslot] at hadm
      have hnew : (r.opens d).admitting (r.slot σ).document =
          if (r.slot σ).document = d then some r.slots else r.admitting (r.slot σ).document :=
        Function.update_apply _ _ _ _
      rw [hnew] at hadm
      split_ifs at hadm
      · exact absurd (Option.some.inj hadm).symm hne
      · exact h.toOk.alive_iff.2 (.inl hadm)
    · exact h.toOk.alive_iff.2 (.inr hcall)
  exact .inl (.inr (.inl ⟨σ, halive, hσ⟩))

lemma Ok.alive_slot (h : Ok r) (hk : (r.call k).pc.slot = some σ) :
    ∀ τ, some σ = some τ → r.alive τ = true :=
  fun _ hτ => h.alive_iff.2 (.inr ⟨k, hk.trans hτ⟩)

lemma Whole.find (h : Whole r) (hs : r.find k = some t) : Whole t := by
  have hok := h.toOk.find hs
  unfold Registry.find at hs
  split at hs
  · split at hs
    · rename_i p hp
      cases hs
      exact h.goes _ hok (by simp) fun q hq => .inr ⟨_, hp.trans hq⟩
    · cases hs
      exact h.goes _ hok (by simp) (by simp)
  · cases hs

lemma Whole.queue (h : Whole r) (hs : r.queue k = some t) : Whole t := by
  have hok := h.toOk.queue hs
  unfold Registry.queue at hs
  split at hs
  · split at hs
    · rename_i σ hσ
      cases hs
      refine h.goes _ hok (fun τ hτ => ?_) (by simp)
      cases hτ
      exact h.toOk.alive_iff.2 (.inl ((h.admitting _ σ hσ).2 ▸ hσ))
    · rename_i hnone
      cases hs
      have hopens := h.opens hnone
      refine hopens.goes _ hok (fun τ hτ => ?_) (by simp)
      cases hτ
      have hadm : (r.opens (r.call k).document).admitting (r.call k).document = some r.slots :=
        Function.update_self _ _ _
      have hdoc := (hopens.admitting _ _ hadm).2
      exact hopens.toOk.alive_iff.2 (.inl (by rw [hdoc, hadm]))
  · cases hs

lemma Whole.lock (h : Whole r) (hs : r.lock k = some t) : Whole t := by
  have hok := h.toOk.lock hs
  unfold Registry.lock at hs
  split at hs
  · rename_i σ hpc
    have hslot : (r.call k).pc.slot = some σ := by rw [hpc]; rfl
    split_ifs at hs
    split at hs
    · rename_i p hp
      cases hs
      exact h.goes _ hok (by simp) fun q hq =>
        .inl (.inr (.inl ⟨σ, h.toOk.alive_slot hslot σ rfl, hp.trans hq⟩))
    · cases hs
      exact h.goes _ hok (h.toOk.alive_slot hslot) (by simp)
  · cases hs

lemma Whole.check (h : Whole r) (hs : r.check k = some t) : Whole t := by
  have hok := h.toOk.check hs
  unfold Registry.check at hs
  split at hs
  · rename_i σ hpc
    split_ifs at hs
    · cases hs
      exact h.goes _ hok (h.toOk.alive_slot (by rw [hpc]; rfl)) (by simp)
    · cases hs
      exact h.goes _ hok (by simp) (by simp)
  · cases hs

/-- A slot of a call is filled with the resident sequencer. -/
lemma Whole.fills (h : Whole r) (hq : r.resident d = some q) (hok : Ok (r.fills σ q)) :
    Whole (r.fills σ q) := by
  refine h.frame hok (fun _ _ => rfl) rfl rfl (fun j p hj => .inl (.inl ⟨j, hj⟩))
    fun τ p ha hp => ?_
  have hslot : (r.fills σ q).slot τ = if τ = σ then ⟨(r.slot σ).document, some q⟩ else r.slot τ :=
    Function.update_apply _ _ _ _
  by_cases hτ : τ = σ
  · rw [hslot, if_pos hτ] at hp
    exact .inr ⟨d, hq.trans hp⟩
  · rw [if_neg hτ] at hslot
    rw [hslot] at hp
    refine .inl (.inr (.inl ⟨τ, h.toOk.alive_iff.2 ?_, hp⟩))
    exact (hok.alive_iff.1 ha).imp_left fun hadm => by rwa [hslot] at hadm

lemma Whole.recheck (h : Whole r) (hs : r.recheck k = some t) : Whole t := by
  have hok := h.toOk.recheck hs
  unfold Registry.recheck at hs
  split at hs
  · rename_i σ hpc
    split at hs
    · rename_i p hp
      cases hs
      have hfills := h.fills (σ := σ) hp
        (h.toOk.fills σ (h.resident _ p hp).1 (h.toOk.not_inserts hp))
      exact hfills.goes _ hok (by simp) fun q hq => .inr ⟨_, hp.trans hq⟩
    · cases hs
      exact h.goes _ hok (h.toOk.alive_slot (by rw [hpc]; rfl)) (by simp)
  · cases hs

lemma Fresh.not_refers (h : Fresh r q) : ¬ Refers r q := by
  rintro (⟨k, hk⟩ | ⟨σ, -, hσ⟩ | ⟨i, hi⟩)
  · exact h.keeps k hk
  · exact h.content σ hσ
  · exact h.clones i hi

lemma Whole.admits (h : Whole r) (d : ℕ) : Whole (r.admits d) := by
  obtain ⟨hok, hfresh⟩ := h.toOk.admits d
  refine h.frame hok (fun q hq => Function.update_of_ne ?_ _ _) rfl rfl
    (fun j q hj => .inl (.inl ⟨j, hj⟩)) fun σ q ha hσ => .inl (.inr (.inl ⟨σ, ha, hσ⟩))
  rintro rfl
  rcases hq with href | ⟨e, he⟩
  · exact hfresh.not_refers href
  · exact hfresh.resident e he

lemma Whole.admission (h : Whole r) {admitted : Bool} (hs : r.admission k admitted = some t) :
    Whole t := by
  have hok := h.toOk.admission hs
  unfold Registry.admission at hs
  split at hs
  · rename_i σ hpc
    have hslot : (r.call k).pc.slot = some σ := by rw [hpc]; rfl
    split_ifs at hs
    · cases hs
      exact (h.admits _).goes _ hok ((h.admits _).toOk.alive_slot (k := k) hslot) (by simp)
    · cases hs
      exact h.goes _ hok (h.toOk.alive_slot hslot) (by simp)
  · cases hs

lemma Whole.insert (h : Whole r) (hs : r.insert k = some t) : Whole t := by
  have hok := h.toOk.insert hs
  unfold Registry.insert at hs
  split at hs
  · rename_i σ q hpc
    cases hs
    obtain ⟨-, hseq⟩ := (h.calls k).inserts q (by rw [hpc]; rfl)
    have hnone : r.resident (r.call k).document = none := (h.calls k).admits (by rw [hpc]; rfl)
    have hres : ∀ e, Function.update r.resident (r.call k).document (some q) e =
        if e = (r.call k).document then some q else r.resident e :=
      fun e => Function.update_apply _ _ _ _
    refine ⟨hok, fun i e p hp hf hi => ?_, fun p hf href => ?_⟩
    · replace hp := (hres e).symm.trans hp
      split_ifs at hp with he
      · cases hp
        exact congrArg Sequencer.idle hseq
      · exact h.sampled i e p hp hf hi
    · refine (hres _).trans ?_
      by_cases hpq : p = q
      · subst hpq
        exact if_pos (congrArg Sequencer.document hseq)
      · have hold : Refers r p := by
          rcases href with ⟨j, hj⟩ | ⟨τ, ha, hτ⟩ | hi
          · rw [Registry.goes_call] at hj
            split_ifs at hj
            · exact absurd (Option.some.inj hj).symm hpq
            · exact .inl ⟨j, hj⟩
          · have hslot : (r.fills σ q).slot τ =
                if τ = σ then ⟨(r.slot σ).document, some q⟩ else r.slot τ :=
              Function.update_apply _ _ _ _
            replace hτ : ((r.fills σ q).slot τ).content = some p := hτ
            by_cases hστ : τ = σ
            · rw [hslot, if_pos hστ] at hτ
              exact absurd (Option.some.inj hτ).symm hpq
            · rw [if_neg hστ] at hslot
              rw [hslot] at hτ
              refine .inr (.inl ⟨τ, h.toOk.alive_iff.2 ?_, hτ⟩)
              rcases hok.alive_iff.1 ha with hadm | ⟨j, hj⟩
              · change r.admitting ((r.fills σ q).slot τ).document = some τ at hadm
                exact .inl (hslot ▸ hadm)
              · rw [Registry.goes_call] at hj
                split_ifs at hj
                · exact absurd (Option.some.inj hj).symm hστ
                · exact .inr ⟨j, hj⟩
          · exact .inr (.inr hi)
        have hp := h.kept p hf hold
        refine (if_neg fun hd => ?_).trans hp
        cases hnone.symm.trans (hd ▸ hp)
  · cases hs

lemma Whole.closes (h : Whole r) (hok : Ok (r.closes d)) : Whole (r.closes d) := by
  refine h.frame hok (fun _ _ => rfl) rfl rfl (fun j q hj => .inl (.inl ⟨j, hj⟩))
    fun σ q ha hσ => .inl (.inr (.inl ⟨σ, h.toOk.alive_iff.2 ?_, hσ⟩))
  refine (hok.alive_iff.1 ha).imp_left fun hadm => ?_
  have hclosed : ∀ e, (r.closes d).admitting e = if e = d then none else r.admitting e :=
    fun e => Function.update_apply _ _ _ _
  rw [hclosed] at hadm
  split_ifs at hadm
  exact hadm

lemma Whole.releaseSlot (h : Whole r) (hs : r.releaseSlot k = some t) : Whole t := by
  have hok := h.toOk.releaseSlot hs
  unfold Registry.releaseSlot at hs
  split at hs
  · rename_i σ result hpc
    have hkeeps : ∀ q, (result.elim Pc.finished Pc.holding).keeps = some q → Refers r q := by
      intro q hq
      cases result with
      | none => cases hq
      | some p => exact .inl ⟨k, by rw [hpc]; exact hq⟩
    have hslot : ∀ τ, (result.elim Pc.finished Pc.holding).slot ≠ some τ := by cases result <;> simp
    have hcur : r.admitting (r.call k).document = some σ := (h.calls k).current σ (by rw [hpc]; rfl)
    dsimp only at hs
    rw [if_pos hcur] at hs
    cases hs
    have hwhole := h.goes _ (h.toOk.leaves hpc) (fun τ hτ => absurd hτ (hslot τ)) fun q hq =>
      .inl (hkeeps q hq)
    exact hwhole.closes hok
  · cases hs

lemma Whole.dropped (h : Whole r) (hs : r.dropped k = some t) : Whole t := by
  have hok := h.toOk.dropped hs
  unfold Registry.dropped at hs
  split at hs
  · cases hs
    exact h.goes _ hok (by simp) (by simp)
  · cases hs

/-- One more call, at no slot. -/
lemma Whole.starts (h : Whole r) (c : Caller) (hok : Ok (r.starts c)) (hslot : c.pc.slot = none)
    (hkeeps : ∀ q, c.pc.keeps = some q → ∃ d, r.resident d = some q) : Whole (r.starts c) := by
  have hcall : ∀ j, (r.starts c).call j = if j = r.calls then c else r.call j :=
    fun j => Function.update_apply _ _ _ _
  refine h.frame hok (fun _ _ => rfl) rfl rfl (fun j q hj => ?_) fun σ q ha hσ => ?_
  · rw [hcall] at hj
    split_ifs at hj
    · exact .inr (hkeeps q hj)
    · exact .inl (.inl ⟨j, hj⟩)
  · refine .inl (.inr (.inl ⟨σ, h.toOk.alive_iff.2 ?_, hσ⟩))
    refine (hok.alive_iff.1 ha).imp_right fun ⟨j, hj⟩ => ?_
    rw [hcall] at hj
    split_ifs at hj
    · cases hslot.symm.trans hj
    · exact ⟨j, hj⟩

lemma Whole.look (h : Whole r) (hs : r.look d = some t) : Whole t := by
  have hok := h.toOk.look hs
  obtain ⟨q, hq, rfl⟩ := Option.map_eq_some_iff.1 hs
  exact h.starts _ hok rfl fun p hp => ⟨d, hq.trans hp⟩

/-- A holder calls its sequencer, which stays idle where a sweep relies on it. -/
lemma Whole.calling (h : Whole r) {f : Sequencer → Sequencer}
    (hdoc : ∀ s, (f s).document = s.document) (hfenced : ∀ s, (f s).fenced = false → s.fenced = false)
    (hidle : ∀ q i, (r.call k).pc = .holding q → (r.sequencer q).fenced = false → r.sampled i q →
      (r.sequencer q).idle = true → (f (r.sequencer q)).idle = true)
    (hs : r.calling k f = some t) : Whole t := by
  have hok := h.toOk.calling f hdoc hs
  unfold Registry.calling at hs
  split at hs
  · rename_i q hpc
    cases hs
    have hseq : ∀ p, (r.touches q (f (r.sequencer q))).sequencer p =
        if p = q then f (r.sequencer q) else r.sequencer p := fun p => Function.update_apply _ _ _ _
    have hold : ∀ p, ((r.touches q (f (r.sequencer q))).sequencer p).document =
          (r.sequencer p).document ∧
        (((r.touches q (f (r.sequencer q))).sequencer p).fenced = false →
          (r.sequencer p).fenced = false) := by
      intro p
      rw [hseq]
      split_ifs with hp
      · rw [hp]
        exact ⟨hdoc _, hfenced _⟩
      · exact ⟨rfl, id⟩
    have halive : ∀ σ, (r.touches q (f (r.sequencer q))).alive σ = r.alive σ := fun _ => rfl
    refine ⟨hok, fun i d p hp hf hi => ?_, fun p hf href => ?_⟩
    · have hsampled : r.sampled i p := by
        unfold Registry.sampled at hi ⊢
        rwa [(hold p).1] at hi
      have hwas := h.sampled i d p hp ((hold p).2 hf) hsampled
      rw [hseq]
      split_ifs with hpq
      · subst hpq
        exact hidle p i hpc ((hold p).2 hf) hsampled hwas
      · exact hwas
    · rw [(hold p).1]
      exact h.kept p ((hold p).2 hf) href
  · cases hs

/-- A sweep goes on, and what it has found anew is idle while it is resident. -/
lemma Whole.sweeping (h : Whole r) (i : ℕ) (w : Sweep) (hok : Ok (r.sweeping i w))
    (hw : ∀ q ∈ w.clones, q ∈ (r.sweep i).clones)
    (hfound : ∀ d q, r.resident d = some q → (r.sequencer q).fenced = false →
      (r.sweeping i w).sampled i q → r.sampled i q ∨ (r.sequencer q).idle = true) :
    Whole (r.sweeping i w) := by
  have hsweep : ∀ j, (r.sweeping i w).sweep j = if j = i then w else r.sweep j :=
    fun j => Function.update_apply _ _ _ _
  refine ⟨hok, fun j d q hq hf hj => ?_, fun q hf href => h.kept q hf ?_⟩
  · by_cases hji : j = i
    · subst hji
      exact (hfound d q hq hf hj).elim (h.sampled j d q hq hf) id
    · refine h.sampled j d q hq hf ?_
      unfold Registry.sampled at hj ⊢
      rwa [hsweep, if_neg hji] at hj
  · refine href.imp_right fun href => href.imp_right fun ⟨j, hj⟩ => ⟨j, ?_⟩
    rw [hsweep] at hj
    split_ifs at hj with hji
    · exact hji ▸ hw q hj
    · exact hj

lemma Registry.sweeping_sampled (r : Registry) (i : ℕ) (w : Sweep) (q : ℕ) :
    (r.sweeping i w).sampled i q ↔ match w with
      | .idle _ found => (r.sequencer q).document ∈ found
      | .empty p true => p = q
      | _ => False := by
  unfold Registry.sampled Registry.sweeping
  simp

lemma Whole.sample (h : Whole r) (ha : AllowsRetire r (.sample i)) (hs : r.sample i = some t) :
    Whole t := by
  have hok := h.toOk.sample hs
  unfold Registry.sample at hs
  split at hs
  · rename_i q todo found hw
    cases hs
    refine h.sweeping i _ hok (fun p hp => ?_) fun d p hp hf hi => ?_
    · rw [hw]
      exact mem_cons_of_mem q hp
    · replace hi := (r.sweeping_sampled i _ p).1 hi
      have hold : (r.sequencer p).document ∈ found → r.sampled i p := by
        unfold Registry.sampled
        rw [hw]
        exact id
      split_ifs at hi with hidle
      · rcases mem_append.1 hi with hi | hi
        · exact .inl (hold hi)
        · have hdoc := mem_singleton.1 hi
          have hd := (h.resident d p hp).2
          obtain rfl := ha.sample i q todo found rfl hw hidle p (hdoc ▸ hd ▸ hp)
          exact .inr hidle
      · exact .inl (hold hi)
  · rename_i q todo found hw
    cases hs
    refine h.sweeping i _ hok (fun p hp => ?_) fun d p hp hf hi => ?_
    · rw [hw]
      exact mem_cons_of_mem q hp
    · exact ((r.sweeping_sampled i _ p).1 hi).elim
  · rename_i q hw
    cases hs
    refine h.sweeping i _ hok (fun p hp => ?_) fun d p hp hf hi => ?_
    · rw [hw]
      split_ifs at hp
      · exact hp
      · cases hp
    · replace hi := (r.sweeping_sampled i _ p).1 hi
      split_ifs at hi with hidle
      · exact .inr (hi ▸ hidle)
      · exact hi.elim
  · cases hs

/-- A sweep begins, and has found nothing. -/
lemma Whole.sets (h : Whole r) (w : Sweep) (hok : Ok (r.sets w))
    (hw : ∀ q ∈ w.clones, ∃ d, r.resident d = some q)
    (hfound : ∀ q, ¬ (r.sets w).sampled r.sweeps q) : Whole (r.sets w) := by
  have hsweep : ∀ j, (r.sets w).sweep j = if j = r.sweeps then w else r.sweep j :=
    fun j => Function.update_apply _ _ _ _
  refine ⟨hok, fun j d q hq hf hj => ?_, fun q hf href => ?_⟩
  · by_cases hji : j = r.sweeps
    · exact absurd (hji ▸ hj) (hfound q)
    · refine h.sampled j d q hq hf ?_
      unfold Registry.sampled at hj ⊢
      rwa [hsweep, if_neg hji] at hj
  · rcases href with href | href | ⟨j, hj⟩
    · exact h.kept q hf (.inl href)
    · exact h.kept q hf (.inr (.inl href))
    · rw [hsweep] at hj
      split_ifs at hj
      · obtain ⟨d, hd⟩ := hw q hj
        exact (h.resident d q hd).2 ▸ hd
      · exact h.kept q hf (.inr (.inr ⟨j, hj⟩))

lemma Registry.sets_sampled (r : Registry) (w : Sweep) (q : ℕ) :
    (r.sets w).sampled r.sweeps q ↔ match w with
      | .idle _ found => (r.sequencer q).document ∈ found
      | .empty p true => p = q
      | _ => False := by
  unfold Registry.sampled Registry.sets
  simp

/-- The resident sequencer of a document is taken out, fenced or referred to by nothing. -/
lemma Whole.removes (h : Whole r)
    (hd : ∀ q, r.resident d = some q → (r.sequencer q).fenced = false → ¬ Refers r q) :
    Whole (r.removes d) := by
  have hres := r.removes_resident d
  refine ⟨h.toOk.removes d, fun i e q hq hf hi => ?_, fun q hf href => ?_⟩
  · exact h.sampled i e q (Registry.resident_of_removes hq) hf hi
  · have hold := h.kept q hf href
    refine (hres _).trans ((if_neg fun hdoc => ?_).trans hold)
    exact hd q (hdoc ▸ hold) hf href

/-- A registry with fewer residents. -/
def Cut (r t : Registry) : Prop :=
  (∃ resident retired, t = { r with resident := resident, retired := retired }) ∧
    ∀ d q, t.resident d = some q → r.resident d = some q

lemma Cut.refl (r : Registry) : Cut r r := ⟨⟨_, _, rfl⟩, fun _ _ h => h⟩

lemma Cut.trans {s : Registry} (hrs : Cut r s) (hst : Cut s t) : Cut r t := by
  obtain ⟨⟨_, _, rfl⟩, hrs⟩ := hrs
  obtain ⟨⟨_, _, rfl⟩, hst⟩ := hst
  exact ⟨⟨_, _, rfl⟩, fun d q hq => hrs d q (hst d q hq)⟩

lemma Cut.held (h : Cut r t) (q : ℕ) : Held t q ↔ Held r q := by
  obtain ⟨⟨_, _, rfl⟩, -⟩ := h
  rfl

lemma Registry.removes_cut (r : Registry) (d : ℕ) : Cut r (r.removes d) :=
  ⟨⟨_, _, rfl⟩, fun _ _ => Registry.resident_of_removes⟩

lemma Registry.removesIdle_cut (r : Registry) (d : ℕ) : Cut r (r.removesIdle d) := by
  unfold Registry.removesIdle
  split
  · split_ifs
    · exact r.removes_cut d
    · exact .refl r
  · exact .refl r

/-- What is alone in the table is held by nothing else. -/
lemma Ok.not_held (h : Ok r) (hq : r.resident d = some q) (hone : r.strongCount q = 1) :
    ¬ Held r q := by
  have hnone := fun i => h.unheld (i := i) hq (.inl hone)
  rintro (⟨k, hk⟩ | ⟨k, hk⟩ | ⟨σ, ha, hσ⟩ | ⟨j, hj⟩)
  · exact ((hnone 0).calls k).1 hk
  · exact ((hnone 0).calls k).2 hk
  · exact (hnone 0).slots σ ha hσ
  · exact (hnone (j + 1)).sweeps j (by omega) hj

lemma Whole.removesIdle (h : Whole r) (d : ℕ) : Whole (r.removesIdle d) := by
  unfold Registry.removesIdle
  split
  · rename_i q hq
    split_ifs with hone
    · refine h.removes fun p hp _ href => ?_
      obtain rfl := Option.some.inj (hq.symm.trans hp)
      exact h.toOk.not_held hq hone (.inr href)
    · exact h
  · exact h

/-- What the sweep of idle sequencers takes out is one that it found, and held by nothing. -/
lemma Whole.foldIdle (h : Whole r) (found : List ℕ) :
    Whole (found.foldl Registry.removesIdle r) ∧ Cut r (found.foldl Registry.removesIdle r) ∧
      ∀ d q, r.resident d = some q → (found.foldl Registry.removesIdle r).resident d ≠ some q →
        d ∈ found ∧ ¬ Held r q := by
  induction found generalizing r with
  | nil => exact ⟨h, .refl r, fun _ _ hq => absurd hq⟩
  | cons e found ih =>
    obtain ⟨hwhole, hcut, hout⟩ := ih (h.removesIdle e)
    have hfirst := r.removesIdle_cut e
    refine ⟨hwhole, hfirst.trans hcut, fun d q hq hne => ?_⟩
    by_cases hnext : (r.removesIdle e).resident d = some q
    · obtain ⟨hmem, hheld⟩ := hout d q hnext hne
      exact ⟨mem_cons_of_mem e hmem, (hfirst.held q).not.1 hheld⟩
    · unfold Registry.removesIdle at hnext
      split at hnext
      · rename_i p hp
        split_ifs at hnext with hone
        · rw [r.removes_resident] at hnext
          split_ifs at hnext with hde
          · subst hde
            obtain rfl := Option.some.inj (hq.symm.trans hp)
            exact ⟨mem_cons_self, h.toOk.not_held hq hone⟩
          · exact absurd hq hnext
        · exact absurd hq hnext
      · exact absurd hq hnext

/-- The sweep of fenced sequencers takes out fenced ones, where it meets only such. -/
lemma Whole.foldFenced (h : Whole r) (found : List ℕ)
    (hfenced : ∀ d ∈ found, ∀ q, r.resident d = some q → (r.sequencer q).fenced = true) :
    Whole (found.foldl Registry.removes r) ∧ Cut r (found.foldl Registry.removes r) ∧
      ∀ d q, r.resident d = some q → (found.foldl Registry.removes r).resident d ≠ some q →
        (r.sequencer q).fenced = true := by
  induction found generalizing r with
  | nil => exact ⟨h, .refl r, fun _ _ hq => absurd hq⟩
  | cons e found ih =>
    have he := hfenced e mem_cons_self
    have hnow : Whole (r.removes e) :=
      h.removes fun q hq hf => absurd ((he q hq).symm.trans hf) (by simp)
    obtain ⟨hwhole, hcut, hout⟩ := ih hnow fun d hd q hq =>
      hfenced d (mem_cons_of_mem e hd) q (Registry.resident_of_removes hq)
    refine ⟨hwhole, (r.removes_cut e).trans hcut, fun d q hq hne => ?_⟩
    by_cases hde : d = e
    · exact he q (hde ▸ hq)
    · exact hout d q ((r.removes_resident e d).trans ((if_neg hde).trans hq)) hne

/-- What a step takes out of the table. -/
def Drops (r t : Registry) : Prop :=
  ∀ d q, r.resident d = some q → t.resident d ≠ some q →
    (r.sequencer q).fenced = true ∨ (r.sequencer q).idle = true ∧ ¬ Held t q

lemma Drops.of_kept (h : ∀ d q, r.resident d = some q → t.resident d = some q) : Drops r t :=
  fun d q hq => absurd (h d q hq)

/-- A sweep that ends has no clones. -/
lemma Held.of_finished (h : Held (r.sweeping i .finished) q) : Held r q := by
  refine h.imp_right fun href => href.imp_right fun href => href.imp_right fun ⟨j, hj⟩ => ⟨j, ?_⟩
  change q ∈ (Function.update r.sweep i Sweep.finished j).clones at hj
  rw [Function.update_apply] at hj
  split_ifs at hj
  · cases hj
  · exact hj

lemma Whole.finished (h : Whole r) (i : ℕ) : Whole (r.sweeping i .finished) :=
  h.sweeping i .finished (h.toOk.sweeping i .finished (absurd rfl) (by simp)) (by simp)
    fun _ q _ _ hi => ((r.sweeping_sampled i .finished q).1 hi).elim

lemma Whole.finish (h : Whole r) (ha : AllowsRetire r (.finish i)) (hs : r.finish i = some t) :
    Whole t ∧ Drops r t := by
  unfold Registry.finish at hs
  split at hs
  · rename_i found hw
    cases hs
    obtain ⟨hwhole, hcut, hout⟩ := h.foldIdle found
    refine ⟨hwhole.finished i, fun d q hq hne => ?_⟩
    obtain ⟨hmem, hheld⟩ := hout d q hq hne
    cases hf : (r.sequencer q).fenced with
    | true => exact .inl rfl
    | false =>
      refine .inr ⟨h.sampled i d q hq hf ?_, fun hq => hheld ((hcut.held q).1 hq.of_finished)⟩
      unfold Registry.sampled
      rw [hw]
      exact (h.resident d q hq).2 ▸ hmem
  · rename_i found hw
    cases hs
    obtain ⟨hwhole, hcut, hout⟩ := h.foldFenced found (ha.finish i found rfl hw)
    exact ⟨hwhole.finished i, fun d q hq hne => .inl (hout d q hq hne)⟩
  · rename_i q hw
    dsimp only at hs
    split_ifs at hs with hout
    · cases hs
      have hunheld : Unheld r q i := h.toOk.unheld hout.1 (.inr ⟨hout.2, by simp [hw]⟩)
      have hheld : ¬ Held (r.sweeping i .finished) q := by
        rintro (⟨k, hk⟩ | ⟨k, hk⟩ | ⟨σ, hσa, hσ⟩ | ⟨j, hj⟩)
        · exact (hunheld.calls k).1 hk
        · exact (hunheld.calls k).2 hk
        · exact hunheld.slots σ hσa hσ
        · change q ∈ (Function.update r.sweep i Sweep.finished j).clones at hj
          rw [Function.update_apply] at hj
          split_ifs at hj with hji
          · cases hj
          · exact hunheld.sweeps j hji hj
      have hone : ∀ p, r.resident (r.sequencer q).document = some p → p = q :=
        fun p hp => Option.some.inj (hp.symm.trans hout.1)
      refine ⟨(h.finished i).removes fun p hp _ href => hheld (hone p hp ▸ .inr href),
        fun d p hp hne => ?_⟩
      replace hne : (r.removes (r.sequencer q).document).resident d ≠ some p := hne
      rw [r.removes_resident] at hne
      split_ifs at hne with hd
      · obtain rfl := hone p (hd ▸ hp)
        cases hf : (r.sequencer p).fenced with
        | true => exact .inl rfl
        | false =>
          refine .inr ⟨h.sampled i d p hp hf ?_, hheld⟩
          unfold Registry.sampled
          rw [hw]
      · exact absurd hp hne
    · cases hs
      exact ⟨h.finished i, .of_kept fun _ _ hq => hq⟩
  · cases hs

/-- Nothing but the end of a sweep takes a sequencer out of the table. -/
lemma Ok.resident_kept (h : Ok r) (hs : Resident.step r op = some t) (hop : ∀ i, op ≠ .finish i)
    (hq : r.resident d = some q) : t.resident d = some q := by
  cases op with
  | finish i => exact absurd rfl (hop i)
  | insert k =>
    simp only [Resident.step, Registry.insert] at hs
    split at hs
    · rename_i σ p hpc
      cases hs
      have hnone : r.resident (r.call k).document = none := (h.calls k).admits (by rw [hpc]; rfl)
      refine (Function.update_of_ne ?_ _ _).trans hq
      rintro rfl
      cases hnone.symm.trans hq
    · cases hs
  | _ =>
    simp only [Resident.step, Registry.find, Registry.queue, Registry.lock, Registry.check,
      Registry.recheck, Registry.admission, Registry.releaseSlot, Registry.dropped, Registry.look,
      Registry.calling, Registry.sample, Option.map_eq_some_iff] at hs
    repeat' split at hs
    all_goals first
      | cases hs; exact hq
      | (obtain ⟨p, -, rfl⟩ := hs; exact hq)
      | cases hs

lemma Sequencer.ingest_fenced (s : Sequencer) : s.ingest.fenced = s.fenced := by
  unfold Sequencer.ingest
  split <;> rfl

lemma Sequencer.subscribe_fenced (s : Sequencer) : s.subscribe.fenced = s.fenced := by
  unfold Sequencer.subscribe
  split <;> rfl

lemma Sequencer.idle_iff : s.idle = true ↔ s.subscribers = 0 ∧ s.buffered = 0 := by
  rw [Sequencer.idle, Bool.and_eq_true, beq_iff_eq, beq_iff_eq]

lemma Sequencer.flush_idle (take : ℕ) (h : s.idle = true) : (s.flush take).idle = true := by
  obtain ⟨hs, hb⟩ := Sequencer.idle_iff.1 h
  exact Sequencer.idle_iff.2 ⟨hs, by rw [Sequencer.flush, hb, Nat.zero_sub]⟩

lemma Sequencer.unsubscribe_idle (h : s.idle = true) : s.unsubscribe.idle = true := by
  obtain ⟨hs, hb⟩ := Sequencer.idle_iff.1 h
  exact Sequencer.idle_iff.2 ⟨by rw [Sequencer.unsubscribe, hs], hb⟩

lemma Whole.step (h : Whole r) (ha : AllowsRetire r op) (hs : Resident.step r op = some t) :
    Whole t ∧ Drops r t := by
  have hkept : (∀ i, op ≠ .finish i) → Drops r t := fun hop =>
    .of_kept fun _ _ => h.toOk.resident_kept hs hop
  have hok := h.toOk.step hs
  cases op with
  | get d =>
    cases hs
    exact ⟨h.starts _ hok rfl (by simp), hkept nofun⟩
  | find k => exact ⟨h.find hs, hkept nofun⟩
  | queue k => exact ⟨h.queue hs, hkept nofun⟩
  | lock k => exact ⟨h.lock hs, hkept nofun⟩
  | check k => exact ⟨h.check hs, hkept nofun⟩
  | recheck k => exact ⟨h.recheck hs, hkept nofun⟩
  | admission k admitted => exact ⟨h.admission hs, hkept nofun⟩
  | insert k => exact ⟨h.insert hs, hkept nofun⟩
  | releaseSlot k => exact ⟨h.releaseSlot hs, hkept nofun⟩
  | drop k => exact ⟨h.dropped hs, hkept nofun⟩
  | resident d => exact ⟨h.look hs, hkept nofun⟩
  | ingest k =>
    refine ⟨h.calling Sequencer.ingest_document (fun s hf => s.ingest_fenced ▸ hf)
      (fun q i hpc hf hi _ => ?_) hs, hkept nofun⟩
    exact absurd hi (ha.works k q i (.inl rfl) hpc hf)
  | flush k take =>
    exact ⟨h.calling (f := Sequencer.flush take) (fun _ => rfl) (fun _ hf => hf)
      (fun _ _ _ _ _ => Sequencer.flush_idle take) hs, hkept nofun⟩
  | subscribe k =>
    refine ⟨h.calling Sequencer.subscribe_document (fun s hf => s.subscribe_fenced ▸ hf)
      (fun q i hpc hf hi _ => ?_) hs, hkept nofun⟩
    exact absurd hi (ha.works k q i (.inr rfl) hpc hf)
  | unsubscribe k =>
    exact ⟨h.calling (f := Sequencer.unsubscribe) (fun _ => rfl) (fun _ hf => hf)
      (fun _ _ _ _ _ => Sequencer.unsubscribe_idle) hs, hkept nofun⟩
  | fence k =>
    refine ⟨h.calling (f := Sequencer.fence) (fun _ => rfl) nofun
      (fun q i _ _ _ hidle => ?_) hs, hkept nofun⟩
    exact Sequencer.idle_iff.2 ⟨rfl, (Sequencer.idle_iff.1 hidle).2⟩
  | retireIdle =>
    cases hs
    exact ⟨h.sets _ hok (fun _ => Registry.mem_all)
      fun q hq => by simpa using (r.sets_sampled _ q).1 hq, hkept nofun⟩
  | retireFenced =>
    cases hs
    exact ⟨h.sets _ hok (fun _ => Registry.mem_all)
      fun q hq => (r.sets_sampled _ q).1 hq, hkept nofun⟩
  | retireEmpty d =>
    obtain ⟨q, hq, rfl⟩ := Option.map_eq_some_iff.1 hs
    exact ⟨h.sets _ hok (fun p hp => ⟨d, mem_singleton.1 hp ▸ hq⟩)
      fun p hp => (r.sets_sampled _ p).1 hp, hkept nofun⟩
  | sample i => exact ⟨h.sample ha hs, hkept nofun⟩
  | finish i => exact h.finish ha hs

lemma Whole.reaches (h : Whole r) (hq : Reaches r q) (hf : (r.sequencer q).fenced = false) :
    r.resident (r.sequencer q).document = some q ∨ ∃ k, (r.call k).pc.inserts = some q := by
  rcases hq with ⟨d, hd⟩ | ⟨k, hk⟩ | href
  · exact .inl ((h.resident d q hd).2 ▸ hd)
  · exact .inr ⟨k, hk⟩
  · exact .inl (h.kept q hf href)

lemma Ok.inserting_none (h : Ok r) (hk : (r.call k).pc.inserts = some q) :
    (r.sequencer q).document = (r.call k).document ∧
      r.resident (r.sequencer q).document = none := by
  have hdoc := congrArg Sequencer.document ((h.calls k).inserts q hk).2
  exact ⟨hdoc, hdoc ▸ (h.calls k).admits (Pc.admits_of_inserts hk)⟩

lemma Whole.one (h : Whole r) {p : ℕ} (hp : Reaches r p) (hq : Reaches r q)
    (hpf : (r.sequencer p).fenced = false) (hqf : (r.sequencer q).fenced = false)
    (hd : (r.sequencer p).document = (r.sequencer q).document) : p = q := by
  rcases h.reaches hp hpf with hp | ⟨i, hi⟩ <;> rcases h.reaches hq hqf with hq | ⟨j, hj⟩
  · exact Option.some.inj (hp.symm.trans (hd ▸ hq))
  · cases (h.toOk.inserting_none hj).2.symm.trans (hd ▸ hp)
  · cases (h.toOk.inserting_none hi).2.symm.trans (hd ▸ hq)
  · obtain ⟨hdi, -⟩ := h.toOk.inserting_none hi
    obtain ⟨hdj, -⟩ := h.toOk.inserting_none hj
    obtain ⟨σ, hσ⟩ := Pc.current_of_admits (Pc.admits_of_inserts hi)
    obtain ⟨τ, hτ⟩ := Pc.current_of_admits (Pc.admits_of_inserts hj)
    obtain rfl := h.toOk.unique hσ hτ (hdi.symm.trans (hd.trans hdj))
    exact Option.some.inj (hi.symm.trans hj)

lemma Reachable.whole (h : Reachable AllowsRetire r) : Whole r := by
  induction h with
  | first => exact .empty
  | step op _ ha hs ih => exact (ih.step ha hs).1

/-- In every run in which no batch is buffered and no subscriber registered on an unfenced
sequencer that a sweep under way has found idle, a sweep that finds a sequencer idle finds
the resident one of its document, and a sweep for fenced sequencers takes out fenced ones:
an unfenced sequencer that is taken out of the table has an empty buffer and no subscriber
and is held by nothing, and at most one unfenced sequencer of a document can be reached. -/
theorem live_kept (h : Reachable AllowsRetire r) :
    (∀ op t, AllowsRetire r op → step r op = some t → ∀ d q, r.resident d = some q →
      t.resident d ≠ some q → (r.sequencer q).fenced = false →
        (r.sequencer q).buffered = 0 ∧ (r.sequencer q).subscribers = 0 ∧ ¬ Held t q) ∧
    ∀ p q, Reaches r p → Reaches r q → (r.sequencer p).fenced = false →
      (r.sequencer q).fenced = false → (r.sequencer p).document = (r.sequencer q).document →
        p = q := by
  have hr := h.whole
  refine ⟨fun op t ha hs d q hq hne hf => ?_, fun _ _ hp hq hpf hqf => hr.one hp hq hpf hqf⟩
  rcases (hr.step ha hs).2 d q hq hne with hfenced | ⟨hidle, hheld⟩
  · cases hf.symm.trans hfenced
  · obtain ⟨hs, hb⟩ := Sequencer.idle_iff.1 hidle
    exact ⟨hb, hs, hheld⟩

/-- A sequencer is admitted and let go of, and a sweep begins. -/
def sampleOpened : List Op :=
  [.get 1, .find 0, .queue 0, .lock 0, .check 0, .recheck 0, .admission 0 true, .insert 0,
    .releaseSlot 0, .drop 0, .retireIdle]

def sampleIdle : Registry := (runOps .empty sampleOpened).get rfl

/-- The sweep has found it idle. -/
def sampleFound : Registry := (step sampleIdle (.sample 0)).get rfl

lemma sampleFound_reachable : Reachable AllowsRetire sampleFound := by
  have hidle : Reachable AllowsRetire sampleIdle := by
    refine Reachable.first.runOps sampleOpened (fun op hop s => ⟨?_, ?_, ?_⟩) rfl
    · rintro k q i (rfl | rfl) <;> simp [sampleOpened] at hop
    · rintro i q todo found rfl
      simp [sampleOpened] at hop
    · rintro i found rfl
      simp [sampleOpened] at hop
  refine hidle.step (.sample 0) ⟨?_, ?_, nofun⟩ rfl
  · rintro k q i (h | h) <;> cases h
  · rintro i q todo found h hw - p hp
    cases h
    cases hw
    exact (Option.some.inj hp).symm

theorem live_kept_idle : (sampleFound.sequencer 0).buffered = 0 ∧
    (sampleFound.sequencer 0).subscribers = 0 ∧
      ¬ Held ((step sampleFound (.finish 0)).get rfl) 0 := by
  refine (live_kept sampleFound_reachable).1 (.finish 0) _ ⟨?_, nofun, ?_⟩ rfl 1 0 rfl
    (by decide) rfl
  · rintro k q i (h | h) <;> cases h
  · rintro i found h hw
    cases h
    cases hw

/-- A call takes a sequencer that the sweep has found idle, writes to it and lets go. -/
def sampleWork : List Op :=
  sampleOpened ++ [.sample 0, .get 1, .find 1, .ingest 1, .drop 1]

/-- Two sweeps find one fenced sequencer; the second one ends after another is resident. -/
def sampleSplit : List Op :=
  [.get 1, .find 0, .queue 0, .lock 0, .check 0, .recheck 0, .admission 0 true, .insert 0,
    .releaseSlot 0, .fence 0, .retireFenced, .retireFenced, .sample 0, .sample 1, .finish 0,
    .get 1, .find 1, .queue 1, .lock 1, .check 1, .recheck 1, .admission 1 true, .insert 1,
    .releaseSlot 1, .finish 1,
    .get 1, .find 2, .queue 2, .lock 2, .check 2, .recheck 2, .admission 2 true, .insert 2,
    .releaseSlot 2]

/-- An unfenced sequencer is taken out with a batch in its buffer, and two unfenced
sequencers of one document are held. -/
theorem live_work_retired :
    (∃ r t, Reachable (fun _ _ => True) r ∧ step r (.finish 0) = some t ∧
      r.resident 1 = some 0 ∧ t.resident 1 = none ∧ t.sequencer 0 = ⟨1, false, 1, 0⟩) ∧
    ∃ r, Reachable (fun _ _ => True) r ∧ (r.call 1).pc = .holding 1 ∧ (r.call 2).pc = .holding 2 ∧
      r.sequencer 1 = ⟨1, false, 0, 0⟩ ∧ r.sequencer 2 = ⟨1, false, 0, 0⟩ :=
  ⟨⟨(runOps .empty sampleWork).get rfl, _,
    Reachable.first.runOps sampleWork (fun _ _ _ => trivial) rfl, rfl, rfl, rfl, rfl⟩,
    ⟨(runOps .empty sampleSplit).get rfl,
      Reachable.first.runOps sampleSplit (fun _ _ _ => trivial) rfl, rfl, rfl, rfl, rfl⟩⟩

end Steps

end LibrePaper.Resident
