import LibrePaper.Resident.Invariant

/-!
# Admission slots

A slot is mapped while a call is at it, and what it holds is mapped only until the call
that admitted it has released it. A second hit in the resident table returns without
releasing the slot; the results hold of the runs in which there is none.
-/
namespace LibrePaper.Resident
open List Option Function

/-- What the slots rely on: a call that looks at the table a second time finds nothing,
and a fenced sequencer is not taken out before the call that admitted it has released its
slot. -/
structure AllowsSlots (r : Registry) (op : Op) : Prop where
  recheck : ∀ k σ, op = .recheck k → (r.call k).pc = .rechecking σ →
    r.resident (r.call k).document = none
  finish : ∀ i found, op = .finish i → r.sweep i = .fenced [] found → ∀ d ∈ found, ∀ q,
    r.resident d = some q → (r.sequencer q).fenced = true →
      ∀ k σ, (r.call k).pc ≠ .releasing σ (some q)

/-- Sequencer `q` is out of reach of every call from number `n` on. -/
structure Gone (r : Registry) (q n : ℕ) : Prop where
  made : q < r.made
  calls : n ≤ r.calls
  resident : ∀ d, r.resident d ≠ some q
  inserts : ∀ k, (r.call k).pc.inserts ≠ some q
  releases : ∀ k σ, (r.call k).pc ≠ .releasing σ (some q)
  keeps : ∀ k ≥ n, (r.call k).pc.keeps ≠ some q
  content : ∀ k ≥ n, ∀ σ, (r.call k).pc.slot = some σ → (r.slot σ).content ≠ some q

structure Released (r : Registry) : Prop extends Ok r where
  queued : ∀ d σ, r.admitting d = some σ → ∃ k, (r.call k).pc.slot = some σ
  filled : ∀ d σ q, r.admitting d = some σ → (r.slot σ).content = some q →
    ∃ k, (r.call k).pc = .releasing σ (some q)
  gone : ∀ q n, (q, n) ∈ r.retired → Gone r q n

lemma Released.empty : Released .empty where
  toOk := .empty
  queued := by simp [Registry.empty]
  filled := by simp [Registry.empty]
  gone := by simp [Registry.empty]

section Steps

variable {r t : Registry} {k : ℕ}

/-- Where call `k` goes, a sequencer that is gone is not. -/
structure Avoids (r : Registry) (k : ℕ) (pc : Pc) (q n : ℕ) : Prop where
  inserts : pc.inserts ≠ some q
  releases : ∀ σ, pc ≠ .releasing σ (some q)
  keeps : n ≤ k → pc.keeps ≠ some q
  content : n ≤ k → ∀ σ, pc.slot = some σ → (r.slot σ).content ≠ some q

variable {pc : Pc} {q n d σ i : ℕ}

lemma Gone.goes (h : Gone r q n) (ha : Avoids r k pc q n) : Gone (r.goes k pc) q n := by
  have hcall := r.goes_call k pc
  refine ⟨h.made, h.calls, h.resident, fun j => ?_, fun j σ => ?_, fun j hj => ?_, fun j hj σ => ?_⟩
  · rw [hcall]
    split_ifs
    · exact ha.inserts
    · exact h.inserts j
  · rw [hcall]
    split_ifs
    · exact ha.releases σ
    · exact h.releases j σ
  · rw [hcall]
    split_ifs with hjk
    · exact ha.keeps (hjk ▸ hj)
    · exact h.keeps j hj
  · rw [hcall]
    split_ifs with hjk
    · exact ha.content (hjk ▸ hj) σ
    · exact h.content j hj σ

/-- A call moves on: it stays at its slot, or the slot is not mapped. -/
lemma Released.goes (h : Released r) (pc : Pc) (hok : Ok (r.goes k pc))
    (hleaves : ∀ σ, (r.call k).pc.slot = some σ → pc.slot = some σ ∨ ∀ d, r.admitting d ≠ some σ)
    (hreleases : ∀ σ q, (r.call k).pc = .releasing σ (some q) → ∀ d, r.admitting d ≠ some σ)
    (havoids : ∀ q n, (q, n) ∈ r.retired → Avoids r k pc q n) : Released (r.goes k pc) where
  toOk := hok
  queued := by
    intro d σ hσ
    obtain ⟨j, hj⟩ := h.queued d σ hσ
    by_cases hjk : j = k
    · subst hjk
      refine ⟨j, ?_⟩
      rw [r.goes_call, if_pos rfl]
      exact (hleaves σ hj).resolve_right fun hno => hno d hσ
    · exact ⟨j, by rw [r.goes_call, if_neg hjk]; exact hj⟩
  filled := by
    intro d σ q hσ hq
    obtain ⟨j, hj⟩ := h.filled d σ q hσ hq
    by_cases hjk : j = k
    · exact absurd hσ (hreleases σ q (hjk ▸ hj) d)
    · exact ⟨j, by rw [r.goes_call, if_neg hjk]; exact hj⟩
  gone := fun q n hq => (h.gone q n hq).goes (havoids q n hq)

/-- A call that is not at a slot avoids what is gone when it keeps nothing of it. -/
lemma Avoids.off (hs : pc.slot = none) (hkeeps : n ≤ k → pc.keeps ≠ some q) :
    Avoids r k pc q n := by
  refine ⟨?_, ?_, hkeeps, fun _ σ hσ => by cases hs.symm.trans hσ⟩
  · cases pc with
    | inserting σ p => cases hs
    | _ => simp
  · rintro σ rfl
    cases hs

lemma Gone.stays (h : Gone r q n) (hs : pc.slot = (r.call k).pc.slot) (hins : pc.inserts ≠ some q)
    (hkeeps : pc.keeps ≠ some q) : Avoids r k pc q n := by
  refine ⟨hins, ?_, fun _ => hkeeps, fun hk σ hσ => h.content k hk σ (hs ▸ hσ)⟩
  rintro σ rfl
  exact hkeeps rfl

lemma Released.mapped (h : Released r) (hq : (q, n) ∈ r.retired) (hσ : r.admitting d = some σ) :
    (r.slot σ).content ≠ some q := by
  intro hcontent
  obtain ⟨j, hj⟩ := h.filled d σ q hσ hcontent
  exact (h.gone q n hq).releases j σ hj

lemma Released.find (h : Released r) (hs : r.find k = some t) : Released t := by
  have hok := h.toOk.find hs
  unfold Registry.find at hs
  split at hs
  · rename_i hpc
    split at hs
    · rename_i p hp
      cases hs
      refine h.goes _ hok (by simp [hpc]) (by simp [hpc]) fun q n hq => .off rfl fun _ hpq => ?_
      exact (h.gone q n hq).resident _ (hp.trans hpq)
    · cases hs
      exact h.goes _ hok (by simp [hpc]) (by simp [hpc]) fun q n hq => .off rfl (by simp)
  · cases hs

lemma Gone.opens (h : Gone r q n) (hok : Ok r) : Gone (r.opens d) q n := by
  refine ⟨h.made, h.calls, h.resident, h.inserts, h.releases, h.keeps, fun j hj σ hσ => ?_⟩
  have hlt := ((hok.calls j).slot σ hσ).1
  rw [show (r.opens d).slot σ = r.slot σ from update_of_ne (Nat.ne_of_lt hlt) _ _]
  exact h.content j hj σ hσ

lemma Registry.opens_slot (r : Registry) (d : ℕ) : (r.opens d).slot r.slots = ⟨d, none⟩ :=
  update_self _ _ _

/-- A call opens a slot for its document and waits at it. -/
lemma Released.opens (h : Released r) (hslot : (r.call k).pc.slot = none)
    (hok : Ok ((r.opens d).goes k (.waiting r.slots))) :
    Released ((r.opens d).goes k (.waiting r.slots)) := by
  have hadm : ∀ e, (r.opens d).admitting e = if e = d then some r.slots else r.admitting e :=
    fun e => update_apply _ _ _ _
  have hold : ∀ e σ, r.admitting e = some σ → (r.opens d).slot σ = r.slot σ := fun e σ hσ =>
    update_of_ne (Nat.ne_of_lt (h.admitting e σ hσ).1) _ _
  have hcall := (r.opens d).goes_call k (.waiting r.slots)
  refine ⟨hok, fun e σ hσ => ?_, fun e σ q hσ hq => ?_, fun q n hq => ?_⟩
  · rw [show ((r.opens d).goes k (.waiting r.slots)).admitting e = _ from hadm e] at hσ
    split_ifs at hσ with he
    · exact ⟨k, by rw [hcall, if_pos rfl]; exact hσ⟩
    · obtain ⟨j, hj⟩ := h.queued e σ hσ
      refine ⟨j, ?_⟩
      rw [hcall, if_neg]
      · exact hj
      · rintro rfl
        cases hslot.symm.trans hj
  · rw [show ((r.opens d).goes k (.waiting r.slots)).admitting e = _ from hadm e] at hσ
    split_ifs at hσ with he
    · cases hσ
      rw [show ((r.opens d).goes k (.waiting r.slots)).slot r.slots = _ from r.opens_slot d] at hq
      cases hq
    · rw [show ((r.opens d).goes k (.waiting r.slots)).slot σ = r.slot σ from hold e σ hσ] at hq
      obtain ⟨j, hj⟩ := h.filled e σ q hσ hq
      refine ⟨j, ?_⟩
      rw [hcall, if_neg]
      · exact hj
      · rintro rfl
        rw [hj] at hslot
        cases hslot
  · refine ((h.gone q n hq).opens h.toOk).goes ⟨by simp, by simp, by simp, fun _ σ hσ => ?_⟩
    cases hσ
    rw [r.opens_slot]
    exact nofun

lemma Released.queue (h : Released r) (hs : r.queue k = some t) : Released t := by
  have hok := h.toOk.queue hs
  unfold Registry.queue at hs
  split at hs
  · rename_i hpc
    split at hs
    · rename_i σ hσ
      cases hs
      refine h.goes _ hok (by simp [hpc]) (by simp [hpc]) fun q n hq =>
        ⟨by simp, by simp, by simp, fun _ τ hτ => ?_⟩
      exact some.inj hτ ▸ h.mapped hq hσ
    · cases hs
      exact h.opens (by rw [hpc]; rfl) hok
  · cases hs

lemma Released.lock (h : Released r) (hs : r.lock k = some t) : Released t := by
  have hok := h.toOk.lock hs
  unfold Registry.lock at hs
  split at hs
  · rename_i σ hpc
    split_ifs at hs with hl
    split at hs
    · rename_i p hp
      cases hs
      refine h.goes _ hok (fun τ hτ => .inr fun d hd => ?_) (by simp [hpc])
        fun q n hq => .off rfl fun hk hpq => ?_
      · obtain rfl : σ = τ := by simpa [hpc] using hτ
        obtain ⟨j, hj⟩ := h.filled d σ p hd hp
        exact Registry.locked_spec h.toOk hl (by rw [hj]; rfl)
      · exact (h.gone q n hq).content k hk σ (by rw [hpc]; rfl) (hp.trans hpq)
    · cases hs
      exact h.goes _ hok (fun τ hτ => .inl (by simpa [hpc] using hτ)) (by simp [hpc])
        fun q n hq => (h.gone q n hq).stays (by rw [hpc]; rfl) (by simp) (by simp)
  · cases hs

lemma Released.check (h : Released r) (hs : r.check k = some t) : Released t := by
  have hok := h.toOk.check hs
  unfold Registry.check at hs
  split at hs
  · rename_i σ hpc
    split_ifs at hs with hcur
    · cases hs
      exact h.goes _ hok (fun τ hτ => .inl (by simpa [hpc] using hτ)) (by simp [hpc])
        fun q n hq => (h.gone q n hq).stays (by rw [hpc]; rfl) (by simp) (by simp)
    · cases hs
      refine h.goes _ hok (fun τ hτ => .inr fun d hd => ?_) (by simp [hpc])
        fun q n hq => .off rfl (by simp)
      have hdoc := ((h.calls k).slot τ hτ).2
      obtain rfl : σ = τ := by simpa [hpc] using hτ
      rw [(h.admitting d σ hd).2] at hdoc
      exact hcur (hdoc ▸ hd)
  · cases hs

lemma Released.recheck (h : Released r) (hallow : AllowsSlots r (.recheck k))
    (hs : r.recheck k = some t) : Released t := by
  have hok := h.toOk.recheck hs
  unfold Registry.recheck at hs
  split at hs
  · rename_i σ hpc
    split at hs
    · rename_i p hp
      cases hp.symm.trans (hallow.recheck k σ rfl hpc)
    · cases hs
      exact h.goes _ hok (fun τ hτ => .inl (by simpa [hpc] using hτ)) (by simp [hpc])
        fun q n hq => (h.gone q n hq).stays (by rw [hpc]; rfl) (by simp) (by simp)
  · cases hs

lemma Released.admission (h : Released r) {admitted : Bool} (hs : r.admission k admitted = some t) :
    Released t := by
  have hok := h.toOk.admission hs
  unfold Registry.admission at hs
  split at hs
  · rename_i σ hpc
    split_ifs at hs
    · cases hs
      have hadmitted : Released (r.admits (r.call k).document) :=
        ⟨(h.toOk.admits _).1, h.queued, h.filled, fun q n hq =>
          have hg := h.gone q n hq
          ⟨Nat.lt_succ_of_lt hg.made, hg.2, hg.3, hg.4, hg.5, hg.6, hg.7⟩⟩
      refine hadmitted.goes _ hok (fun τ hτ => .inl ?_) (fun τ q hq => ?_) fun q n hq =>
        (hadmitted.gone q n hq).stays ?_ ?_ (by simp)
      · have hcall : (r.call k).pc.slot = some τ := hτ
        simpa [hpc] using hcall
      · cases hpc.symm.trans hq
      · have hcall : (r.call k).pc.slot = some σ := by rw [hpc]; rfl
        exact hcall.symm
      · intro hmade
        have hlt := (h.gone q n hq).made
        rw [← some.inj hmade] at hlt
        exact Nat.lt_irrefl _ hlt
    · cases hs
      exact h.goes _ hok (fun τ hτ => .inl (by simpa [hpc] using hτ)) (by simp [hpc])
        fun q n hq => (h.gone q n hq).stays (by rw [hpc]; rfl) (by simp) (by simp)
  · cases hs

lemma Gone.fills {p : ℕ} (h : Gone r q n) (hp : p ≠ q) (d σ : ℕ) :
    Gone ((r.inserts d p).fills σ p) q n := by
  refine ⟨h.made, h.calls, fun e => ?_, h.inserts, h.releases, h.keeps, fun j hj τ hτ => ?_⟩
  · rw [show ((r.inserts d p).fills σ p).resident e = if e = d then some p else r.resident e from
      update_apply _ _ _ _]
    split_ifs
    · exact fun hc => hp (some.inj hc)
    · exact h.resident e
  · rw [show ((r.inserts d p).fills σ p).slot τ = if τ = σ then ⟨(r.slot σ).document, some p⟩
      else r.slot τ from update_apply _ _ _ _]
    split_ifs
    · exact fun hc => hp (some.inj hc)
    · exact h.content j hj τ hτ

lemma Released.insert (h : Released r) (hs : r.insert k = some t) : Released t := by
  have hok := h.toOk.insert hs
  unfold Registry.insert at hs
  split at hs
  · rename_i σ p hpc
    cases hs
    have hcall := ((r.inserts (r.call k).document p).fills σ p).goes_call k (.releasing σ (some p))
    have hslot : ∀ τ, (r.fills σ p).slot τ = if τ = σ then ⟨(r.slot σ).document, some p⟩
        else r.slot τ := fun τ => update_apply _ _ _ _
    refine ⟨hok, fun d τ hτ => ?_, fun d τ q hτ hq => ?_, fun q n hq => ?_⟩
    · obtain ⟨j, hj⟩ := h.queued d τ hτ
      refine ⟨j, ?_⟩
      rw [hcall]
      split_ifs with hjk
      · rw [hjk, hpc] at hj
        exact hj
      · exact hj
    · replace hq : ((r.fills σ p).slot τ).content = some q := hq
      rw [hslot] at hq
      split_ifs at hq with hτσ
      · cases hq
        exact ⟨k, by rw [hcall, if_pos rfl, hτσ]⟩
      · obtain ⟨j, hj⟩ := h.filled d τ q hτ hq
        refine ⟨j, ?_⟩
        rw [hcall, if_neg]
        · exact hj
        · rintro rfl
          cases hpc.symm.trans hj
    · have hg := h.gone q n hq
      have hpq : p ≠ q := by
        rintro rfl
        exact hg.inserts k (by rw [hpc]; rfl)
      have hfilled := hg.fills hpq (r.call k).document σ
      refine hfilled.goes ⟨by simp, ?_, ?_, fun hk τ hτ => ?_⟩
      · intro τ hc
        cases hc
        exact hpq rfl
      · exact fun _ hc => hpq (some.inj hc)
      · refine hfilled.content k hk τ ?_
        rw [show ((r.inserts (r.call k).document p).fills σ p).call k = r.call k from rfl, hpc]
        exact hτ
  · cases hs

/-- A slot that is closed is not mapped. -/
lemma Released.closes (h : Released r) (hd : r.admitting d = some σ) :
    (∀ e τ, (r.closes d).admitting e = some τ → r.admitting e = some τ) ∧
      ∀ e, (r.closes d).admitting e ≠ some σ := by
  have hadm : ∀ e, (r.closes d).admitting e = if e = d then none else r.admitting e :=
    fun e => update_apply _ _ _ _
  constructor
  · intro e τ hτ
    rw [hadm] at hτ
    split_ifs at hτ
    exact hτ
  · intro e hσ
    rw [hadm] at hσ
    split_ifs at hσ with he
    exact he ((h.admitting e σ hσ).2.symm.trans (h.admitting d σ hd).2)

lemma Released.releaseSlot (h : Released r) (hs : r.releaseSlot k = some t) : Released t := by
  have hok := h.toOk.releaseSlot hs
  unfold Registry.releaseSlot at hs
  split at hs
  · rename_i σ result hpc
    have hcur := (h.calls k).current σ (by rw [hpc]; rfl)
    rw [if_pos hcur] at hs
    cases hs
    obtain ⟨hsub, hclosed⟩ := h.closes hcur
    have hcall := (r.closes (r.call k).document).goes_call k (result.elim .finished .holding)
    have hother : ∀ e τ j, (r.closes (r.call k).document).admitting e = some τ →
        (r.call j).pc.slot = some τ → j ≠ k := by
      rintro e τ j hτ hj rfl
      rw [hpc] at hj
      exact hclosed e (hτ.trans hj.symm)
    refine ⟨hok, fun e τ hτ => ?_, fun e τ q hτ hq => ?_, fun q n hq => ?_⟩
    · obtain ⟨j, hj⟩ := h.queued e τ (hsub e τ hτ)
      exact ⟨j, by rw [hcall, if_neg (hother e τ j hτ hj)]; exact hj⟩
    · obtain ⟨j, hj⟩ := h.filled e τ q (hsub e τ hτ) hq
      exact ⟨j, by rw [hcall, if_neg (hother e τ j hτ (by rw [hj]; rfl))]; exact hj⟩
    · have hg := h.gone q n hq
      have hclosed : Gone (r.closes (r.call k).document) q n :=
        ⟨hg.1, hg.2, hg.3, hg.4, hg.5, hg.6, hg.7⟩
      refine hclosed.goes (.off (by cases result <;> rfl) fun _ hc => ?_)
      cases result with
      | none => cases hc
      | some p => exact hg.releases k σ (some.inj hc ▸ hpc)
  · cases hs

lemma Released.dropped (h : Released r) (hs : r.dropped k = some t) : Released t := by
  have hok := h.toOk.dropped hs
  unfold Registry.dropped at hs
  split at hs
  · rename_i p hpc
    cases hs
    exact h.goes _ hok (by simp [hpc]) (by simp [hpc]) fun q n hq => .off rfl (by simp)
  · cases hs

/-- One more call, at no slot and with nothing that is gone. -/
lemma Released.starts (h : Released r) {c : Caller} (hok : Ok (r.starts c))
    (hs : c.pc.slot = none) (hkeeps : ∀ q n, (q, n) ∈ r.retired → c.pc.keeps ≠ some q) :
    Released (r.starts c) := by
  have hcall : ∀ j, (r.starts c).call j = if j = r.calls then c else r.call j :=
    fun j => update_apply _ _ _ _
  have hother : ∀ j τ, (r.call j).pc.slot = some τ → j ≠ r.calls := by
    rintro j τ hj rfl
    refine Nat.lt_irrefl _ ((h.calls r.calls).bound fun hdone => ?_)
    rw [hdone] at hj
    cases hj
  refine ⟨hok, fun e τ hτ => ?_, fun e τ q hτ hq => ?_, fun q n hq => ?_⟩
  · obtain ⟨j, hj⟩ := h.queued e τ hτ
    exact ⟨j, by rw [hcall, if_neg (hother j τ hj)]; exact hj⟩
  · obtain ⟨j, hj⟩ := h.filled e τ q hτ hq
    exact ⟨j, by rw [hcall, if_neg (hother j τ (by rw [hj]; rfl))]; exact hj⟩
  · have hg := h.gone q n hq
    have ha : Avoids r r.calls c.pc q n := .off hs fun _ => hkeeps q n hq
    refine ⟨hg.1, Nat.le_succ_of_le hg.2, hg.3, fun j => ?_, fun j σ => ?_, fun j hj => ?_,
      fun j hj σ hσ => ?_⟩
    · rw [hcall]
      split_ifs
      · exact ha.inserts
      · exact hg.inserts j
    · rw [hcall]
      split_ifs
      · exact ha.releases σ
      · exact hg.releases j σ
    · rw [hcall]
      split_ifs
      · exact hkeeps q n hq
      · exact hg.keeps j hj
    · rw [hcall] at hσ
      split_ifs at hσ
      · cases hs.symm.trans hσ
      · exact hg.content j hj σ hσ

lemma Released.look (h : Released r) (hs : r.look d = some t) : Released t := by
  have hok := h.toOk.look hs
  obtain ⟨p, hp, rfl⟩ := map_eq_some_iff.1 hs
  exact h.starts hok rfl fun q n hq hc => (h.gone q n hq).resident d (hp.trans hc)

/-- The sequencers and the sweeps do not matter. -/
lemma Released.frame (h : Released r) (hok : Ok t) (hmade : t.made = r.made)
    (hres : t.resident = r.resident) (hslot : t.slot = r.slot)
    (hadm : t.admitting = r.admitting) (hcalls : t.calls = r.calls) (hcall : t.call = r.call)
    (hret : t.retired = r.retired) : Released t := by
  refine ⟨hok, ?_, ?_, fun q n hq => ?_⟩
  · rw [hadm, hcall]
    exact h.queued
  · rw [hadm, hcall, hslot]
    exact h.filled
  · have hg := h.gone q n (hret ▸ hq)
    refine ⟨hmade ▸ hg.made, hcalls ▸ hg.calls, hres ▸ hg.resident, hcall ▸ hg.inserts,
      hcall ▸ hg.releases, hcall ▸ hg.keeps, ?_⟩
    rw [hcall, hslot]
    exact hg.content

lemma Released.calling (h : Released r) {f : Sequencer → Sequencer} (hok : Ok t)
    (hs : r.calling k f = some t) : Released t := by
  unfold Registry.calling at hs
  split at hs
  · cases hs
    exact h.frame hok rfl rfl rfl rfl rfl rfl rfl
  · cases hs

lemma Released.sample (h : Released r) (hs : r.sample i = some t) : Released t := by
  have hok := h.toOk.sample hs
  unfold Registry.sample at hs
  split at hs
  · cases hs
    exact h.frame hok rfl rfl rfl rfl rfl rfl rfl
  · cases hs
    exact h.frame hok rfl rfl rfl rfl rfl rfl rfl
  · cases hs
    exact h.frame hok rfl rfl rfl rfl rfl rfl rfl
  · cases hs

/-- A sequencer leaves the table after the call that admitted it has released its slot. -/
lemma Released.removes (h : Released r) (d : ℕ)
    (hd : ∀ q, r.resident d = some q → (r.sequencer q).fenced = true →
      ∀ k σ, (r.call k).pc ≠ .releasing σ (some q)) : Released (r.removes d) := by
  refine ⟨h.toOk.removes d, h.queued, h.filled, fun q n hq => ?_⟩
  have hold : (q, n) ∈ r.retired → Gone (r.removes d) q n := by
    intro hq
    have hg := h.gone q n hq
    exact ⟨hg.1, hg.2, fun e he => hg.3 e (Registry.resident_of_removes he), hg.4, hg.5, hg.6, hg.7⟩
  unfold Registry.removes at hq
  dsimp only at hq
  split at hq
  · rename_i p hp
    split_ifs at hq with hf
    · rcases mem_cons.1 hq with heq | hq
      · cases heq
        obtain ⟨hmade, hdoc⟩ := h.resident d q hp
        have hbound : ∀ j ≥ r.calls, (r.call j).pc = .finished := by
          intro j hj
          by_contra hne
          exact Nat.lt_irrefl _ (((h.calls j).bound hne).trans_le hj)
        refine ⟨hmade, le_rfl, fun e he => ?_, h.toOk.not_inserts hp, hd q hp hf,
          fun j hj => ?_, fun j hj σ hσ => ?_⟩
        · have hdoc' := (h.resident e q (Registry.resident_of_removes he)).2
          rw [r.removes_resident, if_pos (hdoc'.symm.trans hdoc)] at he
          cases he
        · change (r.call j).pc.keeps ≠ some q
          rw [hbound j hj]
          simp
        · change (r.call j).pc.slot = some σ at hσ
          rw [hbound j hj] at hσ
          cases hσ
      · exact hold hq
    · exact hold hq
  · exact hold hq

lemma Released.foldl_removes (l : List ℕ) (h : Released r)
    (hl : ∀ d ∈ l, ∀ q, r.resident d = some q → (r.sequencer q).fenced = true →
      ∀ k σ, (r.call k).pc ≠ .releasing σ (some q)) : Released (l.foldl Registry.removes r) := by
  induction l generalizing r with
  | nil => exact h
  | cons d l ih =>
    refine ih (h.removes d (hl d (mem_cons_self ..))) fun e he q hq => ?_
    exact hl e (mem_cons_of_mem d he) q (Registry.resident_of_removes hq)

lemma Unheld.releases (h : Unheld r q i) (j σ : ℕ) : (r.call j).pc ≠ .releasing σ (some q) :=
  fun hj => (h.calls j).2 (by rw [hj]; rfl)

lemma Released.removesIdle (h : Released r) (d : ℕ) : Released (r.removesIdle d) := by
  unfold Registry.removesIdle
  split
  · rename_i q hq
    split_ifs with hcount
    · refine h.removes d fun p hp _ => ?_
      obtain rfl := some.inj (hq.symm.trans hp)
      exact (h.toOk.unheld (i := 0) hq (.inl hcount)).releases
    · exact h
  · exact h

lemma Released.foldl_removesIdle (l : List ℕ) (h : Released r) :
    Released (l.foldl Registry.removesIdle r) := by
  induction l generalizing r with
  | nil => exact h
  | cons d l ih => exact ih (h.removesIdle d)

lemma Released.sweeping (h : Released r) (i : ℕ) : Released (r.sweeping i .finished) :=
  h.frame (h.toOk.sweeping i .finished (absurd rfl) (by simp)) rfl rfl rfl rfl rfl rfl rfl

lemma Released.finish (h : Released r) (hallow : AllowsSlots r (.finish i))
    (hs : r.finish i = some t) : Released t := by
  unfold Registry.finish at hs
  split at hs
  · rename_i found hw
    cases hs
    exact (h.foldl_removesIdle found).sweeping i
  · rename_i found hw
    cases hs
    exact (h.foldl_removes found (hallow.finish i found rfl hw)).sweeping i
  · rename_i q hw
    dsimp only at hs
    split_ifs at hs with hcount
    · cases hs
      refine (h.removes _ fun p hp _ => ?_).sweeping i
      obtain rfl := some.inj (hcount.1.symm.trans hp)
      exact (h.toOk.unheld (i := i) hcount.1 (.inr ⟨hcount.2, by rw [hw]; simp⟩)).releases
    · cases hs
      exact h.sweeping i
  · cases hs

lemma Released.step (h : Released r) {op : Op} (hallow : AllowsSlots r op)
    (hs : step r op = some t) : Released t := by
  have hok := h.toOk.step hs
  cases op with
  | get d =>
    cases hs
    exact h.starts hok rfl (by simp)
  | find k => exact h.find hs
  | queue k => exact h.queue hs
  | lock k => exact h.lock hs
  | check k => exact h.check hs
  | recheck k => exact h.recheck hallow hs
  | admission k admitted => exact h.admission hs
  | insert k => exact h.insert hs
  | releaseSlot k => exact h.releaseSlot hs
  | drop k => exact h.dropped hs
  | resident d => exact h.look hs
  | ingest k => exact h.calling hok hs
  | flush k take => exact h.calling hok hs
  | subscribe k => exact h.calling hok hs
  | unsubscribe k => exact h.calling hok hs
  | fence k => exact h.calling hok hs
  | retireIdle =>
    cases hs
    exact h.frame hok rfl rfl rfl rfl rfl rfl rfl
  | retireFenced =>
    cases hs
    exact h.frame hok rfl rfl rfl rfl rfl rfl rfl
  | retireEmpty d =>
    obtain ⟨q, -, rfl⟩ := map_eq_some_iff.1 hs
    exact h.frame hok rfl rfl rfl rfl rfl rfl rfl
  | sample i => exact h.sample hs
  | finish i => exact h.finish hallow hs

lemma Reachable.released (h : Reachable AllowsSlots r) : Released r := by
  induction h with
  | first => exact .empty
  | step op _ hallow hs ih => exact ih.step hallow hs

/-- Whether a step is neither a second look at the table nor the end of a sweep. -/
def Op.quiet : Op → Bool
  | .recheck _ | .finish _ => false
  | _ => true

lemma Reachable.quiet (ops : List Op) (h : Reachable AllowsSlots r)
    (hs : Resident.runOps r ops = some t) (hquiet : ops.all Op.quiet = true) :
    Reachable AllowsSlots t := by
  refine h.runOps ops (fun op hop s => ⟨?_, ?_⟩) hs
  · rintro k σ rfl
    cases all_eq_true.1 hquiet _ hop
  · rintro i found rfl
    cases all_eq_true.1 hquiet _ hop

/-- In every run in which no call finds its document resident the second time, and no
fenced sequencer is taken out before the call that admitted it has released its slot: when
no call of `get` is under way the table of admissions is empty, and a sequencer that has
been fenced and taken out is held by no call that began after that. -/
theorem slots_released (h : Reachable AllowsSlots r) :
    ((∀ k, (r.call k).pc.inFlight = false) → ∀ d, r.admitting d = none) ∧
      ∀ q n, (q, n) ∈ r.retired → ∀ k ≥ n, (r.call k).pc ≠ .holding q := by
  have hr := h.released
  refine ⟨fun hdone d => ?_, fun q n hq k hk hpc => ?_⟩
  · cases hσ : r.admitting d with
    | none => rfl
    | some σ =>
      obtain ⟨k, hk⟩ := hr.queued d σ hσ
      have hflight := hdone k
      cases hpc : (r.call k).pc <;> simp [hpc] at hk hflight
  · exact (hr.gone q n hq).keeps k hk (by rw [hpc]; rfl)

/-- A call looks at the table a second time. -/
def sampleLook : Registry :=
  (runOps .empty [.get 1, .find 0, .queue 0, .lock 0, .check 0]).get rfl

/-- It admits a sequencer, which is fenced, and a sweep has found it. -/
def sampleFenced : Registry :=
  (runOps sampleLook [.recheck 0, .admission 0 true, .insert 0, .releaseSlot 0, .fence 0,
    .retireFenced, .sample 0]).get rfl

/-- The sequencer is taken out, and somebody asks for the document. -/
def sampleAsked : Registry :=
  (runOps sampleFenced [.finish 0, .drop 0, .get 1, .find 1, .queue 1]).get rfl

lemma sampleAsked_reachable : Reachable AllowsSlots sampleAsked := by
  have hlook : Reachable AllowsSlots sampleLook :=
    Reachable.first.quiet [.get 1, .find 0, .queue 0, .lock 0, .check 0] rfl rfl
  have hmiss : Reachable AllowsSlots ((step sampleLook (.recheck 0)).get rfl) := by
    refine hlook.step (.recheck 0) ⟨?_, nofun⟩ rfl
    rintro k σ h -
    cases h
    rfl
  have hfenced : Reachable AllowsSlots sampleFenced :=
    hmiss.quiet [.admission 0 true, .insert 0, .releaseSlot 0, .fence 0, .retireFenced, .sample 0]
      rfl rfl
  have hout : Reachable AllowsSlots ((step sampleFenced (.finish 0)).get rfl) := by
    refine hfenced.step (.finish 0) ⟨nofun, ?_⟩ rfl
    rintro i found h - d - q - - k σ hpc
    have hk := hfenced.ok.bound hpc (by simp)
    obtain rfl : k = 0 := Nat.lt_one_iff.1 hk
    cases hpc
  exact hout.quiet [.drop 0, .get 1, .find 1, .queue 1] rfl rfl

theorem slots_released_asked : (sampleAsked.call 1).pc ≠ .holding 0 :=
  (slots_released sampleAsked_reachable).2 0 1 (by decide) 1 le_rfl

/-- Two calls for one document, the second of which finds it resident under a slot of its
own; the sequencer is fenced and taken out, and somebody asks again. -/
def sampleLeak : List Op :=
  [.get 1, .get 1, .find 0, .find 1, .queue 0, .lock 0, .check 0, .recheck 0, .admission 0 true,
    .insert 0, .releaseSlot 0, .queue 1, .lock 1, .check 1, .recheck 1, .fence 0, .retireFenced,
    .sample 0, .finish 0, .drop 0, .drop 1, .get 1, .find 2, .queue 2, .lock 2]

/-- A slot stays mapped with no call under way, and a later call is given the sequencer
that has been fenced and taken out. -/
theorem slot_not_released : ∃ r, Reachable (fun _ _ => True) r ∧
    (∀ k < r.calls, (r.call k).pc.inFlight = false) ∧ r.admitting 1 ≠ none ∧
      (0, 2) ∈ r.retired ∧ (r.call 2).pc = .holding 0 :=
  ⟨(runOps .empty sampleLeak).get rfl, Reachable.first.runOps sampleLeak (fun _ _ _ => trivial) rfl, by decide,
    by decide, by decide, rfl⟩

end Steps

end LibrePaper.Resident
