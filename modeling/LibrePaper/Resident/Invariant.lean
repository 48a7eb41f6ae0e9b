import LibrePaper.Library.Lists
import LibrePaper.Resident.Registry

/-!
# The invariant of the registry

A call between finding its slot mapped and releasing it is the only one for its document,
and a sequencer that it has admitted is nobody else's until it is in the table.
-/
namespace LibrePaper.Resident
open Library List Option Function

/-- Whether a call admits a sequencer that is not in the table. -/
@[simp] def Pc.admits : Pc → Bool
  | .admitting _ | .inserting _ _ => true
  | _ => false

/-- What call `k` relies on where it is. -/
structure Fits (r : Registry) (k : ℕ) (c : Caller) : Prop where
  bound : c.pc ≠ .finished → k < r.calls
  slot : ∀ σ, c.pc.slot = some σ → σ < r.slots ∧ (r.slot σ).document = c.document
  current : ∀ σ, c.pc.current = some σ → r.admitting c.document = some σ
  admits : c.pc.admits = true → r.resident c.document = none
  inserts : ∀ q, c.pc.inserts = some q → q < r.made ∧ r.sequencer q = ⟨c.document, false, 0, 0⟩
  keeps : ∀ q, c.pc.keeps = some q → q < r.made

/-- Only a call that is about to insert it has the sequencer. -/
structure Fresh (r : Registry) (q : ℕ) : Prop where
  resident : ∀ d, r.resident d ≠ some q
  content : ∀ σ, (r.slot σ).content ≠ some q
  keeps : ∀ k, (r.call k).pc.keeps ≠ some q
  clones : ∀ i, q ∉ (r.sweep i).clones

structure Ok (r : Registry) : Prop where
  resident : ∀ d q, r.resident d = some q → q < r.made ∧ (r.sequencer q).document = d
  admitting : ∀ d σ, r.admitting d = some σ → σ < r.slots ∧ (r.slot σ).document = d
  content : ∀ σ q, (r.slot σ).content = some q → q < r.made
  sweeps : ∀ i, r.sweep i ≠ .finished → i < r.sweeps
  clones : ∀ i, ∀ q ∈ (r.sweep i).clones, q < r.made
  calls : ∀ k, Fits r k (r.call k)
  exclusive : ∀ j k σ, (r.call j).pc.locks = some σ → (r.call k).pc.locks = some σ → j = k
  fresh : ∀ k q, (r.call k).pc.inserts = some q → Fresh r q

lemma Ok.empty : Ok .empty := by
  constructor <;> simp [Registry.empty, Pc.locks, Pc.inserts, Sweep.clones]
  intro k
  constructor <;> simp [Pc.slot, Pc.current, Pc.admits, Pc.inserts, Pc.keeps]

variable {pc : Pc} {σ q : ℕ}

lemma Pc.locks_of_current (h : pc.current = some σ) : pc.locks = some σ := by
  cases pc <;> first | exact h | cases h

lemma Pc.current_of_admits (h : pc.admits = true) : ∃ σ, pc.current = some σ := by
  cases pc <;> first | exact ⟨_, rfl⟩ | cases h

lemma Pc.admits_of_inserts (h : pc.inserts = some q) : pc.admits = true := by
  cases pc <;> first | rfl | cases h

section Changes

variable {r : Registry} {k : ℕ}

variable {i j d : ℕ}

lemma Ok.unique (h : Ok r) {τ : ℕ} (hi : (r.call i).pc.current = some σ)
    (hj : (r.call j).pc.current = some τ) (hd : (r.call i).document = (r.call j).document) :
    i = j := by
  have hσ := (h.calls i).current σ hi
  have hτ := (h.calls j).current τ hj
  obtain rfl : σ = τ := some.inj (hσ.symm.trans (hd ▸ hτ))
  exact h.exclusive i j σ (Pc.locks_of_current hi) (Pc.locks_of_current hj)

lemma Registry.goes_call (r : Registry) (k : ℕ) (pc : Pc) (j : ℕ) :
    (r.goes k pc).call j = if j = k then ⟨(r.call k).document, pc⟩ else r.call j :=
  update_apply _ _ _ _

/-- A call moves on, to where what it relies on holds. -/
lemma Ok.goes (h : Ok r) (pc : Pc) (hfits : Fits r k ⟨(r.call k).document, pc⟩)
    (hlocks : ∀ σ, pc.locks = some σ → ∀ j ≠ k, (r.call j).pc.locks ≠ some σ)
    (hkeeps : ∀ q, pc.keeps = some q → ∀ j ≠ k, (r.call j).pc.inserts ≠ some q)
    (hinserts : ∀ q, pc.inserts = some q → Fresh r q) : Ok (r.goes k pc) := by
  have hcall := r.goes_call k pc
  refine ⟨h.resident, h.admitting, h.content, h.sweeps, h.clones, ?_, ?_, ?_⟩
  · intro j
    rw [hcall]
    split_ifs with hj
    · subst hj
      exact ⟨hfits.1, hfits.2, hfits.3, hfits.4, hfits.5, hfits.6⟩
    · have hc := h.calls j
      exact ⟨hc.1, hc.2, hc.3, hc.4, hc.5, hc.6⟩
  · intro i j σ hi hj
    rw [hcall] at hi hj
    split_ifs at hi hj with hik hjk hjk
    · exact hik.trans hjk.symm
    · exact absurd hj (hlocks σ hi j hjk)
    · exact absurd hi (hlocks σ hj i hik)
    · exact h.exclusive i j σ hi hj
  · intro j q hj
    rw [hcall] at hj
    have hq : Fresh r q ∧ pc.keeps ≠ some q := by
      split_ifs at hj with hjk
      · refine ⟨hinserts q hj, fun hk => ?_⟩
        cases pc with
        | inserting σ p => cases hk
        | _ => cases hj
      · exact ⟨h.fresh j q hj, fun hk => hkeeps q hk j hjk hj⟩
    refine ⟨hq.1.resident, hq.1.content, fun i hi => ?_, hq.1.clones⟩
    rw [hcall] at hi
    split_ifs at hi
    · exact hq.2 hi
    · exact hq.1.keeps i hi

/-- One more call. -/
lemma Ok.starts (h : Ok r) (c : Caller) (hfits : Fits { r with calls := r.calls + 1 } r.calls c)
    (hlocks : c.pc.locks = none) (hinserts : c.pc.inserts = none)
    (hkeeps : ∀ q, c.pc.keeps = some q → ∀ j, (r.call j).pc.inserts ≠ some q) :
    Ok (r.starts c) := by
  have hcall : ∀ j, (r.starts c).call j = if j = r.calls then c else r.call j :=
    fun j => update_apply _ _ _ _
  refine ⟨h.resident, h.admitting, h.content, h.sweeps, h.clones, ?_, ?_, ?_⟩
  · intro j
    rw [hcall]
    split_ifs with hj
    · exact hj ▸ ⟨hfits.1, hfits.2, hfits.3, hfits.4, hfits.5, hfits.6⟩
    · have hc := h.calls j
      exact ⟨fun hpc => Nat.lt_succ_of_lt (hc.1 hpc), hc.2, hc.3, hc.4, hc.5, hc.6⟩
  · intro i j σ hi hj
    rw [hcall] at hi hj
    split_ifs at hi hj with hik hjk hjk
    · exact hik.trans hjk.symm
    · cases hlocks.symm.trans hi
    · cases hlocks.symm.trans hj
    · exact h.exclusive i j σ hi hj
  · intro j q hj
    rw [hcall] at hj
    split_ifs at hj with hjk
    · cases hinserts.symm.trans hj
    · obtain ⟨hres, hcon, hkee, hclo⟩ := h.fresh j q hj
      refine ⟨hres, hcon, fun i hi => ?_, hclo⟩
      rw [hcall] at hi
      split_ifs at hi
      · exact hkeeps q hi j hj
      · exact hkee i hi

/-- A slot is filled with a sequencer that is nobody's to insert. -/
lemma Ok.fills (h : Ok r) (σ : ℕ) (hq : q < r.made)
    (hinserts : ∀ j, (r.call j).pc.inserts ≠ some q) : Ok (r.fills σ q) := by
  have hslot : ∀ τ, (r.fills σ q).slot τ = if τ = σ then ⟨(r.slot σ).document, some q⟩
      else r.slot τ := fun τ => update_apply _ _ _ _
  have hdoc : ∀ τ, ((r.fills σ q).slot τ).document = (r.slot τ).document := by
    intro τ
    rw [hslot]
    split_ifs with hτ
    · rw [hτ]
    · rfl
  refine ⟨h.resident, fun d τ hτ => ?_, fun τ p hp => ?_, h.sweeps, h.clones, fun j => ?_,
    h.exclusive, fun j p hj => ?_⟩
  · rw [hdoc]
    exact h.admitting d τ hτ
  · rw [hslot] at hp
    split_ifs at hp
    · exact some.inj hp ▸ hq
    · exact h.content τ p hp
  · have hc := h.calls j
    refine ⟨hc.1, fun τ hτ => ?_, hc.3, hc.4, hc.5, hc.6⟩
    rw [hdoc]
    exact hc.2 τ hτ
  · obtain ⟨hres, hcon, hkee, hclo⟩ := h.fresh j p hj
    refine ⟨hres, fun τ hτ => ?_, hkee, hclo⟩
    rw [hslot] at hτ
    split_ifs at hτ
    · cases hτ
      exact hinserts j hj
    · exact hcon τ hτ

/-- A document that has no slot gets one. -/
lemma Ok.opens (h : Ok r) (hd : r.admitting d = none) : Ok (r.opens d) := by
  have hslot : ∀ τ, (r.opens d).slot τ = if τ = r.slots then ⟨d, none⟩ else r.slot τ :=
    fun τ => update_apply _ _ _ _
  have hadm : ∀ e, (r.opens d).admitting e = if e = d then some r.slots else r.admitting e :=
    fun e => update_apply _ _ _ _
  have hold : ∀ τ, τ < r.slots → (r.opens d).slot τ = r.slot τ := fun τ hτ => by
    rw [hslot, if_neg (Nat.ne_of_lt hτ)]
  refine ⟨h.resident, fun e τ hτ => ?_, fun τ p hp => ?_, h.sweeps, h.clones, fun j => ?_,
    h.exclusive, fun j p hj => ?_⟩
  · rw [hadm] at hτ
    split_ifs at hτ with he
    · cases hτ
      rw [hslot, if_pos rfl]
      exact ⟨Nat.lt_succ_self _, he.symm⟩
    · obtain ⟨hlt, hdoc⟩ := h.admitting e τ hτ
      rw [hold τ hlt]
      exact ⟨Nat.lt_succ_of_lt hlt, hdoc⟩
  · rw [hslot] at hp
    split_ifs at hp
    exact h.content τ p hp
  · have hc := h.calls j
    refine ⟨hc.1, fun τ hτ => ?_, fun τ hτ => ?_, hc.4, hc.5, hc.6⟩
    · obtain ⟨hlt, hdoc⟩ := hc.slot τ hτ
      rw [hold τ hlt]
      exact ⟨Nat.lt_succ_of_lt hlt, hdoc⟩
    · have hcur := hc.current τ hτ
      rw [hadm, if_neg]
      · exact hcur
      · intro hdoc
        cases hd.symm.trans (hdoc ▸ hcur)
  · obtain ⟨hres, hcon, hkee, hclo⟩ := h.fresh j p hj
    refine ⟨hres, fun τ hτ => ?_, hkee, hclo⟩
    rw [hslot] at hτ
    split_ifs at hτ
    exact hcon τ hτ

/-- A slot that no call relies on is closed. -/
lemma Ok.closes (h : Ok r) (hd : ∀ j, (r.call j).document = d → (r.call j).pc.current = none) :
    Ok (r.closes d) := by
  have hadm : ∀ e, (r.closes d).admitting e = if e = d then none else r.admitting e :=
    fun e => update_apply _ _ _ _
  refine ⟨h.resident, fun e τ hτ => ?_, h.content, h.sweeps, h.clones, fun j => ?_,
    h.exclusive, fun j p hj => ?_⟩
  · rw [hadm] at hτ
    split_ifs at hτ
    exact h.admitting e τ hτ
  · have hc := h.calls j
    refine ⟨hc.1, hc.2, fun τ hτ => ?_, hc.4, hc.5, hc.6⟩
    rw [hadm, if_neg]
    · exact hc.current τ hτ
    · intro hdoc
      cases (hd j hdoc).symm.trans hτ
  · obtain ⟨hres, hcon, hkee, hclo⟩ := h.fresh j p hj
    exact ⟨hres, hcon, hkee, hclo⟩

/-- A sequencer is admitted that nobody has yet. -/
lemma Ok.admits (h : Ok r) (d : ℕ) : Ok (r.admits d) ∧ Fresh (r.admits d) r.made := by
  have hseq : ∀ q, q < r.made → (r.admits d).sequencer q = r.sequencer q := fun q hq => by
    exact update_of_ne (Nat.ne_of_lt hq) _ _
  refine ⟨⟨fun e q hq => ?_, h.admitting, fun τ q hq => ?_, h.sweeps, fun i q hq => ?_,
    fun j => ?_, h.exclusive, fun j q hj => ?_⟩, ?_⟩
  · obtain ⟨hlt, hdoc⟩ := h.resident e q hq
    rw [hseq q hlt]
    exact ⟨Nat.lt_succ_of_lt hlt, hdoc⟩
  · exact Nat.lt_succ_of_lt (h.content τ q hq)
  · exact Nat.lt_succ_of_lt (h.clones i q hq)
  · have hc := h.calls j
    refine ⟨hc.1, hc.2, hc.3, hc.4, fun q hq => ?_, fun q hq => ?_⟩
    · obtain ⟨hlt, hs⟩ := hc.inserts q hq
      rw [hseq q hlt]
      exact ⟨Nat.lt_succ_of_lt hlt, hs⟩
    · exact Nat.lt_succ_of_lt (hc.keeps q hq)
  · obtain ⟨hres, hcon, hkee, hclo⟩ := h.fresh j q hj
    exact ⟨hres, hcon, hkee, hclo⟩
  · refine ⟨fun e hq => ?_, fun τ hq => ?_, fun j hq => ?_, fun i hq => ?_⟩
    · exact absurd (h.resident e _ hq).1 (Nat.lt_irrefl _)
    · exact absurd (h.content τ _ hq) (Nat.lt_irrefl _)
    · exact absurd ((h.calls j).keeps _ hq) (Nat.lt_irrefl _)
    · exact absurd (h.clones i _ hq) (Nat.lt_irrefl _)

/-- A sequencer goes into the table of a document that nobody else admits for. -/
lemma Ok.inserts (h : Ok r) (hq : q < r.made) (hdoc : (r.sequencer q).document = d)
    (hadmits : ∀ j, (r.call j).document = d → (r.call j).pc.admits = false)
    (hinserts : ∀ j, (r.call j).pc.inserts ≠ some q) : Ok (r.inserts d q) := by
  have hres : ∀ e, (r.inserts d q).resident e = if e = d then some q else r.resident e :=
    fun e => update_apply _ _ _ _
  refine ⟨fun e p hp => ?_, h.admitting, h.content, h.sweeps, h.clones, fun j => ?_, h.exclusive,
    fun j p hj => ?_⟩
  · rw [hres] at hp
    split_ifs at hp with he
    · exact some.inj hp ▸ ⟨hq, hdoc.trans he.symm⟩
    · exact h.resident e p hp
  · have hc := h.calls j
    refine ⟨hc.1, hc.2, hc.3, fun ha => ?_, hc.5, hc.6⟩
    rw [hres, if_neg]
    · exact hc.admits ha
    · intro hd
      cases (hadmits j hd).symm.trans ha
  · obtain ⟨hresident, hcon, hkee, hclo⟩ := h.fresh j p hj
    refine ⟨fun e he => ?_, hcon, hkee, hclo⟩
    rw [hres] at he
    split_ifs at he
    · cases he
      exact hinserts j hj
    · exact hresident e he

/-- A sequencer that nobody inserts changes, for the same document. -/
lemma Ok.touches (h : Ok r) {s : Sequencer} (hdoc : s.document = (r.sequencer q).document)
    (hinserts : ∀ j, (r.call j).pc.inserts ≠ some q) : Ok (r.touches q s) := by
  have hseq : ∀ p, (r.touches q s).sequencer p = if p = q then s else r.sequencer p :=
    fun p => update_apply _ _ _ _
  refine ⟨fun e p hp => ?_, h.admitting, h.content, h.sweeps, h.clones, fun j => ?_, h.exclusive,
    fun j p hj => ?_⟩
  · obtain ⟨hlt, hd⟩ := h.resident e p hp
    refine ⟨hlt, ?_⟩
    rw [hseq]
    split_ifs with hp
    · exact hdoc.trans (hp ▸ hd)
    · exact hd
  · have hc := h.calls j
    refine ⟨hc.1, hc.2, hc.3, hc.4, fun p hp => ?_, hc.6⟩
    rw [hseq, if_neg]
    · exact hc.inserts p hp
    · rintro rfl
      exact hinserts j hp
  · obtain ⟨hres, hcon, hkee, hclo⟩ := h.fresh j p hj
    exact ⟨hres, hcon, hkee, hclo⟩

/-- A sweep goes on, with no clone that it did not have or that the table has not. -/
lemma Ok.sweeping (h : Ok r) (i : ℕ) (w : Sweep) (hi : w ≠ .finished → i < r.sweeps)
    (hw : ∀ q ∈ w.clones, q ∈ (r.sweep i).clones) : Ok (r.sweeping i w) := by
  have hsweep : ∀ j, (r.sweeping i w).sweep j = if j = i then w else r.sweep j :=
    fun j => update_apply _ _ _ _
  have hsub : ∀ j, ∀ q ∈ ((r.sweeping i w).sweep j).clones, q ∈ (r.sweep j).clones := by
    intro j q hq
    rw [hsweep] at hq
    split_ifs at hq with hj
    · exact hj ▸ hw q hq
    · exact hq
  refine ⟨h.resident, h.admitting, h.content, fun j hj => ?_,
    fun j q hq => h.clones j q (hsub j q hq), fun j => ?_, h.exclusive, fun j p hj => ?_⟩
  · rw [hsweep] at hj
    split_ifs at hj with hji
    · exact hji ▸ hi hj
    · exact h.sweeps j hj
  · have hc := h.calls j
    exact ⟨hc.1, hc.2, hc.3, hc.4, hc.5, hc.6⟩
  · obtain ⟨hres, hcon, hkee, hclo⟩ := h.fresh j p hj
    exact ⟨hres, hcon, hkee, fun j' hp => hclo j' (hsub j' p hp)⟩

/-- A sweep begins with clones from the table. -/
lemma Ok.sets (h : Ok r) (w : Sweep) (hw : ∀ q ∈ w.clones, ∃ d, r.resident d = some q) :
    Ok (r.sets w) := by
  have hsweep : ∀ j, (r.sets w).sweep j = if j = r.sweeps then w else r.sweep j :=
    fun j => update_apply _ _ _ _
  refine ⟨h.resident, h.admitting, h.content, fun j hj => ?_, fun j q hq => ?_, fun j => ?_,
    h.exclusive, fun j p hj => ?_⟩
  · rw [hsweep] at hj
    split_ifs at hj with hji
    · exact hji ▸ Nat.lt_succ_self _
    · exact Nat.lt_succ_of_lt (h.sweeps j hj)
  · rw [hsweep] at hq
    split_ifs at hq
    · obtain ⟨d, hd⟩ := hw q hq
      exact (h.resident d q hd).1
    · exact h.clones j q hq
  · have hc := h.calls j
    exact ⟨hc.1, hc.2, hc.3, hc.4, hc.5, hc.6⟩
  · obtain ⟨hres, hcon, hkee, hclo⟩ := h.fresh j p hj
    refine ⟨hres, hcon, hkee, fun j' hp => ?_⟩
    rw [hsweep] at hp
    split_ifs at hp
    · obtain ⟨d, hd⟩ := hw p hp
      exact hres d hd
    · exact hclo j' hp

lemma Registry.removes_resident (r : Registry) (d e : ℕ) :
    (r.removes d).resident e = if e = d then none else r.resident e :=
  update_apply _ _ _ _

lemma Registry.resident_of_removes {e : ℕ} (h : (r.removes d).resident e = some q) :
    r.resident e = some q := by
  rw [r.removes_resident] at h
  split_ifs at h
  exact h

/-- A sequencer leaves the table. -/
lemma Ok.removes (h : Ok r) (d : ℕ) : Ok (r.removes d) := by
  refine ⟨fun e q he => h.resident e q (Registry.resident_of_removes he), h.admitting, h.content, h.sweeps, h.clones,
    fun j => ?_, h.exclusive, fun j p hj => ?_⟩
  · have hc := h.calls j
    refine ⟨hc.1, hc.2, hc.3, fun ha => ?_, hc.5, hc.6⟩
    have hnone : r.resident ((r.removes d).call j).document = none := hc.admits ha
    rw [r.removes_resident, hnone, ite_self]
  · obtain ⟨hres, hcon, hkee, hclo⟩ := h.fresh j p hj
    exact ⟨fun e he => hres e (Registry.resident_of_removes he), hcon, hkee, hclo⟩

/-- A call that is nowhere in particular. -/
lemma Fits.plain (hk : k < r.calls) (hs : pc.slot = none) (hkeeps : pc.keeps = none) :
    Fits r k ⟨d, pc⟩ := by
  cases pc with
  | start => exact ⟨fun _ => hk, by simp, by simp, by simp, by simp, by simp⟩
  | queueing => exact ⟨fun _ => hk, by simp, by simp, by simp, by simp, by simp⟩
  | finished => exact ⟨fun _ => hk, by simp, by simp, by simp, by simp, by simp⟩
  | holding q => cases hkeeps
  | _ => cases hs

lemma Fits.holding (hk : k < r.calls) (hq : q < r.made) : Fits r k ⟨d, .holding q⟩ :=
  ⟨fun _ => hk, by simp, by simp, by simp, by simp, by simpa using hq⟩

variable {t : Registry}

lemma Ok.bound (h : Ok r) (hpc : (r.call k).pc = pc) (hne : pc ≠ .finished) : k < r.calls :=
  (h.calls k).bound (hpc ▸ hne)

lemma Ok.not_inserts (h : Ok r) (hq : r.resident d = some q) (j : ℕ) :
    (r.call j).pc.inserts ≠ some q :=
  fun hj => (h.fresh j q hj).resident d hq

lemma Ok.find (h : Ok r) (hs : r.find k = some t) : Ok t := by
  unfold Registry.find at hs
  split at hs
  · rename_i hpc
    have hk := h.bound hpc (by simp)
    split at hs
    · rename_i q hq
      cases hs
      exact h.goes _ (.holding hk (h.resident _ q hq).1) (by simp)
        (fun p hp j _ => some.inj hp ▸ h.not_inserts hq j) (by simp)
    · cases hs
      exact h.goes _ (.plain hk rfl rfl) (by simp) (by simp) (by simp)
  · cases hs

lemma Ok.queue (h : Ok r) (hs : r.queue k = some t) : Ok t := by
  unfold Registry.queue at hs
  split at hs
  · rename_i hpc
    have hk := h.bound hpc (by simp)
    split at hs
    · rename_i σ hσ
      cases hs
      refine h.goes _ ⟨fun _ => hk, fun τ hτ => ?_, by simp, by simp, by simp, by simp⟩ (by simp)
        (by simp) (by simp)
      exact some.inj hτ ▸ h.admitting _ σ hσ
    · rename_i hnone
      cases hs
      refine (h.opens hnone).goes _ ⟨fun _ => hk, fun τ hτ => ?_, by simp, by simp, by simp,
        by simp⟩ (by simp) (by simp) (by simp)
      cases hτ
      exact (h.opens hnone).admitting _ _ (update_self _ _ _)
  · cases hs

lemma Registry.locked_spec (h : Ok r) (hl : ¬ r.locked σ = true) :
    (r.call j).pc.locks ≠ some σ := by
  intro hj
  have hlt : j < r.calls := (h.calls j).bound fun hdone => by rw [hdone] at hj; cases hj
  exact hl (any_eq_true.2 ⟨j, mem_range.2 hlt, decide_eq_true hj⟩)

lemma Ok.lock (h : Ok r) (hs : r.lock k = some t) : Ok t := by
  unfold Registry.lock at hs
  split at hs
  · rename_i σ hpc
    have hk := h.bound hpc (by simp)
    have hslot := (h.calls k).slot σ (by rw [hpc]; rfl)
    split_ifs at hs with hl
    split at hs
    · rename_i q hq
      cases hs
      exact h.goes _ (.holding hk (h.content σ q hq)) (by simp)
        (fun p hp j _ hj => (h.fresh j p hj).content σ (hq.trans hp)) (by simp)
    · cases hs
      refine h.goes _ ⟨fun _ => hk, fun τ hτ => ?_, by simp, by simp, by simp, by simp⟩
        (fun τ hτ j _ => ?_) (by simp) (by simp)
      · exact some.inj hτ ▸ hslot
      · exact some.inj hτ ▸ Registry.locked_spec h hl
  · cases hs

lemma Ok.locks_alone (h : Ok r) (hk : (r.call k).pc.locks = some σ) :
    ∀ τ, some σ = some τ → ∀ j ≠ k, (r.call j).pc.locks ≠ some τ := by
  intro τ hτ j hj hjσ
  exact hj (h.exclusive j k τ hjσ (hk.trans hτ))

lemma Ok.check (h : Ok r) (hs : r.check k = some t) : Ok t := by
  unfold Registry.check at hs
  split at hs
  · rename_i σ hpc
    have hk := h.bound hpc (by simp)
    have hslot := (h.calls k).slot σ (by rw [hpc]; rfl)
    split_ifs at hs with hcur
    · cases hs
      exact h.goes _ ⟨fun _ => hk, fun τ hτ => some.inj hτ ▸ hslot,
        fun τ hτ => some.inj hτ ▸ hcur, by simp, by simp, by simp⟩
        (h.locks_alone (by rw [hpc]; rfl)) (by simp) (by simp)
    · cases hs
      exact h.goes _ (.plain hk rfl rfl) (by simp) (by simp) (by simp)
  · cases hs

lemma Ok.recheck (h : Ok r) (hs : r.recheck k = some t) : Ok t := by
  unfold Registry.recheck at hs
  split at hs
  · rename_i σ hpc
    have hk := h.bound hpc (by simp)
    have hslot := (h.calls k).slot σ (by rw [hpc]; rfl)
    have hcur := (h.calls k).current σ (by rw [hpc]; rfl)
    split at hs
    · rename_i q hq
      cases hs
      have hmade := (h.resident _ q hq).1
      exact (h.fills σ hmade (h.not_inserts hq)).goes _ (.holding hk hmade) (by simp)
        (fun p hp j _ => some.inj hp ▸ h.not_inserts hq j) (by simp)
    · rename_i hnone
      cases hs
      exact h.goes _ ⟨fun _ => hk, fun τ hτ => some.inj hτ ▸ hslot,
        fun τ hτ => some.inj hτ ▸ hcur, fun _ => hnone, by simp, by simp⟩
        (h.locks_alone (by rw [hpc]; rfl)) (by simp) (by simp)
  · cases hs

lemma Ok.admission (h : Ok r) {admitted : Bool} (hs : r.admission k admitted = some t) : Ok t := by
  unfold Registry.admission at hs
  split at hs
  · rename_i σ hpc
    have hk := h.bound hpc (by simp)
    have hslot := (h.calls k).slot σ (by rw [hpc]; rfl)
    have hcur := (h.calls k).current σ (by rw [hpc]; rfl)
    have hnone := (h.calls k).admits (by rw [hpc]; rfl)
    split_ifs at hs
    · cases hs
      obtain ⟨hok, hfresh⟩ := h.admits (r.call k).document
      refine hok.goes _ ⟨fun _ => hk, fun τ hτ => some.inj hτ ▸ hslot,
        fun τ hτ => some.inj hτ ▸ hcur, fun _ => hnone, fun q hq => ?_, by simp⟩
        (h.locks_alone (by rw [hpc]; rfl)) (by simp) (fun q hq => some.inj hq ▸ hfresh)
      cases hq
      exact ⟨Nat.lt_succ_self _, update_self _ _ _⟩
    · cases hs
      exact h.goes _ ⟨fun _ => hk, fun τ hτ => some.inj hτ ▸ hslot,
        fun τ hτ => some.inj hτ ▸ hcur, by simp, by simp, by simp⟩
        (h.locks_alone (by rw [hpc]; rfl)) (by simp) (by simp)
  · cases hs

lemma Ok.insert (h : Ok r) (hs : r.insert k = some t) : Ok t := by
  unfold Registry.insert at hs
  split at hs
  · rename_i σ q hpc
    cases hs
    have hk := h.bound hpc (by simp)
    have hslot := (h.calls k).slot σ (by rw [hpc]; rfl)
    have hcur : (r.call k).pc.current = some σ := by rw [hpc]; rfl
    have hins : (r.call k).pc.inserts = some q := by rw [hpc]; rfl
    obtain ⟨hmade, hseq⟩ := (h.calls k).inserts q hins
    have halone : ∀ j, (r.call j).pc.admits = true →
        (r.call j).document = (r.call k).document → j = k := by
      intro j hj hd
      obtain ⟨τ, hτ⟩ := Pc.current_of_admits hj
      exact h.unique hτ hcur hd
    have hother : ∀ j ≠ k, (r.call j).pc.inserts ≠ some q := by
      intro j hj hjq
      refine hj (halone j (Pc.admits_of_inserts hjq) ?_)
      have hdoc := ((h.calls j).inserts q hjq).2.symm.trans hseq
      exact congrArg Sequencer.document hdoc
    have hgone : Ok (r.goes k (.releasing σ (some q))) :=
      h.goes _ ⟨fun _ => hk, fun τ hτ => some.inj hτ ▸ hslot,
        fun τ hτ => some.inj hτ ▸ (h.calls k).current σ hcur, by simp, by simp,
        fun p hp => some.inj hp ▸ hmade⟩ (h.locks_alone (by rw [hpc]; rfl))
        (fun p hp j hj => some.inj hp ▸ hother j hj) (by simp)
    have hnone : ∀ j, ((r.goes k (.releasing σ (some q))).call j).pc.inserts ≠ some q := by
      intro j
      rw [r.goes_call]
      split_ifs with hj
      · simp
      · exact hother j hj
    refine (hgone.inserts (d := (r.call k).document) hmade (congrArg Sequencer.document hseq)
      (fun j hd => ?_) hnone).fills σ hmade hnone
    rw [r.goes_call] at hd ⊢
    split_ifs at hd ⊢ with hj
    · rfl
    · exact Bool.eq_false_iff.2 fun ha => hj (halone j ha hd)
  · cases hs

/-- A call comes back from its slot. -/
lemma Ok.leaves (h : Ok r) {result : Option ℕ} (hpc : (r.call k).pc = .releasing σ result) :
    Ok (r.goes k (result.elim .finished .holding)) := by
  have hk := h.bound hpc (by simp)
  cases result with
  | none => exact h.goes _ (.plain hk rfl rfl) (by simp) (by simp) (by simp)
  | some q =>
    have hkeeps : (r.call k).pc.keeps = some q := by rw [hpc]; rfl
    exact h.goes _ (.holding hk ((h.calls k).keeps q hkeeps)) (by simp)
      (fun p hp j _ hj => (h.fresh j p hj).keeps k (hkeeps.trans hp)) (by simp)

lemma Ok.releaseSlot (h : Ok r) (hs : r.releaseSlot k = some t) : Ok t := by
  unfold Registry.releaseSlot at hs
  split at hs
  · rename_i σ result hpc
    cases hs
    have hcur : (r.call k).pc.current = some σ := by rw [hpc]; rfl
    rw [if_pos ((h.calls k).current σ hcur)]
    refine (h.leaves hpc).closes fun j hd => ?_
    rw [r.goes_call] at hd ⊢
    split_ifs at hd ⊢ with hj
    · cases result <;> rfl
    · cases hτ : (r.call j).pc.current with
      | none => rfl
      | some τ => exact absurd (h.unique hτ hcur hd) hj
  · cases hs

lemma Ok.dropped (h : Ok r) (hs : r.dropped k = some t) : Ok t := by
  unfold Registry.dropped at hs
  split at hs
  · rename_i q hpc
    cases hs
    exact h.goes _ (.plain (h.bound hpc (by simp)) rfl rfl) (by simp) (by simp) (by simp)
  · cases hs

lemma Ok.look (h : Ok r) (hs : r.look d = some t) : Ok t := by
  obtain ⟨q, hq, rfl⟩ := map_eq_some_iff.1 hs
  exact h.starts _ (.holding (Nat.lt_succ_self _) (h.resident d q hq).1) rfl rfl
    (fun p hp j => some.inj hp ▸ h.not_inserts hq j)

lemma Ok.calling (h : Ok r) (f : Sequencer → Sequencer)
    (hf : ∀ s, (f s).document = s.document) (hs : r.calling k f = some t) : Ok t := by
  unfold Registry.calling at hs
  split at hs
  · rename_i q hpc
    cases hs
    exact h.touches (hf _) fun j hj => (h.fresh j q hj).keeps k (by rw [hpc]; rfl)
  · cases hs

lemma Registry.mem_all (hq : q ∈ r.all) : ∃ d, r.resident d = some q :=
  ⟨_, of_decide_eq_true (mem_filter.1 hq).2⟩

lemma Ok.sample (h : Ok r) (hs : r.sample i = some t) : Ok t := by
  unfold Registry.sample at hs
  split at hs
  · rename_i q todo found hw
    cases hs
    refine h.sweeping i _ (fun _ => h.sweeps i (by simp [hw])) fun p hp => ?_
    rw [hw]
    exact mem_cons_of_mem q hp
  · rename_i q todo found hw
    cases hs
    refine h.sweeping i _ (fun _ => h.sweeps i (by simp [hw])) fun p hp => ?_
    rw [hw]
    exact mem_cons_of_mem q hp
  · rename_i q hw
    cases hs
    refine h.sweeping i _ (fun _ => h.sweeps i (by simp [hw])) fun p hp => ?_
    rw [hw]
    split_ifs at hp
    · exact hp
    · cases hp
  · cases hs

lemma Ok.removesIdle (h : Ok r) (d : ℕ) : Ok (r.removesIdle d) := by
  unfold Registry.removesIdle
  split
  · split_ifs
    · exact h.removes d
    · exact h
  · exact h

lemma Ok.foldl {f : Registry → ℕ → Registry} (hf : ∀ r d, Ok r → Ok (f r d)) (l : List ℕ)
    (h : Ok r) : Ok (l.foldl f r) := by
  induction l generalizing r with
  | nil => exact h
  | cons d l ih => exact ih (hf r d h)

lemma Ok.finish (h : Ok r) (hs : r.finish i = some t) : Ok t := by
  unfold Registry.finish at hs
  split at hs
  · rename_i found hw
    cases hs
    exact (Ok.foldl (fun r d hr => hr.removesIdle d) found h).sweeping i .finished (absurd rfl)
      (by simp)
  · rename_i found hw
    cases hs
    exact (Ok.foldl (fun r d hr => hr.removes d) found h).sweeping i .finished (absurd rfl) (by simp)
  · rename_i q hw
    dsimp only at hs
    split_ifs at hs
    · cases hs
      exact (h.removes _).sweeping i .finished (absurd rfl) (by simp)
    · cases hs
      exact h.sweeping i .finished (absurd rfl) (by simp)
  · cases hs

lemma Sequencer.ingest_document (s : Sequencer) : s.ingest.document = s.document := by
  unfold Sequencer.ingest
  split <;> rfl

lemma Sequencer.subscribe_document (s : Sequencer) : s.subscribe.document = s.document := by
  unfold Sequencer.subscribe
  split <;> rfl

lemma Ok.step (h : Ok r) {op : Op} (hs : step r op = some t) : Ok t := by
  cases op with
  | get d =>
    cases hs
    exact h.starts _ (.plain (Nat.lt_succ_self _) rfl rfl) rfl rfl (by simp)
  | find k => exact h.find hs
  | queue k => exact h.queue hs
  | lock k => exact h.lock hs
  | check k => exact h.check hs
  | recheck k => exact h.recheck hs
  | admission k admitted => exact h.admission hs
  | insert k => exact h.insert hs
  | releaseSlot k => exact h.releaseSlot hs
  | drop k => exact h.dropped hs
  | resident d => exact h.look hs
  | ingest k => exact h.calling _ Sequencer.ingest_document hs
  | flush k take => exact h.calling (Sequencer.flush take) (fun _ => rfl) hs
  | subscribe k => exact h.calling _ Sequencer.subscribe_document hs
  | unsubscribe k => exact h.calling Sequencer.unsubscribe (fun _ => rfl) hs
  | fence k => exact h.calling Sequencer.fence (fun _ => rfl) hs
  | retireIdle =>
    cases hs
    exact h.sets _ fun _ => Registry.mem_all
  | retireFenced =>
    cases hs
    exact h.sets _ fun _ => Registry.mem_all
  | retireEmpty d =>
    obtain ⟨q, hq, rfl⟩ := map_eq_some_iff.1 hs
    exact h.sets _ fun p hp => ⟨d, mem_singleton.1 hp ▸ hq⟩
  | sample i => exact h.sample hs
  | finish i => exact h.finish hs

end Changes

lemma Reachable.ok {allowed : Registry → Op → Prop} {r : Registry} (h : Reachable allowed r) :
    Ok r := by
  induction h with
  | first => exact .empty
  | step op _ _ hs ih => exact ih.step hs

/-- In every run at most one call admits a sequencer for a document, while none is resident; what a
call has admitted is new, and nothing else has it until it is in the table; and the table has a
sequencer under one document only. -/
theorem admission_single {allowed : Registry → Op → Prop} {r : Registry}
    (h : Reachable allowed r) :
    (∀ j k, (r.call j).pc.admits = true → (r.call k).pc.admits = true →
      (r.call j).document = (r.call k).document →
        j = k ∧ r.resident (r.call k).document = none) ∧
    (∀ k q, (r.call k).pc.inserts = some q →
      r.sequencer q = ⟨(r.call k).document, false, 0, 0⟩ ∧ Fresh r q ∧
        ∀ j, (r.call j).pc.inserts = some q → j = k) ∧
    ∀ d e q, r.resident d = some q → r.resident e = some q → d = e := by
  have hok := h.ok
  have hone : ∀ j k, (r.call j).pc.admits = true → (r.call k).pc.admits = true →
      (r.call j).document = (r.call k).document → j = k := by
    intro j k hj hk hd
    obtain ⟨σ, hσ⟩ := Pc.current_of_admits hj
    obtain ⟨τ, hτ⟩ := Pc.current_of_admits hk
    exact hok.unique hσ hτ hd
  refine ⟨fun j k hj hk hd => ⟨hone j k hj hk hd, (hok.calls k).admits hk⟩, fun k q hk => ?_,
    fun d e q hd he => (hok.resident d q hd).2.symm.trans (hok.resident e q he).2⟩
  have hnew := ((hok.calls k).inserts q hk).2
  refine ⟨hnew, hok.fresh k q hk, fun j hj => ?_⟩
  have hdoc := congrArg Sequencer.document (((hok.calls j).inserts q hj).2.symm.trans hnew)
  exact hone j k (Pc.admits_of_inserts hj) (Pc.admits_of_inserts hk) hdoc

/-- A call has admitted a sequencer. -/
theorem admission_single_one : Fresh ((runOps .empty [.get 1, .find 0, .queue 0, .lock 0, .check 0,
    .recheck 0, .admission 0 true]).get rfl) 0 :=
  ((admission_single (Reachable.first.runOps _ (fun _ _ _ => trivial)
    (Option.some_get rfl).symm)).2.1 0 0 rfl).2.1

section Count

variable {r : Registry} {q : ℕ}

lemma Ok.callers_pos (h : Ok r) {k : ℕ}
    (hk : (r.call k).pc.inserts = some q ∨ (r.call k).pc.keeps = some q) : 0 < r.callers q := by
  have hlt : k < r.calls := (h.calls k).bound fun hdone => by simp [hdone] at hk
  exact countP_pos_iff.2 ⟨k, mem_range.2 hlt, decide_eq_true hk⟩

lemma Ok.filled_pos (h : Ok r) (ha : r.alive σ = true) (hq : (r.slot σ).content = some q) :
    0 < r.filled q := by
  have hlt : σ < r.slots := by
    rcases Bool.or_eq_true_iff.1 ha with ha | ha
    · exact (h.admitting _ σ (of_decide_eq_true ha)).1
    · obtain ⟨k, -, hk⟩ := any_eq_true.1 ha
      exact ((h.calls k).slot σ (of_decide_eq_true hk)).1
  refine countP_pos_iff.2 ⟨σ, mem_range.2 hlt, ?_⟩
  rw [ha, decide_eq_true hq]
  rfl

variable {i : ℕ}

lemma Ok.sweep_lt (h : Ok r) (hi : q ∈ (r.sweep i).clones) : i < r.sweeps :=
  h.sweeps i fun hdone => by simp [hdone] at hi

lemma Ok.swept_pos (h : Ok r) (hi : q ∈ (r.sweep i).clones) : 0 < r.swept q :=
  (count_pos_iff.2 hi).trans_le
    (le_sum_map (f := fun i => (r.sweep i).clones.count q) (mem_range.2 (h.sweep_lt hi)))

/-- One sweep has the only clone of the sweeps. -/
lemma Ok.swept_alone (h : Ok r) {j : ℕ} (hi : q ∈ (r.sweep i).clones) (hone : r.swept q ≤ 1)
    (hj : q ∈ (r.sweep j).clones) : j = i := by
  by_contra hne
  have hsum := add_le_sum_map (f := fun i => (r.sweep i).clones.count q) (mem_range.2 (h.sweep_lt hj)) (mem_range.2 (h.sweep_lt hi)) hne
  have hci := count_pos_iff.2 hi
  have hcj := count_pos_iff.2 hj
  unfold Registry.swept at hone
  omega

/-- What has a clone of `q`, the table and the sweep `i` apart. -/
structure Unheld (r : Registry) (q i : ℕ) : Prop where
  calls : ∀ k, (r.call k).pc.inserts ≠ some q ∧ (r.call k).pc.keeps ≠ some q
  slots : ∀ σ, r.alive σ = true → (r.slot σ).content ≠ some q
  sweeps : ∀ j ≠ i, q ∉ (r.sweep j).clones

/-- A count of one for the table, and one for the sweep when it has a clone, leaves no
other. -/
lemma Ok.unheld (h : Ok r) {d : ℕ} (hq : r.resident d = some q)
    (hcount : r.strongCount q = 1 ∨ r.strongCount q = 2 ∧ q ∈ (r.sweep i).clones) :
    Unheld r q i := by
  have htable : r.resident (r.sequencer q).document = some q := (h.resident d q hq).2 ▸ hq
  have hsum : r.strongCount q = 1 + r.callers q + r.filled q + r.swept q := by
    rw [Registry.strongCount, if_pos htable]
  have hzero : r.callers q = 0 ∧ r.filled q = 0 := by
    rcases hcount with hone | ⟨htwo, hi⟩
    · omega
    · have := h.swept_pos hi
      omega
  refine ⟨fun k => ⟨fun hk => ?_, fun hk => ?_⟩, fun σ ha hσ => ?_, fun j hj hmem => ?_⟩
  · have := h.callers_pos (.inl hk)
    omega
  · have := h.callers_pos (.inr hk)
    omega
  · have := h.filled_pos ha hσ
    omega
  · have := h.swept_pos hmem
    rcases hcount with hone | ⟨htwo, hi⟩
    · omega
    · exact hj (h.swept_alone hi (by omega) hmem)

end Count

end LibrePaper.Resident
