import Mathlib

/-!
# Longest rising runs

The values of an array, some of them missing, and the longest run of indices along which they rise.
A table holds, for each index, the length of the longest run that ends there and the index before it
in such a run. Following it back from the best end gives a longest run.
-/
namespace LibrePaper.Library
open List Option
variable {α : Type*} [LinearOrder α]

/-- The indices ascend, and their values are there and rise. -/
structure Rises (a : ℕ → Option α) (n : ℕ) (s : List ℕ) : Prop where
  present : ∀ i ∈ s, i < n ∧ (a i).isSome
  rising : s.Pairwise fun i j => i < j ∧ ∃ x y, a i = some x ∧ a j = some y ∧ x < y

variable {n i : ℕ} {s : List ℕ}

lemma Rises.between {a : ℕ → Option α} (h : Rises a n s) {j : ℕ} (hi : i ∈ s) (hj : j ∈ s)
    (hij : i < j) : i < j ∧ ∃ x y, a i = some x ∧ a j = some y ∧ x < y := by
  have hpairs := h.rising
  induction s with
  | nil => cases hi
  | cons k s ih =>
    rw [pairwise_cons] at hpairs
    rcases mem_cons.1 hi with heq | hi
    · rcases mem_cons.1 hj with heq' | hj
      · omega
      · exact heq ▸ hpairs.1 j hj
    · rcases mem_cons.1 hj with heq | hj
      · have hlt := (hpairs.1 i hi).1
        omega
      · exact ih ⟨fun l hl => h.present l (mem_cons_of_mem _ hl), hpairs.2⟩ hi hj hpairs.2

/-- The index `j` goes before an index with the value `x`, if that makes a longer run. -/
def extendRun (a : ℕ → Option α) (t : ℕ → ℕ × Option ℕ) (x : α) (c : ℕ × Option ℕ) (j : ℕ) :
    ℕ × Option ℕ :=
  match a j with
  | some y => if y < x ∧ c.1 < (t j).1 + 1 then ((t j).1 + 1, some j) else c
  | none => c

/-- The entry of an index, from the entries before it. -/
def runCell (a : ℕ → Option α) (t : ℕ → ℕ × Option ℕ) (i : ℕ) : ℕ × Option ℕ :=
  match a i with
  | none => (0, none)
  | some x => (List.range i).foldl (extendRun a t x) (1, none)

/-- The table after its first entries are made. -/
def runTable (a : ℕ → Option α) : ℕ → ℕ → ℕ × Option ℕ
  | 0 => fun _ => (1, none)
  | i + 1 => Function.update (runTable a i) i (runCell a (runTable a i) i)

/-- The first index with the longest run. -/
def runEnd (t : ℕ → ℕ × Option ℕ) (n : ℕ) : Option ℕ :=
  (List.range n).foldl (fun last i =>
    if (t i).1 = 0 then last
    else match last with
      | none => some i
      | some j => if (t j).1 < (t i).1 then some i else last) none

/-- The run that ends at an index, from its end. No run is longer than `fuel`. -/
def runBack (t : ℕ → ℕ × Option ℕ) : ℕ → Option ℕ → List ℕ
  | fuel + 1, some i => i :: runBack t fuel (t i).2
  | _, _ => []

def longestRun (a : ℕ → Option α) (n : ℕ) : List ℕ :=
  runBack (runTable a n) n (runEnd (runTable a n) n)

/-- What an entry says. -/
structure CellOk (a : ℕ → Option α) (t : ℕ → ℕ × Option ℕ) (i : ℕ) : Prop where
  missing : a i = none → t i = (0, none)
  present : ∀ x, a i = some x → t i = (1, none) ∨
    ∃ j y, j < i ∧ a j = some y ∧ y < x ∧ t i = ((t j).1 + 1, some j)
  best : ∀ x, a i = some x → ∀ j < i, ∀ y, a j = some y → y < x → (t j).1 + 1 ≤ (t i).1

lemma extendRun_spec (a : ℕ → Option α) (t : ℕ → ℕ × Option ℕ) (x : α) (k : ℕ) :
    let c := (range k).foldl (extendRun a t x) (1, none)
    (c = (1, none) ∨ ∃ j y, j < k ∧ a j = some y ∧ y < x ∧ c = ((t j).1 + 1, some j)) ∧
      ∀ j < k, ∀ y, a j = some y → y < x → (t j).1 + 1 ≤ c.1 := by
  induction k with
  | zero => exact ⟨.inl rfl, fun j hj => absurd hj (Nat.not_lt_zero _)⟩
  | succ k ih =>
    rw [range_succ, foldl_concat]
    set c := (range k).foldl (extendRun a t x) (1, none)
    obtain ⟨hfrom, hbest⟩ := ih
    have hkeep : (c = (1, none) ∨
        ∃ j y, j < k + 1 ∧ a j = some y ∧ y < x ∧ c = ((t j).1 + 1, some j)) := by
      rcases hfrom with h | ⟨j, y, hj, h⟩
      · exact .inl h
      · exact .inr ⟨j, y, Nat.lt_succ_of_lt hj, h⟩
    cases hk : a k with
    | none =>
      have hstep : extendRun a t x c k = c := by rw [extendRun, hk]
      rw [hstep]
      refine ⟨hkeep, fun j hj y hy hlt => ?_⟩
      rcases Nat.lt_succ_iff_lt_or_eq.1 hj with hj | rfl
      · exact hbest j hj y hy hlt
      · cases hk.symm.trans hy
    | some z =>
      by_cases hlonger : z < x ∧ c.1 < (t k).1 + 1
      · have hstep : extendRun a t x c k = ((t k).1 + 1, some k) := by
          rw [extendRun, hk]
          exact if_pos hlonger
        rw [hstep]
        refine ⟨.inr ⟨k, z, Nat.lt_succ_self k, hk, hlonger.1, rfl⟩, fun j hj y hy hlt => ?_⟩
        rcases Nat.lt_succ_iff_lt_or_eq.1 hj with hj | rfl
        · exact (hbest j hj y hy hlt).trans hlonger.2.le
        · exact le_rfl
      · have hstep : extendRun a t x c k = c := by
          rw [extendRun, hk]
          exact if_neg hlonger
        rw [hstep]
        refine ⟨hkeep, fun j hj y hy hlt => ?_⟩
        rcases Nat.lt_succ_iff_lt_or_eq.1 hj with hj | rfl
        · exact hbest j hj y hy hlt
        · cases hk.symm.trans hy
          exact Nat.le_of_not_lt fun hno => hlonger ⟨hlt, hno⟩

lemma runCell_congr (a : ℕ → Option α) {t t' : ℕ → ℕ × Option ℕ} (h : ∀ j < i, t j = t' j) :
    runCell a t i = runCell a t' i := by
  unfold runCell
  cases a i with
  | none => rfl
  | some x =>
    refine foldl_ext _ _ _ fun c j hj => ?_
    rw [extendRun, extendRun, h j (mem_range.1 hj)]

lemma runTable_of_lt (a : ℕ → Option α) (h : i < n) :
    runTable a n i = runCell a (runTable a n) i := by
  induction n with
  | zero => exact absurd h (Nat.not_lt_zero _)
  | succ n ih =>
    have hsame : ∀ j < n, runTable a (n + 1) j = runTable a n j := fun j hj =>
      Function.update_of_ne hj.ne _ _
    rcases Nat.lt_succ_iff_lt_or_eq.1 h with hi | rfl
    · rw [hsame i hi, ih hi]
      exact runCell_congr a fun j hj => (hsame j (hj.trans hi)).symm
    · rw [runTable, Function.update_self]
      exact runCell_congr a fun j hj => (hsame j hj).symm

lemma runTable_ok (a : ℕ → Option α) (h : i < n) : CellOk a (runTable a n) i := by
  have hcell := runTable_of_lt a h
  refine ⟨fun hi => ?_, fun x hi => ?_, fun x hi => ?_⟩ <;> rw [runCell, hi] at hcell
  · exact hcell
  · rw [hcell]
    exact (extendRun_spec a _ x i).1
  · rw [hcell]
    exact (extendRun_spec a _ x i).2

variable {a : ℕ → Option α} {n : ℕ}

lemma one_le_best (hi : i < n) (hsome : (a i).isSome) : 1 ≤ (runTable a n i).1 := by
  obtain ⟨x, hx⟩ := isSome_iff_exists.1 hsome
  rcases (runTable_ok a hi).present x hx with h | ⟨j, y, -, -, -, h⟩ <;> rw [h]
  exact Nat.succ_le_succ (Nat.zero_le _)

/-- A run that ends at an index is at most as long as its entry says. -/
lemma Rises.length_le (h : Rises a n (s ++ [i])) : (s ++ [i]).length ≤ (runTable a n i).1 := by
  induction s using reverseRecOn generalizing i with
  | nil =>
    obtain ⟨hi, hsome⟩ := h.present i mem_cons_self
    exact one_le_best hi hsome
  | append_singleton s j ih =>
    have hprefix : Rises a n (s ++ [j]) :=
      ⟨fun k hk => h.present k (mem_append_left _ hk), (pairwise_append.1 h.rising).1⟩
    have hlen := ih hprefix
    obtain ⟨hji, y, x, hy, hx, hlt⟩ := (pairwise_append.1 h.rising).2.2 j
      (mem_append_right _ mem_cons_self) i mem_cons_self
    have hi := (h.present i (mem_append_right _ mem_cons_self)).1
    have hbest := (runTable_ok a hi).best x hx j hji y hy hlt
    rw [length_append, length_singleton]
    omega

/-- Following an index back gives a run of the length that its entry says. -/
lemma runBack_spec {fuel : ℕ} (hi : i < n) (hfuel : i < fuel) (hsome : (a i).isSome) :
    Rises a n (runBack (runTable a n) fuel (some i)).reverse ∧
      (runBack (runTable a n) fuel (some i)).length = (runTable a n i).1 := by
  induction fuel generalizing i with
  | zero => exact absurd hfuel (Nat.not_lt_zero _)
  | succ fuel ih =>
    obtain ⟨x, hx⟩ := isSome_iff_exists.1 hsome
    have hsingle : ∀ k ∈ [i], k < n ∧ (a k).isSome := fun k hk =>
      mem_singleton.1 hk ▸ ⟨hi, hsome⟩
    rw [runBack]
    rcases (runTable_ok a hi).present x hx with h | ⟨j, y, hji, hy, hlt, h⟩
    · have hnil : runBack (runTable a n) fuel none = [] := by cases fuel <;> rfl
      rw [h, hnil]
      exact ⟨⟨hsingle, pairwise_singleton _ _⟩, rfl⟩
    · have hj := hji.trans hi
      have hjsome : (a j).isSome := isSome_iff_exists.2 ⟨y, hy⟩
      obtain ⟨hrises, hlen⟩ := ih hj (by omega) hjsome
      rw [h, reverse_cons, length_cons, hlen]
      refine ⟨⟨?_, ?_⟩, rfl⟩
      · exact forall_mem_append.2 ⟨hrises.present, hsingle⟩
      · refine pairwise_append.2 ⟨hrises.rising, pairwise_singleton _ _, ?_⟩
        intro k hk l hl
        obtain rfl := mem_singleton.1 hl
        have hhead : runBack (runTable a n) fuel (some j) =
            j :: runBack (runTable a n) (fuel - 1) (runTable a n j).2 := by
          obtain ⟨m, rfl⟩ : ∃ m, fuel = m + 1 := ⟨fuel - 1, by omega⟩
          rfl
        have hrising := hrises.rising
        rw [hhead, reverse_cons] at hk hrising
        rcases mem_append.1 hk with hk | hk
        · obtain ⟨hkj, z, y', hz, hy', hzy⟩ := (pairwise_append.1 hrising).2.2 k hk j
            mem_cons_self
          cases hy.symm.trans hy'
          exact ⟨hkj.trans hji, z, x, hz, hx, hzy.trans hlt⟩
        · obtain rfl := mem_singleton.1 hk
          exact ⟨hji, y, x, hy, hx, hlt⟩

/-- The end that is chosen has the best entry. -/
lemma runEnd_spec (t : ℕ → ℕ × Option ℕ) (k : ℕ) :
    (runEnd t k = none → ∀ i < k, (t i).1 = 0) ∧
      ∀ j, runEnd t k = some j → j < k ∧ (t j).1 ≠ 0 ∧ ∀ i < k, (t i).1 ≤ (t j).1 := by
  induction k with
  | zero => exact ⟨fun _ i hi => absurd hi (Nat.not_lt_zero _), nofun⟩
  | succ k ih =>
    have hstep : runEnd t (k + 1) = if (t k).1 = 0 then runEnd t k
        else match runEnd t k with
          | none => some k
          | some j => if (t j).1 < (t k).1 then some k else runEnd t k := by
      rw [runEnd, range_succ, foldl_concat]
      rfl
    obtain ⟨hnone, hsome⟩ := ih
    rw [hstep]
    by_cases hzero : (t k).1 = 0
    · rw [if_pos hzero]
      refine ⟨fun h i hi => ?_, fun j hj => ?_⟩
      · rcases Nat.lt_succ_iff_lt_or_eq.1 hi with hi | rfl
        · exact hnone h i hi
        · exact hzero
      · obtain ⟨hlt, hne, hbest⟩ := hsome j hj
        refine ⟨Nat.lt_succ_of_lt hlt, hne, fun i hi => ?_⟩
        rcases Nat.lt_succ_iff_lt_or_eq.1 hi with hi | rfl
        · exact hbest i hi
        · omega
    · rw [if_neg hzero]
      cases hlast : runEnd t k with
      | none =>
        refine ⟨fun h => (by cases h), fun j hj => ?_⟩
        cases hj
        refine ⟨Nat.lt_succ_self k, hzero, fun i hi => ?_⟩
        rcases Nat.lt_succ_iff_lt_or_eq.1 hi with hi | rfl
        · rw [hnone hlast i hi]
          exact Nat.zero_le _
        · exact le_rfl
      | some j =>
        obtain ⟨hlt, hne, hbest⟩ := hsome j hlast
        by_cases hbetter : (t j).1 < (t k).1
        · simp only [if_pos hbetter]
          refine ⟨fun h => (by cases h), fun l hl => ?_⟩
          cases hl
          refine ⟨Nat.lt_succ_self k, hzero, fun i hi => ?_⟩
          rcases Nat.lt_succ_iff_lt_or_eq.1 hi with hi | rfl
          · exact (hbest i hi).trans hbetter.le
          · exact le_rfl
        · simp only [if_neg hbetter]
          refine ⟨fun h => (by cases h), fun l hl => ?_⟩
          cases hl
          refine ⟨Nat.lt_succ_of_lt hlt, hne, fun i hi => ?_⟩
          rcases Nat.lt_succ_iff_lt_or_eq.1 hi with hi | rfl
          · exact hbest i hi
          · exact Nat.le_of_not_lt hbetter

lemma longestRun_rises (a : ℕ → Option α) (n : ℕ) : Rises a n (longestRun a n).reverse := by
  rw [longestRun]
  cases hend : runEnd (runTable a n) n with
  | none =>
    have hnil : runBack (runTable a n) n none = [] := by cases n <;> rfl
    rw [hnil]
    exact ⟨fun _ h => absurd h not_mem_nil, Pairwise.nil⟩
  | some i =>
    obtain ⟨hi, hne, -⟩ := (runEnd_spec (runTable a n) n).2 i hend
    refine (runBack_spec hi hi ?_).1
    rw [isSome_iff_ne_none]
    exact fun hno => hne (congrArg Prod.fst ((runTable_ok a hi).missing hno))

/-- No run along which the values rise is longer. -/
lemma longestRun_longest (h : Rises a n s) : s.length ≤ (longestRun a n).length := by
  rcases eq_nil_or_concat s with rfl | ⟨s, i, rfl⟩
  · exact Nat.zero_le _
  · rw [concat_eq_append] at h ⊢
    have hlen := h.length_le
    obtain ⟨hi, hsome⟩ := h.present i (mem_append_right _ mem_cons_self)
    rw [longestRun]
    cases hend : runEnd (runTable a n) n with
    | none =>
      have hzero := (runEnd_spec (runTable a n) n).1 hend i hi
      have hpos := one_le_best hi hsome
      omega
    | some j =>
      obtain ⟨hj, hne, hbest⟩ := (runEnd_spec (runTable a n) n).2 j hend
      have hjsome : (a j).isSome := by
        rw [isSome_iff_ne_none]
        exact fun hno => hne (congrArg Prod.fst ((runTable_ok a hj).missing hno))
      rw [(runBack_spec hj hj hjsome).2]
      exact hlen.trans (hbest i hi)

end LibrePaper.Library
