import Mathlib

/-!
# List operations of an iterator library

First minimum, splicing a range of a list, and stable sorting by a key, as an
iterator library with mutable vectors offers them. The lemmas say which elements
the results hold and in which order. A list with distinct keys serves as a table.
-/
namespace LibrePaper.Library
open List

variable {α β : Type*}

/-- The first of the least elements of a list: later elements replace an earlier
candidate only when they are strictly below it. -/
def firstMin (lt : α → α → Bool) : List α → Option α
  | [] => none
  | a :: l =>
    match firstMin lt l with
    | none => some a
    | some b => if lt b a then some b else some a

variable {lt : α → α → Bool} {l mid : List α} {a : α} {κ : Type*} {lo hi p : ℕ} {f : α → ℕ}

lemma firstMin_mem (h : firstMin lt l = some a) : a ∈ l := by
  induction l generalizing a with
  | nil => simp [firstMin] at h
  | cons b l ih =>
    simp only [firstMin] at h
    cases hm : firstMin lt l with
    | none => simp [hm] at h; simp [h]
    | some c =>
      simp only [hm] at h
      split at h
      · exact mem_cons_of_mem _ (ih (hm.trans h))
      · simp [Option.some.inj h]

@[simp] lemma firstMin_eq_none : firstMin lt l = none ↔ l = [] := by
  constructor
  · intro h
    cases l with
    | nil => rfl
    | cons b l =>
      simp only [firstMin] at h
      cases hm : firstMin lt l with
      | none => simp [hm] at h
      | some c => simp only [hm] at h; split at h <;> simp at h
  · rintro rfl
    rfl

/-- No element is strictly below the first minimum of a key into a linear order. -/
lemma firstMin_key_le [LinearOrder κ] (key : α → κ)
    (h : firstMin (fun x y => decide (key x < key y)) l = some a) : ∀ b ∈ l, key a ≤ key b := by
  induction l generalizing a with
  | nil => simp
  | cons b l ih =>
    simp only [firstMin] at h
    cases hm : firstMin (fun x y => decide (key x < key y)) l with
    | none =>
      rw [firstMin_eq_none] at hm
      simp [hm, firstMin] at h
      simp [hm, h]
    | some c =>
      simp only [hm, decide_eq_true_eq] at h
      have hc := ih hm
      intro x hx
      split at h <;> rename_i hlt <;> cases h
      · rcases mem_cons.1 hx with rfl | hx
        · exact hlt.le
        · exact hc x hx
      · rcases mem_cons.1 hx with rfl | hx
        · exact le_rfl
        · exact (not_lt.1 hlt).trans (hc x hx)

/-- Replace the elements of `[lo, hi)` by `mid`. -/
def splice (l : List α) (lo hi : ℕ) (mid : List α) : List α :=
  l.take lo ++ mid ++ l.drop hi

@[simp] lemma length_splice (l : List α) (lo hi : ℕ) (mid : List α)
    (hlo : lo ≤ hi) (hhi : hi ≤ l.length) :
    (splice l lo hi mid).length = lo + mid.length + (l.length - hi) := by
  simp only [splice, length_append, length_take, length_drop]
  omega

lemma getElem?_splice_left (hp : p < lo) (hlo : lo ≤ l.length) :
    (splice l lo hi mid)[p]? = l[p]? := by
  have h : p < (l.take lo).length := by simp; omega
  rw [splice, append_assoc, getElem?_append_left h, getElem?_take_of_lt hp]

lemma getElem?_splice_mid (hp : lo ≤ p) (hm : p < lo + mid.length) (hlo : lo ≤ l.length) :
    (splice l lo hi mid)[p]? = mid[p - lo]? := by
  have ht : (l.take lo).length = lo := by simp; omega
  rw [splice, append_assoc, getElem?_append_right (by omega), ht, getElem?_append_left (by omega)]

lemma getElem?_splice_right (hp : hi ≤ p) (hlo : lo ≤ hi) (hl : lo ≤ l.length) :
    (splice l lo hi mid)[p + mid.length - (hi - lo)]? = l[p]? := by
  have ht : (l.take lo ++ mid).length = lo + mid.length := by simp; omega
  rw [splice, getElem?_append_right (by omega), ht, getElem?_drop]
  congr 1
  omega

/-- Stable sorting by a key, smallest first. -/
def sortByKey {κ : Type*} [LinearOrder κ] (key : α → κ) (l : List α) : List α :=
  l.insertionSort fun a b => key a ≤ key b

lemma sortByKey_perm [LinearOrder κ] (key : α → κ) (l : List α) :
    (sortByKey key l).Perm l := perm_insertionSort _ l

@[simp] lemma mem_sortByKey [LinearOrder κ] (key : α → κ) (l : List α) (a : α) :
    a ∈ sortByKey key l ↔ a ∈ l := (sortByKey_perm key l).mem_iff

/-- Sorting by a key is stable: the elements of one key keep their order. -/
lemma filter_key_sortByKey [LinearOrder κ] (key : α → κ) (k : κ) (l : List α) :
    (sortByKey key l).filter (fun a => key a = k) = l.filter fun a => key a = k := by
  induction l with
  | nil => rfl
  | cons a l ih =>
    have h : ∀ l' : List α, (l'.orderedInsert (fun a b => key a ≤ key b) a).filter
        (fun x => key x = k) = (a :: l').filter fun x => key x = k := by
      intro l'
      induction l' with
      | nil => rfl
      | cons b l' ih' =>
        rw [orderedInsert_cons]
        split <;> rename_i hab
        · rfl
        · simp only [filter_cons] at ih' ⊢
          rw [ih']
          by_cases h1 : key a = k <;> by_cases h2 : key b = k <;> simp [h1, h2]
          exact absurd (h1.trans h2.symm).le hab
    change ((sortByKey key l).orderedInsert _ a).filter _ = _
    rw [h, filter_cons, filter_cons, ih]

/-- Grouping a list by the values of a key permutes the elements whose key is one of
the values. -/
lemma flatMap_filter_key_perm (key : α → ℕ) (l : List α) (a n : ℕ) :
    ((range' a n).flatMap fun p => l.filter fun x => key x = p).Perm
      (l.filter fun x => decide (a ≤ key x) && decide (key x < a + n)) := by
  induction n generalizing a with
  | zero => simp
  | succ n ih =>
    rw [range'_succ, flatMap_cons]
    refine ((ih (a + 1)).append_left _).trans ?_
    have hsplit := filter_append_perm (fun x => decide (key x = a))
      (l.filter fun x => decide (a ≤ key x) && decide (key x < a + (n + 1)))
    refine Perm.trans (Perm.of_eq ?_) hsplit
    rw [filter_filter, filter_filter]
    congr 1
    · apply filter_congr
      intro x _
      by_cases h : key x = a <;> simp [h]
    · apply filter_congr
      intro x _
      rw [Bool.eq_iff_iff]
      simp only [Bool.and_eq_true, decide_eq_true_eq, Bool.not_eq_true', decide_eq_false_iff_not]
      omega

/-- In a list with distinct keys a function of one key's entry finds that entry. -/
lemma filterMap_eq_of_key {l : List (κ × α)} {k : κ} (hn : (l.map Prod.fst).Nodup)
    (h : (k, a) ∈ l) {f : κ × α → Option β} (hf : ∀ x, x.1 ≠ k → f x = none) :
    l.filterMap f = (f (k, a)).toList := by
  obtain ⟨l, m, rfl⟩ := append_of_mem h
  simp only [map_append, map_cons, nodup_append, nodup_cons, mem_map, mem_cons] at hn
  have hl : l.filterMap f = [] := by
    refine filterMap_eq_nil_iff.2 fun x hx => hf x fun hk => ?_
    exact hn.2.2 x.1 ⟨x, hx, rfl⟩ k (.inl rfl) hk
  have hm : m.filterMap f = [] := by
    refine filterMap_eq_nil_iff.2 fun x hx => hf x fun hk => ?_
    exact hn.2.1.1 ⟨x, hx, hk⟩
  rw [filterMap_append, hl, filterMap_cons, hm]
  cases f (k, a) <;> rfl

section Sums
variable {M : Type*} [AddCommMonoid M] {s : List M} {a : M} {i : ℕ}

lemma sum_eraseIdx (h : s[i]? = some a) : s.sum = (s.eraseIdx i).sum + a := by
  obtain ⟨hi, rfl⟩ := List.getElem?_eq_some_iff.1 h
  rw [add_comm, List.CommMonoid.add_sum_eraseIdx]

lemma sum_set (h : s[i]? = some a) (b : M) : (s.set i b).sum + a = s.sum + b := by
  obtain ⟨hi, rfl⟩ := List.getElem?_eq_some_iff.1 h
  have hset : (s.set i b)[i]? = some b := by simp [hi]
  rw [sum_eraseIdx hset, sum_eraseIdx h, List.eraseIdx_set_eq]
  exact add_right_comm _ _ _

end Sums

/-- One entry of a sum is at most the sum. -/
lemma le_sum_map (h : a ∈ l) : f a ≤ (l.map f).sum := by
  induction l with
  | nil => cases h
  | cons b l ih =>
    rw [map_cons, sum_cons]
    rcases mem_cons.1 h with rfl | h
    · exact Nat.le_add_right _ _
    · exact (ih h).trans (Nat.le_add_left _ _)

/-- Two entries of a sum are at most the sum. -/
lemma add_le_sum_map {b : α} (ha : a ∈ l) (hb : b ∈ l) (hab : a ≠ b) :
    f a + f b ≤ (l.map f).sum := by
  induction l with
  | nil => cases ha
  | cons c l ih =>
    rw [map_cons, sum_cons]
    rcases mem_cons.1 ha with hac | hal
    · have hbl := (mem_cons.1 hb).resolve_left fun hbc => hab (hac.trans hbc.symm)
      have := le_sum_map (f := f) hbl
      rw [hac]
      omega
    · rcases mem_cons.1 hb with hbc | hbl
      · have := le_sum_map (f := f) hal
        rw [hbc]
        omega
      · have := ih hal hbl
        omega

/-- Where one image of a list is missing from another list, another element has it there. -/
lemma exists_of_map_perm {f : α → β} {m : List α} (hm : m.Nodup) (h : (l.map f).Perm (m.map f))
    (ha : a ∈ l) (hn : a ∉ m) : ∃ b ∈ m, b ∉ l ∧ f b = f a := by
  classical
  by_contra hno
  have hsub : a :: m.filter (f · = f a) ⊆ l.filter (f · = f a) := by
    intro b hb
    rcases mem_cons.1 hb with rfl | hb
    · exact mem_filter.2 ⟨ha, decide_eq_true rfl⟩
    · obtain ⟨hbm, hfb⟩ := mem_filter.1 hb
      refine mem_filter.2 ⟨?_, hfb⟩
      by_contra hbl
      exact hno ⟨b, hbm, hbl, of_decide_eq_true hfb⟩
  have hnodup : (a :: m.filter (f · = f a)).Nodup :=
    nodup_cons.2 ⟨fun hin => hn (mem_filter.1 hin).1, hm.filter _⟩
  have hle := (subperm_of_subset hnodup hsub).length_le
  have hcount : ∀ k : List α, (k.filter (f · = f a)).length = (k.map f).count (f a) := by
    intro k
    rw [count_eq_countP, countP_map, countP_eq_length_filter]
    exact congrArg length (filter_congr fun b _ => (beq_eq_decide _ _).symm)
  rw [length_cons, hcount, hcount, h.count_eq] at hle
  omega

/-- A list is cut in one way at the first of an element. -/
lemma append_cons_inj {x y z w : List α} (hx : a ∉ x) (hy : a ∉ y)
    (h : x ++ a :: z = y ++ a :: w) : x = y ∧ z = w := by
  induction x generalizing y with
  | nil =>
    cases y with
    | nil => exact ⟨rfl, (cons.inj h).2⟩
    | cons b y => exact absurd ((cons.inj h).1 ▸ mem_cons_self) hy
  | cons b x ih =>
    cases y with
    | nil => exact absurd ((cons.inj h).1 ▸ mem_cons_self) hx
    | cons c y =>
      obtain ⟨rfl, hrest⟩ := cons.inj h
      obtain ⟨rfl, rfl⟩ := ih (fun hin => hx (mem_cons_of_mem _ hin))
        (fun hin => hy (mem_cons_of_mem _ hin)) hrest
      exact ⟨rfl, rfl⟩

end LibrePaper.Library
