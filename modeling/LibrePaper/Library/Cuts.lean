import LibrePaper.Library.Orders

/-!
# The first elements of a sorted list

The first elements of what meets one of two conditions are found among the first of each.
-/
namespace LibrePaper.Library
open List

variable {α κ : Type*}

variable {p : α → Bool} {l : List α} {n : ℕ}

/-- An element among the first is among the first of those that meet its condition. -/
lemma mem_take_filter {a : α} (ha : a ∈ l.take n) (hp : p a) : a ∈ (l.filter p).take n := by
  induction l generalizing n with
  | nil => simp at ha
  | cons b l ih =>
    cases n with
    | zero => simp at ha
    | succ n =>
      rw [take_succ_cons, mem_cons] at ha
      rw [filter_cons]
      by_cases hb : p b
      · rw [if_pos hb, take_succ_cons, mem_cons]
        exact ha.imp_right ih
      · rw [if_neg hb]
        rcases ha with rfl | ha
        · exact absurd hp hb
        · exact (take_sublist_take_left n.le_succ).subset (ih ha)

/-- Leaving out only others leaves the first elements as they are. -/
lemma take_filter_of_forall (h : ∀ a ∈ l.take n, p a) : (l.filter p).take n = l.take n := by
  induction l generalizing n with
  | nil => rfl
  | cons b l ih =>
    cases n with
    | zero => rfl
    | succ n =>
      rw [take_succ_cons, forall_mem_cons] at h
      rw [filter_cons, if_pos h.1, take_succ_cons, take_succ_cons, ih h.2]

variable [LinearOrder κ] {key : α → κ}

/-- Sorted keys that tell elements apart rise. -/
lemma sortByKey_rising (hkey : (l.map key).Nodup) :
    (sortByKey key l).Pairwise fun a b => key a < key b := by
  have hnodup : ((sortByKey key l).map key).Nodup :=
    ((sortByKey_perm key l).map key).nodup_iff.2 hkey
  exact ((sortByKey_pairwise key l).and (pairwise_map.1 hnodup)).imp fun h => lt_of_le_of_ne h.1 h.2

/-- Sorting a part is taking the part of what is sorted, when the key tells elements apart. -/
lemma sortByKey_filter (hkey : (l.map key).Nodup) (p : α → Bool) :
    sortByKey key (l.filter p) = (sortByKey key l).filter p :=
  eq_of_rising (sortByKey_pairwise key _) ((sortByKey_rising hkey).sublist filter_sublist)
    ((sortByKey_perm key _).trans ((sortByKey_perm key l).filter p).symm)

/-- The first elements that meet one of two conditions, from the first that meet each. -/
lemma take_sort_cuts (hkey : (l.map key).Nodup) (p q : α → Bool) (n : ℕ) {among : α → Bool}
    (hamong : ∀ a ∈ l, among a ↔ a ∈ (sortByKey key (l.filter p)).take n ∨
      a ∈ (sortByKey key (l.filter q)).take n) :
    (sortByKey key (l.filter among)).take n =
      (sortByKey key (l.filter fun a => p a || q a)).take n := by
  have hcover : ∀ a ∈ (sortByKey key (l.filter fun a => p a || q a)).take n, among a := by
    intro a ha
    obtain ⟨hal, hpq⟩ := mem_filter.1 ((mem_sortByKey key _ a).1 (mem_of_mem_take ha))
    have hpart : ∀ r : α → Bool, r a → (∀ b, r b → (p b || q b)) →
        a ∈ (sortByKey key (l.filter r)).take n := by
      intro r hr hsub
      have hfilter : l.filter r = (l.filter fun b => p b || q b).filter r := by
        rw [filter_filter]
        refine filter_congr fun b _ => ?_
        cases hb : r b with
        | false => rfl
        | true => rw [hsub b hb, Bool.and_self]
      rw [hfilter, sortByKey_filter ((hkey.sublist (filter_sublist.map key)))]
      exact mem_take_filter ha hr
    rw [hamong a hal]
    rcases Bool.or_eq_true _ _ |>.mp hpq with hp | hq
    · exact .inl (hpart p hp fun b hb => by rw [hb, Bool.true_or])
    · exact .inr (hpart q hq fun b hb => by rw [hb, Bool.or_true])
  have hsame : l.filter among = (l.filter fun a => p a || q a).filter among := by
    rw [filter_filter]
    refine filter_congr fun a hal => ?_
    cases ha : among a with
    | false => rfl
    | true =>
      have hpq : (p a || q a) = true := by
        rcases (hamong a hal).1 ha with h | h
        · have hmem := (mem_sortByKey key _ a).1 (mem_of_mem_take h)
          rw [(mem_filter.1 hmem).2, Bool.true_or]
        · have hmem := (mem_sortByKey key _ a).1 (mem_of_mem_take h)
          rw [(mem_filter.1 hmem).2, Bool.or_true]
      rw [hpq, Bool.and_self]
  rw [hsame, sortByKey_filter (hkey.sublist (filter_sublist.map key)), take_filter_of_forall hcover]

end LibrePaper.Library
