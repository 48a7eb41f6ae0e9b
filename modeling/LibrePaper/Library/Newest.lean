import Mathlib

/-!
# The newest of a set

A page is the largest so many elements of a set, in order. The page of a union is read off the page
of one part and the whole of the other.
-/
namespace LibrePaper.Library
open List

variable {α : Type*} [LinearOrder α]

/-- The list has the largest `k` elements of a set, in order. -/
structure IsNewest (k : ℕ) (all : Finset α) (l : List α) : Prop where
  sorted : l.Pairwise (· < ·)
  sub : ∀ a ∈ l, a ∈ all
  above : ∀ a ∈ all, a ∉ l → ∀ b ∈ l, a < b
  length : l.length = min k all.card

namespace IsNewest

variable {k : ℕ} {all : Finset α} {l : List α}

lemma nodup (h : IsNewest k all l) : l.Nodup := h.sorted.imp ne_of_lt

lemma subset (h : IsNewest k all l) : l.toFinset ⊆ all := fun a ha => h.sub a (mem_toFinset.1 ha)

lemma card_toFinset (h : IsNewest k all l) : l.toFinset.card = l.length :=
  toFinset_card_of_nodup h.nodup

/-- A page that is not full has everything. -/
lemma mem_of_card_le (h : IsNewest k all l) (hk : all.card ≤ k) {a : α} (ha : a ∈ all) :
    a ∈ l := by
  have hcard : all.card ≤ l.toFinset.card := by rw [h.card_toFinset, h.length, min_eq_right hk]
  rw [← mem_toFinset, Finset.eq_of_subset_of_card_le h.subset hcard]
  exact ha

/-- What is left out is what does not fit. -/
lemma exists_left_out_iff (h : IsNewest k all l) : (∃ a ∈ all, a ∉ l) ↔ k < all.card := by
  constructor
  · rintro ⟨a, ha, hne⟩
    by_contra hk
    exact hne (h.mem_of_card_le (not_lt.1 hk) ha)
  · intro hk
    have hlt : l.toFinset.card < all.card := by
      rw [h.card_toFinset, h.length, min_eq_left hk.le]
      exact hk
    obtain ⟨a, ha, hne⟩ := Finset.exists_mem_notMem_of_card_lt_card hlt
    exact ⟨a, ha, fun hmem => hne (mem_toFinset.2 hmem)⟩

/-- Fewer than `k` elements are above one that is on the page. -/
lemma card_above_lt (h : IsNewest k all l) {b : α} (hb : b ∈ l) :
    (all.filter fun a => b < a).card < k := by
  have hsub : all.filter (fun a => b < a) ⊆ l.toFinset.erase b := by
    intro a ha
    rw [Finset.mem_filter] at ha
    rw [Finset.mem_erase, mem_toFinset]
    refine ⟨ha.2.ne', ?_⟩
    by_contra hne
    exact lt_asymm ha.2 (h.above a ha.1 hne b hb)
  have hpos : 0 < l.length := length_pos_of_mem hb
  have hcard := Finset.card_le_card hsub
  rw [Finset.card_erase_of_mem (mem_toFinset.2 hb), h.card_toFinset] at hcard
  have hle : l.length ≤ k := h.length ▸ min_le_left _ _
  omega

end IsNewest

/-- The end of an ordered list is the newest of it. -/
lemma isNewest_drop {l : List α} (h : l.Pairwise (· < ·)) (k : ℕ) :
    IsNewest k l.toFinset (l.drop (l.length - k)) where
  sorted := h.sublist (drop_sublist _ _)
  sub a ha := mem_toFinset.2 (mem_of_mem_drop ha)
  above a ha hne b hb := by
    rw [← take_append_drop (l.length - k) l, pairwise_append] at h
    rw [mem_toFinset, ← take_append_drop (l.length - k) l, mem_append] at ha
    exact h.2.2 a (ha.resolve_right hne) b hb
  length := by
    rw [length_drop, toFinset_card_of_nodup (h.imp ne_of_lt)]
    omega

/-- The beginning of a list from the newest on, turned round. -/
lemma isNewest_take_reverse {l : List α} (h : l.Pairwise (· > ·)) (k : ℕ) :
    IsNewest k l.toFinset (l.take k).reverse := by
  have hsorted : l.reverse.Pairwise (· < ·) := pairwise_reverse.2 h
  have hpage := isNewest_drop hsorted k
  rw [toFinset_reverse, length_reverse, drop_reverse] at hpage
  obtain hk | hk := le_total k l.length
  · rwa [Nat.sub_sub_self hk] at hpage
  · rw [Nat.sub_eq_zero_of_le hk, Nat.sub_zero, take_length] at hpage
    rwa [take_of_length_le hk]

/-- A page of one part and all of the other give the page of the whole. -/
lemma IsNewest.merge {k : ℕ} {s b : Finset α} {p m : List α} (hp : IsNewest k s p)
    (hm : m.Pairwise (· < ·)) (hmem : ∀ a, a ∈ m ↔ a ∈ p ∨ a ∈ b) :
    IsNewest k (s ∪ b) (m.drop (m.length - k)) := by
  have hpage := isNewest_drop hm k
  have hsub : m.toFinset ⊆ s ∪ b := by
    intro a ha
    rw [Finset.mem_union]
    exact ((hmem a).1 (mem_toFinset.1 ha)).imp (hp.sub a) id
  refine ⟨hpage.sorted, fun a ha => hsub (hpage.sub a ha), fun a ha hne c hc => ?_, ?_⟩
  · by_cases hin : a ∈ m
    · exact hpage.above a (mem_toFinset.2 hin) hne c hc
    · have hout : a ∉ p := fun h => hin ((hmem a).2 (.inl h))
      have hs : a ∈ s := (Finset.mem_union.1 ha).resolve_right fun h => hin ((hmem a).2 (.inr h))
      have hfull : k ≤ p.length := by
        rw [hp.length, min_eq_left (hp.exists_left_out_iff.1 ⟨a, hs, hout⟩).le]
      by_contra hle
      have hcard : p.toFinset ⊆ m.toFinset.filter fun x => c < x := by
        intro x hx
        rw [mem_toFinset] at hx
        rw [Finset.mem_filter, mem_toFinset]
        exact ⟨(hmem x).2 (.inl hx), lt_of_le_of_lt (not_lt.1 hle) (hp.above a hs hout x hx)⟩
      have hlt := lt_of_le_of_lt (Finset.card_le_card hcard) (hpage.card_above_lt hc)
      rw [hp.card_toFinset] at hlt
      omega
  · rw [hpage.length]
    by_cases hfull : k < s.card
    · have hk : k ≤ m.toFinset.card := by
        have hle : p.toFinset ⊆ m.toFinset := fun x hx =>
          mem_toFinset.2 ((hmem x).2 (.inl (mem_toFinset.1 hx)))
        have hcard := Finset.card_le_card hle
        rw [hp.card_toFinset, hp.length, min_eq_left hfull.le] at hcard
        exact hcard
      rw [min_eq_left hk, min_eq_left (hk.trans (Finset.card_le_card hsub))]
    · have heq : m.toFinset = s ∪ b := by
        refine Finset.Subset.antisymm hsub fun a ha => ?_
        rw [mem_toFinset, hmem]
        exact (Finset.mem_union.1 ha).imp (hp.mem_of_card_le (not_lt.1 hfull)) id
      rw [heq]

end LibrePaper.Library
