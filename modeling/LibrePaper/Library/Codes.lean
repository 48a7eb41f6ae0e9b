import LibrePaper.Library.Widths

/-!
# Texts in code units

Each character is written as one or more units, and the first unit of a character differs
from every later one. A coded text is then found in another exactly where the text is.
-/
namespace LibrePaper.Library
open List Option

variable {α β : Type*}

/-- Where a list first occurs in another. -/
def firstAt [DecidableEq β] (needle : List β) : List β → Option ℕ
  | [] => if needle = [] then some 0 else none
  | b :: hay => if needle <+: b :: hay then some 0 else (firstAt needle hay).map (· + 1)

section Search
variable [DecidableEq β] {needle hay : List β}

lemma firstAt_none (h : firstAt needle hay = none) (i : ℕ) : ¬needle <+: hay.drop i := by
  induction hay generalizing i with
  | nil =>
    unfold firstAt at h
    split_ifs at h with hne
    rw [drop_nil, prefix_nil]
    exact hne
  | cons b hay ih =>
    unfold firstAt at h
    split_ifs at h with hpre
    cases i with
    | zero => exact hpre
    | succ i => exact ih (map_eq_none_iff.1 h) i

lemma firstAt_some {i : ℕ} (h : firstAt needle hay = some i) :
    needle <+: hay.drop i ∧ ∀ j < i, ¬needle <+: hay.drop j := by
  induction hay generalizing i with
  | nil =>
    unfold firstAt at h
    split_ifs at h with hne
    cases h
    exact ⟨by rw [hne]; exact nil_prefix, fun j hj => absurd hj (Nat.not_lt_zero j)⟩
  | cons b hay ih =>
    unfold firstAt at h
    split_ifs at h with hpre
    · cases h
      exact ⟨hpre, fun j hj => absurd hj (Nat.not_lt_zero j)⟩
    · obtain ⟨k, hk, rfl⟩ := map_eq_some_iff.1 h
      obtain ⟨hat, hbefore⟩ := ih hk
      refine ⟨hat, fun j hj => ?_⟩
      cases j with
      | zero => exact hpre
      | succ j => exact hbefore j (Nat.lt_of_succ_lt_succ hj)

/-- A list occurs once, at `i`, when it is found there first and not after it. -/
lemma firstAt_unique (i : ℕ) :
    (firstAt needle hay = some i ∧ (firstAt needle (hay.drop (i + 1))).isSome = false) ↔
      needle <+: hay.drop i ∧ ∀ j, needle <+: hay.drop j → j = i := by
  constructor
  · rintro ⟨hfirst, hagain⟩
    obtain ⟨hat, hbefore⟩ := firstAt_some hfirst
    refine ⟨hat, fun j hj => ?_⟩
    by_contra hji
    rcases Nat.lt_or_gt_of_ne hji with hlt | hgt
    · exact hbefore j hlt hj
    · refine firstAt_none (not_isSome_iff_eq_none.1 (Bool.not_eq_true _ ▸ hagain))
        (j - (i + 1)) ?_
      rw [drop_drop, Nat.add_sub_cancel' hgt]
      exact hj
  · rintro ⟨hat, hone⟩
    cases hfirst : firstAt needle hay with
    | none => exact absurd hat (firstAt_none hfirst i)
    | some k =>
      obtain rfl := hone k (firstAt_some hfirst).1
      refine ⟨rfl, ?_⟩
      rw [isSome_eq_false_iff, isNone_iff_eq_none]
      by_contra hsome
      obtain ⟨j, hj⟩ := ne_none_iff_exists'.1 hsome
      have hlater := (firstAt_some hj).1
      rw [drop_drop] at hlater
      have := hone _ hlater
      omega

end Search

/-- A code whose units tell where a character starts, and none of whose characters begins
another. -/
structure Synchronizing (code : α → List β) (starts : β → Prop) : Prop where
  head : ∀ a, ∃ b rest, code a = b :: rest ∧ starts b ∧ ∀ c ∈ rest, ¬starts c
  unique : ∀ a b, code a <+: code b → a = b

def coded (code : α → List β) (text : List α) : List β := text.flatMap code

variable {code : α → List β} {starts : β → Prop}

@[simp] lemma coded_nil : coded code [] = [] := rfl

@[simp] lemma coded_cons (a : α) (l : List α) : coded code (a :: l) = code a ++ coded code l :=
  rfl

@[simp] lemma coded_append (p q : List α) :
    coded code (p ++ q) = coded code p ++ coded code q :=
  flatMap_append

@[simp] lemma length_coded (l : List α) :
    (coded code l).length = width (fun a => (code a).length) l :=
  length_flatMap

lemma take_coded (p q : List α) :
    (coded code (p ++ q)).take (width (fun a => (code a).length) p) = coded code p := by
  rw [coded_append, ← length_coded, take_left]

lemma drop_coded (p q : List α) :
    (coded code (p ++ q)).drop (width (fun a => (code a).length) p) = coded code q := by
  rw [coded_append, ← length_coded, drop_left]

namespace Synchronizing
variable (h : Synchronizing code starts)
include h

lemma ne_nil (a : α) : code a ≠ [] := by
  obtain ⟨b, rest, hcode, -, -⟩ := h.head a
  rw [hcode]
  exact cons_ne_nil b rest

lemma coded_eq_nil {l : List α} : coded code l = [] ↔ l = [] := by
  cases l with
  | nil => exact ⟨fun _ => rfl, fun _ => rfl⟩
  | cons a l =>
    rw [coded_cons, append_eq_nil_iff]
    exact ⟨fun hnil => absurd hnil.1 (h.ne_nil a), fun hnil => absurd hnil (cons_ne_nil a l)⟩

lemma coded_prefix {n l : List α} : coded code n <+: coded code l ↔ n <+: l := by
  induction n generalizing l with
  | nil => exact ⟨fun _ => nil_prefix, fun _ => nil_prefix⟩
  | cons a n ih =>
    constructor
    · intro hpre
      cases l with
      | nil =>
        rw [coded_cons, coded_nil, prefix_nil, append_eq_nil_iff] at hpre
        exact absurd hpre.1 (h.ne_nil a)
      | cons b l =>
        rw [coded_cons, coded_cons] at hpre
        have ha : code a <+: code b ++ coded code l := (prefix_append _ _).trans hpre
        have hab : a = b := by
          rcases prefix_or_prefix_of_prefix ha (prefix_append _ _) with hle | hle
          · exact h.unique a b hle
          · exact (h.unique b a hle).symm
        subst hab
        rw [prefix_append_right_inj] at hpre
        rw [prefix_cons_inj]
        exact ih.1 hpre
    · rintro ⟨rest, rfl⟩
      rw [coded_append]
      exact prefix_append _ _

lemma coded_injective : Function.Injective (coded code) := by
  intro p q hpq
  have hle : p <+: q := h.coded_prefix.1 (hpq ▸ prefix_rfl)
  have hge : q <+: p := h.coded_prefix.1 (hpq ▸ prefix_rfl)
  exact hle.eq_of_length_le hge.length_le

/-- A unit that starts a character is at a boundary. -/
lemma boundary_of_starts {l : List α} {u : ℕ} {b : β} (hb : (coded code l)[u]? = some b)
    (hstarts : starts b) : Boundary (fun a => (code a).length) l u := by
  induction l generalizing u with
  | nil => cases hb
  | cons a l ih =>
    obtain ⟨c, rest, hcode, -, hrest⟩ := h.head a
    rcases Nat.lt_or_ge u (code a).length with hlt | hge
    · cases u with
      | zero => exact Boundary.zero _
      | succ u =>
        rw [coded_cons, getElem?_append_left hlt, hcode, getElem?_cons_succ] at hb
        exact absurd hstarts (hrest b (mem_of_getElem? hb))
    · rw [coded_cons, getElem?_append_right hge] at hb
      obtain ⟨p, q, rfl, hp⟩ := ih hb
      refine ⟨a :: p, q, rfl, ?_⟩
      rw [width_cons, hp]
      omega

/-- A coded text occurs in another exactly where the text does. -/
lemma coded_occurs {needle hay : List α} (hne : needle ≠ []) (u : ℕ) :
    coded code needle <+: (coded code hay).drop u ↔
      ∃ p q, hay = p ++ q ∧ width (fun a => (code a).length) p = u ∧ needle <+: q := by
  constructor
  · intro hpre
    obtain ⟨a, n, rfl⟩ := exists_cons_of_ne_nil hne
    obtain ⟨b, rest, hcode, hb, -⟩ := h.head a
    have hunit : (coded code hay)[u]? = some b := by
      obtain ⟨t, ht⟩ := hpre
      rw [coded_cons, hcode] at ht
      rw [← head?_drop, ← ht]
      rfl
    obtain ⟨p, q, rfl, rfl⟩ := h.boundary_of_starts hunit hb
    rw [drop_coded] at hpre
    exact ⟨p, q, rfl, rfl, h.coded_prefix.1 hpre⟩
  · rintro ⟨p, q, rfl, rfl, hpre⟩
    rw [drop_coded]
    exact h.coded_prefix.2 hpre

end Synchronizing
end LibrePaper.Library
