import Mathlib

/-!
# Sequences assembled position by position

A sequence is often laid out as one piece for every position of a text: `joinRange
f a b` joins the pieces of the positions from `a` up to `b`. The lemmas split a
range at a position, compare two layouts piece by piece, and move a layout by
an offset.
-/
namespace LibrePaper.Library
open List

variable {α β : Type*}

/-- The pieces of the positions in `[a, b)`, joined in order. -/
def joinRange (f : ℕ → List α) (a b : ℕ) : List α :=
  (List.range' a (b - a)).flatMap f

@[simp] lemma joinRange_self (f : ℕ → List α) (a : ℕ) : joinRange f a a = [] := by
  simp [joinRange]

variable {a b c p : ℕ} {f g : ℕ → List α}

lemma joinRange_append (f : ℕ → List α) (hab : a ≤ b) (hbc : b ≤ c) :
    joinRange f a b ++ joinRange f b c = joinRange f a c := by
  simp only [joinRange, ← flatMap_append]
  congr 1
  have h := range'_append_1 (s := a) (m := b - a) (n := c - b)
  rw [show a + (b - a) = b by omega, show b - a + (c - b) = c - a by omega] at h
  exact h

lemma joinRange_succ_left (f : ℕ → List α) (h : a < b) :
    joinRange f a b = f a ++ joinRange f (a + 1) b := by
  rw [← joinRange_append f (Nat.le_succ a) h]
  simp [joinRange]

lemma joinRange_succ_right (f : ℕ → List α) (h : a ≤ b) :
    joinRange f a (b + 1) = joinRange f a b ++ f b := by
  rw [← joinRange_append f h (Nat.le_succ b)]
  simp [joinRange]

lemma joinRange_congr (h : ∀ p, a ≤ p → p < b → f p = g p) :
    joinRange f a b = joinRange g a b := by
  apply flatMap_congr
  intro p hp
  simp only [mem_range'_1] at hp
  exact h p hp.1 (by omega)

lemma joinRange_eq_nil (h : ∀ p, a ≤ p → p < b → f p = []) : joinRange f a b = [] := by
  simp only [joinRange, flatMap_eq_nil_iff, mem_range'_1]
  exact fun p hp => h p hp.1 (by omega)

/-- A layout that agrees with another one after an offset. -/
lemma joinRange_shift {d : ℕ} (hlen : b - a = d - c)
    (h : ∀ i, i < b - a → f (a + i) = g (c + i)) : joinRange f a b = joinRange g c d := by
  rw [joinRange, joinRange, ← hlen, range'_eq_map_range, range'_eq_map_range,
    flatMap_map, flatMap_map]
  apply flatMap_congr
  intro i hi
  simp only [mem_range] at hi
  exact h i hi

lemma map_joinRange (φ : α → β) (f : ℕ → List α) (a b : ℕ) :
    (joinRange f a b).map φ = joinRange (fun p => (f p).map φ) a b := by
  simp [joinRange, map_flatMap]

lemma mem_joinRange {x : α} : x ∈ joinRange f a b ↔ ∃ p, a ≤ p ∧ p < b ∧ x ∈ f p := by
  simp only [joinRange, mem_flatMap, mem_range'_1]
  constructor
  · rintro ⟨p, ⟨h1, h2⟩, hx⟩
    exact ⟨p, h1, by omega, hx⟩
  · rintro ⟨p, h1, h2, hx⟩
    exact ⟨p, ⟨h1, by omega⟩, hx⟩

lemma sublist_joinRange (h1 : a ≤ p) (h2 : p < b) : (f p).Sublist (joinRange f a b) := by
  rw [← joinRange_append f h1 h2.le, joinRange_succ_left f h2]
  exact (sublist_append_left _ _).trans (sublist_append_right _ _)

/-- Adding elements at one position permutes a layout with those elements added. -/
lemma joinRange_insert_perm (f : ℕ → List α) (l : List α) (h1 : a ≤ p) (h2 : p < b) :
    (joinRange (fun q => f q ++ if q = p then l else []) a b).Perm (joinRange f a b ++ l) := by
  have hleft : joinRange (fun q => f q ++ if q = p then l else []) a p = joinRange f a p :=
    joinRange_congr fun q _ hq => by simp [hq.ne]
  have hright : joinRange (fun q => f q ++ if q = p then l else []) (p + 1) b =
      joinRange f (p + 1) b := joinRange_congr fun q hq _ => by simp [show q ≠ p by omega]
  rw [← joinRange_append _ h1 h2.le, joinRange_succ_left _ h2, hleft, hright,
    ← joinRange_append f h1 h2.le, joinRange_succ_left f h2]
  simp only [if_true, append_assoc]
  exact (Perm.append_left _ (perm_append_comm.append_left _)).trans (by simp)

end LibrePaper.Library
