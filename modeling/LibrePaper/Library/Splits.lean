import Mathlib

/-!
# Parts between separators

What stands at the ends of a list without a separator changes neither how many parts the list has
nor which of the inner ones are empty.
-/
namespace LibrePaper.Library
open List

variable {α : Type*} [BEq α] [LawfulBEq α] {a : α}

/-- A part is empty only if it was before something was put in front. -/
lemma nil_mem_of_append_splitOn {p l : List α} (hp : a ∉ p) (h : [] ∈ (p ++ l).splitOn a) :
    [] ∈ l.splitOn a := by
  by_cases ha : a ∈ l
  · obtain ⟨s, t, rfl, hs⟩ := eq_append_cons_of_mem ha
    have hps : a ∉ p ++ s := fun hmem => (mem_append.1 hmem).elim hp hs
    rw [← append_assoc, splitOn_append_cons_self_of_not_mem hps, mem_cons] at h
    rw [splitOn_append_cons_self_of_not_mem hs, mem_cons]
    refine h.imp_left fun hnil => ?_
    exact (append_eq_nil_iff.1 hnil.symm).2.symm
  · have hpl : a ∉ p ++ l := fun hmem => (mem_append.1 hmem).elim hp ha
    rw [splitOn_eq_singleton hpl, mem_singleton] at h
    rw [splitOn_eq_singleton ha, mem_singleton]
    exact (append_eq_nil_iff.1 h.symm).2.symm

/-- A list with separators is a part, a separator and a shorter list. -/
lemma splitOn_induction {motive : List α → Prop} (hone : ∀ l, a ∉ l → motive l)
    (hmore : ∀ s t, a ∉ s → motive t → motive (s ++ a :: t)) (l : List α) : motive l := by
  induction hlength : l.length using Nat.strongRecOn generalizing l with
  | ind n ih =>
    by_cases ha : a ∈ l
    · obtain ⟨s, t, rfl, hs⟩ := eq_append_cons_of_mem ha
      rw [length_append, length_cons] at hlength
      exact hmore s t hs (ih t.length (by omega) t rfl)
    · exact hone l ha

/-- A part is empty only if it was before something was put behind. -/
lemma nil_mem_of_splitOn_append {p l : List α} (hp : a ∉ p) (h : [] ∈ (l ++ p).splitOn a) :
    [] ∈ l.splitOn a := by
  induction l using splitOn_induction (a := a) with
  | hone l ha =>
    have hlp : a ∉ l ++ p := fun hmem => (mem_append.1 hmem).elim ha hp
    rw [splitOn_eq_singleton hlp, mem_singleton] at h
    rw [splitOn_eq_singleton ha, mem_singleton]
    exact (append_eq_nil_iff.1 h.symm).1.symm
  | hmore s t hs ih =>
    rw [append_assoc, cons_append, splitOn_append_cons_self_of_not_mem hs, mem_cons] at h
    rw [splitOn_append_cons_self_of_not_mem hs, mem_cons]
    exact h.imp_right ih

/-- What is put behind a list without a separator goes to its last part. -/
lemma exists_splitOn_append (l : List α) : ∃ parts last, l.splitOn a = parts ++ [last] ∧
    ∀ p, a ∉ p → (l ++ p).splitOn a = parts ++ [last ++ p] := by
  induction l using splitOn_induction (a := a) with
  | hone l ha =>
    refine ⟨[], l, splitOn_eq_singleton ha, fun p hp => splitOn_eq_singleton ?_⟩
    exact fun hmem => (mem_append.1 hmem).elim ha hp
  | hmore s t hs ih =>
    obtain ⟨parts, last, hparts, hput⟩ := ih
    refine ⟨s :: parts, last, ?_, fun p hp => ?_⟩
    · rw [splitOn_append_cons_self_of_not_mem hs, hparts]
      rfl
    · rw [append_assoc, cons_append, splitOn_append_cons_self_of_not_mem hs,
        hput p hp]
      rfl

end LibrePaper.Library
