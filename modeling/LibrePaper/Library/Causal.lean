import Mathlib

/-!
# Updates with version vectors

An update holds the operations from one version to another. A holder at version `v`
that imports a list of updates in order reaches `reach v l`; the list has no gap when
every update starts at a version that the holder has by then. The lemmas say how this
composes, and what a holder that is already ahead needs.
-/
namespace LibrePaper.Library

/-- The versions an update starts from and ends at. -/
structure Extent (V : Type*) where
  start : V
  stop : V
deriving DecidableEq

variable {V : Type*} [SemilatticeSup V]

/-- The version after importing a list of updates. -/
def reach (v : V) : List (Extent V) → V
  | [] => v
  | e :: l => reach (v ⊔ e.stop) l

/-- Every update starts at a version that is there when its turn comes. -/
def GapFree (v : V) : List (Extent V) → Prop
  | [] => True
  | e :: l => e.start ≤ v ∧ GapFree (v ⊔ e.stop) l

instance decidableGapFree [DecidableLE V] : (v : V) → (l : List (Extent V)) →
    Decidable (GapFree v l)
  | _, [] => inferInstanceAs (Decidable True)
  | v, e :: l => @instDecidableAnd _ _ _ (decidableGapFree (v ⊔ e.stop) l)

/-- Imports a list one update at a time; an update whose start is missing is left
pending, and there is no result. -/
def replay [DecidableLE V] (v : V) : List (Extent V) → Option V
  | [] => some v
  | e :: l => if e.start ≤ v then replay (v ⊔ e.stop) l else none

@[simp] lemma reach_nil (v : V) : reach v [] = v := rfl

@[simp] lemma reach_cons (v : V) (e : Extent V) (l : List (Extent V)) :
    reach v (e :: l) = reach (v ⊔ e.stop) l := rfl

@[simp] lemma gapFree_nil (v : V) : GapFree v [] := trivial

@[simp] lemma gapFree_cons (v : V) (e : Extent V) (l : List (Extent V)) :
    GapFree v (e :: l) ↔ e.start ≤ v ∧ GapFree (v ⊔ e.stop) l := Iff.rfl

@[simp] lemma reach_append (v : V) (l m : List (Extent V)) :
    reach v (l ++ m) = reach (reach v l) m := by
  induction l generalizing v with
  | nil => rfl
  | cons e l ih => exact ih _

lemma gapFree_append (v : V) (l m : List (Extent V)) :
    GapFree v (l ++ m) ↔ GapFree v l ∧ GapFree (reach v l) m := by
  induction l generalizing v with
  | nil => simp
  | cons e l ih => simp only [List.cons_append, gapFree_cons, reach_cons, ih, and_assoc]

lemma le_reach (v : V) (l : List (Extent V)) : v ≤ reach v l := by
  induction l generalizing v with
  | nil => exact le_rfl
  | cons e l ih => exact le_sup_left.trans (ih _)

lemma reach_mono {v w : V} (h : v ≤ w) (l : List (Extent V)) : reach v l ≤ reach w l := by
  induction l generalizing v w with
  | nil => exact h
  | cons e l ih => exact ih (sup_le_sup_right h e.stop)

lemma stop_le_reach {v : V} {e : Extent V} {l : List (Extent V)} (h : e ∈ l) :
    e.stop ≤ reach v l := by
  obtain ⟨l, m, rfl⟩ := List.append_of_mem h
  rw [reach_append, reach_cons]
  exact le_sup_right.trans (le_reach _ m)

lemma GapFree.mono {v w : V} {l : List (Extent V)} (h : GapFree v l) (hvw : v ≤ w) :
    GapFree w l := by
  induction l generalizing v w with
  | nil => trivial
  | cons e l ih => exact ⟨h.1.trans hvw, ih h.2 (sup_le_sup_right hvw _)⟩

/-- A list without gaps replays without a pending import. -/
lemma GapFree.replay [DecidableLE V] {v : V} {l : List (Extent V)} (h : GapFree v l) :
    replay v l = some (reach v l) := by
  induction l generalizing v with
  | nil => rfl
  | cons e l ih => rw [LibrePaper.Library.replay, if_pos h.1, ih h.2, reach_cons]

/-- A holder that has the first part of a list needs only the rest of it. -/
lemma GapFree.catch_up {v w : V} {l m : List (Extent V)} (h : GapFree v (l ++ m))
    (hw : reach v l ≤ w) : GapFree w m ∧ reach v (l ++ m) ≤ reach w m := by
  rw [reach_append]
  exact ⟨((gapFree_append _ _ _).1 h).2.mono hw, reach_mono hw m⟩

end LibrePaper.Library
