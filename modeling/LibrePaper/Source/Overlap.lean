import LibrePaper.Library.Orders

/-!
# Edits that overlap

Two callers refuse overlapping edits and differ on purpose; each of their rules is a policy. A
range is counted in whatever unit the caller uses, and an empty range is an insertion.
-/
namespace LibrePaper.Source.Overlap
open Library List

/-- Whether a case is accepted. -/
inductive Allow where
  | yes
  | no
deriving DecidableEq

/-- The cases on which the rules differ. -/
structure OverlapPolicy where
  touching : Allow
  insertAtBoundary : Allow
  coincidentInserts : Allow
  sortedInput : Bool

def applySorted : OverlapPolicy := ⟨.yes, .yes, .yes, true⟩

def agentPatch : OverlapPolicy := ⟨.yes, .yes, .no, false⟩

/-- Whether `b`, which follows `a`, conflicts with it. -/
def conflicts (a b : ℕ × ℕ) (policy : OverlapPolicy) : Bool :=
  if b.1 < a.1 then true
  else match decide (a.1 = a.2), decide (b.1 = b.2) with
    | true, true => decide (a.1 = b.1) && decide (policy.coincidentInserts = .no)
    | true, false => decide (a.1 = b.1) && decide (policy.insertAtBoundary = .no)
    | false, true =>
      if b.1 = a.2 then decide (policy.insertAtBoundary = .no) else decide (b.1 < a.2)
    | false, false => if b.1 = a.2 then decide (policy.touching = .no) else decide (b.1 < a.2)

/-- The indexes of the ranges, in the order in which they are checked. -/
def checkOrder (ranges : List (ℕ × ℕ)) (policy : OverlapPolicy) : List ℕ :=
  if policy.sortedInput then List.range ranges.length
  else sortByKey (fun i => toLex (ranges.getD i (0, 0))) (List.range ranges.length)

/-- Checks each range against the one before it; an error names the two. -/
def checkOverlaps (ranges : List (ℕ × ℕ)) (policy : OverlapPolicy) : Except (ℕ × ℕ) Unit :=
  let order := checkOrder ranges policy
  match (order.zip order.tail).find? fun pair =>
      conflicts (ranges.getD pair.1 (0, 0)) (ranges.getD pair.2 (0, 0)) policy with
  | some pair => .error pair
  | none => .ok ()

lemma conflicts_of_lt {a b : ℕ × ℕ} (ha : a.1 ≤ a.2) (hab : a.2 < b.1) (policy : OverlapPolicy) :
    conflicts a b policy = false := by
  have hne : a.1 ≠ b.1 := by omega
  have hne' : b.1 ≠ a.2 := by omega
  unfold conflicts
  rw [if_neg (by omega), if_neg hne', if_neg hne', decide_eq_false hne,
    decide_eq_false (by omega : ¬b.1 < a.2)]
  cases decide (a.1 = a.2) <;> cases decide (b.1 = b.2) <;> rfl

lemma rel_of_mem_zip_tail {α : Type*} {r : α → α → Prop} {l : List α} (h : l.Pairwise r) :
    ∀ p ∈ l.zip l.tail, r p.1 p.2 := by
  induction l with
  | nil => exact fun p hp => absurd hp not_mem_nil
  | cons a l ih =>
    intro p hp
    cases l with
    | nil => exact absurd hp not_mem_nil
    | cons b l =>
      obtain rfl | hp := mem_cons.1 hp
      · exact (pairwise_cons.1 h).1 b mem_cons_self
      · exact ih (pairwise_cons.1 h).2 p hp

/-- Ranges that are in order and apart from each other are accepted by every policy. -/
lemma checkOverlaps_ok {ranges : List (ℕ × ℕ)} (hrange : ∀ a ∈ ranges, a.1 ≤ a.2)
    (hapart : ranges.Pairwise fun a b => a.2 < b.1) (policy : OverlapPolicy) :
    checkOverlaps ranges policy = .ok () := by
  have hpair : ∀ i j, i < j → j < ranges.length →
      (ranges.getD i (0, 0)).1 ≤ (ranges.getD i (0, 0)).2 ∧
        (ranges.getD i (0, 0)).2 < (ranges.getD j (0, 0)).1 := by
    intro i j hij hj
    have hi := hij.trans hj
    rw [getD_eq_getElem _ _ hi, getD_eq_getElem _ _ hj]
    exact ⟨hrange _ (getElem_mem hi), pairwise_iff_getElem.1 hapart i j hi hj hij⟩
  have hrising : (range ranges.length).Pairwise fun i j => i < j ∧ j < ranges.length := by
    refine (pairwise_lt_range).imp_of_mem fun _ hj hij => ⟨hij, mem_range.1 hj⟩
  have horder : checkOrder ranges policy = range ranges.length := by
    unfold checkOrder
    split
    · rfl
    · refine Pairwise.insertionSort_eq (hrising.imp fun h => ?_)
      obtain ⟨hle, hlt⟩ := hpair _ _ h.1 h.2
      exact Prod.Lex.toLex_le_toLex.2 (.inl (lt_of_le_of_lt hle hlt))
  unfold checkOverlaps
  rw [horder]
  dsimp only
  have hnone : ((range ranges.length).zip (range ranges.length).tail).find? (fun pair =>
      conflicts (ranges.getD pair.1 (0, 0)) (ranges.getD pair.2 (0, 0)) policy) = none := by
    rw [find?_eq_none]
    intro pair hmem hconflict
    obtain ⟨hlt, hlength⟩ := rel_of_mem_zip_tail hrising pair hmem
    obtain ⟨hle, hapart⟩ := hpair _ _ hlt hlength
    rw [conflicts_of_lt hle hapart] at hconflict
    cases hconflict
  rw [hnone]

end LibrePaper.Source.Overlap
