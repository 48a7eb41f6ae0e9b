import Mathlib

/-!
# Operations that wait for others

A holder takes in an operation once everything that it needs is held, and keeps the others
waiting. What is held is closed under what it needs, and nothing waits when everything at hand is
closed.
-/
namespace LibrePaper.Library

/-- What each operation needs before it. An operation is later than what it needs. -/
structure Causality (Op : Type*) where
  needs : Op → Finset Op
  lamport : Op → ℕ
  needs_lt : ∀ o, ∀ p ∈ needs o, lamport p < lamport o

/-- The operations taken in and those that wait. -/
structure Holder (Op : Type*) where
  held : Finset Op
  waiting : Finset Op
deriving DecidableEq

variable {Op : Type*} [DecidableEq Op] (c : Causality Op)

/-- Everything that a member needs is a member. -/
def Causality.Closed (s : Finset Op) : Prop := ∀ o ∈ s, c.needs o ⊆ s

instance (s : Finset Op) : Decidable (c.Closed s) :=
  inferInstanceAs (Decidable (∀ o ∈ s, c.needs o ⊆ s))

/-- The members of several sets. -/
def together : List (Finset Op) → Finset Op
  | [] => ∅
  | s :: l => s ∪ together l

namespace Holder

def empty : Holder Op := ⟨∅, ∅⟩

/-- Takes in what needs nothing more, again and again. -/
def settle : ℕ → Holder Op → Holder Op
  | 0, h => h
  | n + 1, h =>
      let ready := h.waiting.filter (c.needs · ⊆ h.held)
      if ready = ∅ then h else settle n ⟨h.held ∪ ready, h.waiting \ ready⟩

def receive (h : Holder Op) (ops : Finset Op) : Holder Op :=
  let waiting := (h.waiting ∪ ops) \ h.held
  settle c waiting.card ⟨h.held, waiting⟩

def receiveAll (h : Holder Op) (batches : List (Finset Op)) : Holder Op :=
  batches.foldl (receive c) h

/-- What is held is closed, and nothing waits that could be taken in. -/
structure Sound (h : Holder Op) : Prop where
  closed : c.Closed h.held
  stuck : ∀ o ∈ h.waiting, ¬c.needs o ⊆ h.held

end Holder

variable {c}

@[simp] lemma together_nil : together ([] : List (Finset Op)) = ∅ := rfl

@[simp] lemma together_cons (s : Finset Op) (l : List (Finset Op)) :
    together (s :: l) = s ∪ together l := rfl

@[simp] lemma together_append (l m : List (Finset Op)) :
    together (l ++ m) = together l ∪ together m := by
  induction l with
  | nil => simp
  | cons s l ih => rw [List.cons_append, together_cons, together_cons, ih, Finset.union_assoc]

omit [DecidableEq Op] in
lemma closed_empty : c.Closed ∅ := fun _ ho => absurd ho (Finset.notMem_empty _)

namespace Holder

omit [DecidableEq Op] in
lemma sound_empty : (empty : Holder Op).Sound c :=
  ⟨closed_empty, fun _ ho => absurd ho (Finset.notMem_empty _)⟩

section Settle
variable {n : ℕ} {h : Holder Op}

lemma settle_succ :
    settle c (n + 1) h = if h.waiting.filter (c.needs · ⊆ h.held) = ∅ then h
      else settle c n ⟨h.held ∪ h.waiting.filter (c.needs · ⊆ h.held),
        h.waiting \ h.waiting.filter (c.needs · ⊆ h.held)⟩ := rfl

lemma settle_all : (settle c n h).held ∪ (settle c n h).waiting = h.held ∪ h.waiting := by
  induction n generalizing h with
  | zero => rfl
  | succ n ih =>
    rw [settle_succ]
    split
    · rfl
    · rw [ih, Finset.union_assoc, Finset.union_sdiff_of_subset (Finset.filter_subset _ _)]

lemma held_subset_settle : h.held ⊆ (settle c n h).held := by
  induction n generalizing h with
  | zero => exact Finset.Subset.refl _
  | succ n ih =>
    rw [settle_succ]
    split
    · exact Finset.Subset.refl _
    · exact Finset.subset_union_left.trans (ih (h := ⟨h.held ∪ _, _⟩))

lemma closed_settle (hc : c.Closed h.held) : c.Closed (settle c n h).held := by
  induction n generalizing h with
  | zero => exact hc
  | succ n ih =>
    rw [settle_succ]
    split
    · exact hc
    · refine ih fun o ho => ?_
      rcases Finset.mem_union.1 ho with ho | ho
      · exact (hc o ho).trans Finset.subset_union_left
      · exact (Finset.mem_filter.1 ho).2.trans Finset.subset_union_left

lemma stuck_settle (hn : h.waiting.card ≤ n) :
    ∀ o ∈ (settle c n h).waiting, ¬c.needs o ⊆ (settle c n h).held := by
  induction n generalizing h with
  | zero =>
    intro o ho
    rw [settle, Finset.card_eq_zero.1 (Nat.le_zero.1 hn)] at ho
    exact absurd ho (Finset.notMem_empty o)
  | succ n ih =>
    rw [settle_succ]
    split
    · next hready =>
      exact fun o ho hneeds => Finset.eq_empty_iff_forall_notMem.1 hready o
        (Finset.mem_filter.2 ⟨ho, hneeds⟩)
    · next hready =>
      refine ih ?_
      have hlt : (h.waiting \ h.waiting.filter (c.needs · ⊆ h.held)).card < h.waiting.card := by
        obtain ⟨o, ho⟩ := Finset.nonempty_iff_ne_empty.2 hready
        exact Finset.card_lt_card ((Finset.ssubset_iff_of_subset Finset.sdiff_subset).2
          ⟨o, Finset.filter_subset _ _ ho, fun hno => (Finset.mem_sdiff.1 hno).2 ho⟩)
      exact Nat.le_of_lt_succ (hlt.trans_le hn)

end Settle

section Receive
variable {h : Holder Op} {ops : Finset Op} {batches : List (Finset Op)}

lemma receive_all :
    (receive c h ops).held ∪ (receive c h ops).waiting = h.held ∪ h.waiting ∪ ops := by
  rw [receive, settle_all, Finset.union_sdiff_self_eq_union, Finset.union_assoc]

lemma held_subset_receive : h.held ⊆ (receive c h ops).held :=
  held_subset_settle (h := ⟨h.held, (h.waiting ∪ ops) \ h.held⟩)

lemma Sound.receive (hs : h.Sound c) : (receive c h ops).Sound c :=
  ⟨closed_settle hs.closed, stuck_settle le_rfl⟩

lemma receiveAll_all : (receiveAll c h batches).held ∪ (receiveAll c h batches).waiting =
    h.held ∪ h.waiting ∪ together batches := by
  induction batches generalizing h with
  | nil => rw [together_nil, Finset.union_empty]; rfl
  | cons ops batches ih =>
    rw [together_cons, ← Finset.union_assoc, ← receive_all (c := c)]
    exact ih

lemma held_subset_receiveAll : h.held ⊆ (receiveAll c h batches).held := by
  induction batches generalizing h with
  | nil => exact Finset.Subset.refl _
  | cons ops batches ih => exact held_subset_receive.trans ih

lemma Sound.receiveAll (hs : h.Sound c) : (receiveAll c h batches).Sound c := by
  induction batches generalizing h with
  | nil => exact hs
  | cons ops batches ih => exact ih hs.receive

/-- Of a closed set that is at hand, nothing waits. -/
lemma Sound.closed_subset (hs : h.Sound c) {s : Finset Op} (hc : c.Closed s)
    (hsub : s ⊆ h.held ∪ h.waiting) : s ⊆ h.held := by
  have hlater : ∀ n, ∀ o ∈ s, c.lamport o < n → o ∈ h.held := by
    intro n
    induction n with
    | zero => exact fun o _ hlt => absurd hlt (Nat.not_lt_zero _)
    | succ n ih =>
      intro o ho hlt
      rcases Finset.mem_union.1 (hsub ho) with hheld | hwaits
      · exact hheld
      · refine absurd (fun p hp => ?_) (hs.stuck o hwaits)
        exact ih p (hc o ho hp) ((c.needs_lt o p hp).trans_le (Nat.le_of_lt_succ hlt))
  exact fun o ho => hlater _ o ho (Nat.lt_succ_self _)

/-- From nothing, everything is taken in when it is closed. -/
lemma receiveAll_empty (hc : c.Closed (together batches)) :
    receiveAll c empty batches = ⟨together batches, ∅⟩ := by
  have hsound : (Holder.receiveAll c empty batches).Sound c := sound_empty.receiveAll
  have hall : (Holder.receiveAll c empty batches).held ∪
      (Holder.receiveAll c empty batches).waiting = together batches := by
    rw [receiveAll_all]
    exact (congrArg (· ∪ together batches) (Finset.union_empty ∅)).trans (Finset.empty_union _)
  have hheld : (Holder.receiveAll c empty batches).held = together batches :=
    (hall ▸ Finset.subset_union_left).antisymm (hsound.closed_subset hc hall.ge)
  have hnone : (Holder.receiveAll c empty batches).waiting = ∅ := by
    refine Finset.eq_empty_of_forall_notMem fun o ho => hsound.stuck o ho ?_
    rw [hheld]
    exact hc o (hall ▸ Finset.mem_union_right _ ho)
  rw [← hheld, ← hnone]

end Receive

end Holder
end LibrePaper.Library
