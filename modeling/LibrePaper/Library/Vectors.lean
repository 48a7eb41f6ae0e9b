import Mathlib

/-!
# Version vectors as maps

A version vector is a map from peers to the number of operations that a holder has of each.
Vectors are compared and merged peer by peer, so every fact about them is one about the
functions `counter v` in the pointwise order.
-/
namespace LibrePaper.Library
open List

/-- The number of operations a holder has of each peer; a peer without an entry has none. -/
abbrev VersionVector (P : Type) := AList fun _ : P => ℕ

variable {P : Type} [DecidableEq P]

def counter (v : VersionVector P) (p : P) : ℕ := (v.lookup p).getD 0

@[simp] lemma counter_empty (p : P) : counter (∅ : VersionVector P) p = 0 := rfl

lemma counter_insert (v : VersionVector P) (p q : P) (n : ℕ) :
    counter (v.insert q n) p = if p = q then n else counter v p := by
  split_ifs with h
  · subst h
    simp [counter]
  · simp [counter, AList.lookup_insert_ne h]

/-- An entry of the map is the counter of its peer. -/
lemma counter_of_mem {v : VersionVector P} {e : Sigma fun _ : P => ℕ} (h : e ∈ v.entries) :
    counter v e.1 = e.2 := by
  have hl : v.lookup e.1 = some e.2 := AList.mem_lookup_iff.2 h
  simp [counter, hl]

lemma mem_of_counter_pos {v : VersionVector P} {p : P} (h : 0 < counter v p) :
    ⟨p, counter v p⟩ ∈ v.entries := by
  cases hl : v.lookup p with
  | none => simp [counter, hl] at h
  | some n =>
    have hn : counter v p = n := by simp [counter, hl]
    rw [hn]
    exact AList.mem_lookup_iff.1 hl

/-- One entry of the second vector, taken over where it is larger. -/
def raise (v : VersionVector P) (e : Sigma fun _ : P => ℕ) : VersionVector P :=
  if counter v e.1 < e.2 then v.insert e.1 e.2 else v

/-- The larger counter of the two for every peer. -/
def merge (v w : VersionVector P) : VersionVector P := w.entries.foldl raise v

/-- The first vector has every operation of the second. -/
def covers (v w : VersionVector P) : Bool := w.entries.all fun e => e.2 ≤ counter v e.1

lemma counter_raise (v : VersionVector P) (e : Sigma fun _ : P => ℕ) (p : P) :
    counter (raise v e) p = if p = e.1 then max (counter v p) e.2 else counter v p := by
  unfold raise
  split_ifs with h hp hp
  · subst hp
    rw [counter_insert, if_pos rfl, max_eq_right h.le]
  · rw [counter_insert, if_neg hp]
  · subst hp
    rw [max_eq_left (not_lt.1 h)]
  · rfl

lemma counter_foldl_raise (l : List (Sigma fun _ : P => ℕ)) (v : VersionVector P) (p : P)
    (m : ℕ) (hmem : ∀ e ∈ l, e.1 = p → e.2 = m) :
    counter (l.foldl raise v) p = if p ∈ l.keys then max (counter v p) m else counter v p := by
  induction l generalizing v with
  | nil => simp
  | cons e l ih =>
    have hl : ∀ e' ∈ l, e'.1 = p → e'.2 = m := fun e' he' => hmem e' (mem_cons_of_mem e he')
    rw [foldl_cons, ih _ hl, counter_raise, keys_cons]
    by_cases hp : p = e.1
    · have he : e.2 = m := hmem e mem_cons_self hp.symm
      simp [hp, he]
    · simp [hp]

lemma counter_merge (v w : VersionVector P) : counter (merge v w) = counter v ⊔ counter w := by
  funext p
  have hmem : ∀ e ∈ w.entries, e.1 = p → e.2 = counter w p := by
    intro e he hp
    rw [← hp, counter_of_mem he]
  rw [merge, counter_foldl_raise w.entries v p _ hmem]
  split_ifs with h
  · rfl
  · have h0 : counter w p = 0 := by
      have hl : w.lookup p = none := AList.lookup_eq_none.2 h
      simp [counter, hl]
    simp [h0]

lemma covers_iff (v w : VersionVector P) : covers v w = true ↔ counter w ≤ counter v := by
  simp only [covers, all_eq_true, decide_eq_true_eq]
  constructor
  · intro h p
    rcases Nat.eq_zero_or_pos (counter w p) with h0 | h0
    · rw [h0]
      exact Nat.zero_le _
    · exact h _ (mem_of_counter_pos h0)
  · intro h e he
    rw [← counter_of_mem he]
    exact h e.1

/-- An operation: its peer and its position among the peer's operations. -/
abbrev Operation (P : Type) := P × ℕ

/-- The operations that a vector covers. -/
def operations (v : VersionVector P) : Set (Operation P) := {o | o.2 < counter v o.1}

@[simp] lemma mem_operations {v : VersionVector P} {o : Operation P} :
    o ∈ operations v ↔ o.2 < counter v o.1 := Iff.rfl

lemma operations_subset {v w : VersionVector P} :
    operations v ⊆ operations w ↔ counter v ≤ counter w := by
  constructor
  · intro h p
    by_contra hlt
    have hp : (p, counter w p) ∈ operations w := h (not_le.1 hlt)
    exact lt_irrefl (counter w p) hp
  · intro h o ho
    exact ho.trans_le (h o.1)

@[simp] lemma operations_empty : operations (∅ : VersionVector P) = ∅ := by
  ext o
  simp

@[simp] lemma operations_merge (v w : VersionVector P) :
    operations (merge v w) = operations v ∪ operations w := by
  ext o
  simp [counter_merge]

end LibrePaper.Library
