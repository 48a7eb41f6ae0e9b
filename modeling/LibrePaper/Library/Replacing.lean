import LibrePaper.Library.Lists

/-!
# Replacing ranges of a list

A list of replacements in positions of one list. They are applied from the last to the first, or in
order, each one moved by the replacements before it. When each one begins where the one before it
ends or later, both orders leave the same list.
-/
namespace LibrePaper.Library
open List
variable {α : Type*}

/-- Takes out `delete` elements at `pos` and puts others in their place. -/
structure Replacement (α : Type*) where
  pos : ℕ
  delete : ℕ
  insert : List α

namespace Replacement

def stop (e : Replacement α) : ℕ := e.pos + e.delete

/-- The range that a replacement takes out. -/
def range (e : Replacement α) : ℕ × ℕ := (e.pos, e.pos + e.delete)

/-- From the last to the first. -/
def fromLast (text : List α) (edits : List (Replacement α)) : List α :=
  edits.foldr (fun e text => splice text e.pos e.stop e.insert) text

/-- The list and the shift of positions after a replacement. -/
def next (s : List α × ℤ) (e : Replacement α) : List α × ℤ :=
  (splice s.1 (e.pos + s.2).toNat (e.stop + s.2).toNat e.insert,
    s.2 + e.insert.length - e.delete)

/-- In order, each one moved by those before it. -/
def inOrder (text : List α) (edits : List (Replacement α)) : List α :=
  (edits.foldl next (text, 0)).1

/-- Each replacement begins where the one before it ends or later, and at `lo` or later. -/
def Follows (lo : ℕ) (edits : List (Replacement α)) : Prop :=
  (∀ e ∈ edits, lo ≤ e.pos) ∧ edits.Pairwise fun a b => a.stop ≤ b.pos

variable {lo : ℕ} {edits : List (Replacement α)} {text : List α}

lemma Follows.tail {e : Replacement α} (h : Follows lo (e :: edits)) : Follows e.stop edits :=
  ⟨(pairwise_cons.1 h.2).1, (pairwise_cons.1 h.2).2⟩

/-- What stands before all replacements stays. -/
lemma take_fromLast (h : ∀ e ∈ edits, lo ≤ e.pos) (hlo : lo ≤ text.length) :
    (fromLast text edits).take lo = text.take lo := by
  induction edits with
  | nil => rfl
  | cons e edits ih =>
    have hrest := ih fun x hx => h x (mem_cons_of_mem _ hx)
    have hlen : lo ≤ (fromLast text edits).length := by
      have hlen := congrArg length hrest
      rw [length_take, length_take] at hlen
      omega
    have hpos := h e mem_cons_self
    show (splice (fromLast text edits) e.pos e.stop e.insert).take lo = _
    rw [splice, append_assoc, take_append_of_le_length, take_take, Nat.min_eq_left hpos, hrest]
    rw [length_take]
    omega

/-- In order behind a part that is done, the rest ends as it does from the last. -/
lemma foldl_next {front : List α} {shift : ℤ} (h : Follows lo edits)
    (hfit : ∀ e ∈ edits, e.stop ≤ text.length) (hfront : (front.length : ℤ) = lo + shift) :
    (edits.foldl next (front ++ text.drop lo, shift)).1 =
      front ++ (fromLast text edits).drop lo := by
  induction edits generalizing lo front shift with
  | nil => rfl
  | cons e edits ih =>
    have hlo := h.1 e mem_cons_self
    have hstop := hfit e mem_cons_self
    have hle : e.pos ≤ e.stop := Nat.le_add_right _ _
    have hfit' : ∀ x ∈ edits, x.stop ≤ text.length := fun x hx =>
      hfit x (mem_cons_of_mem _ hx)
    have hkept : ((text.drop lo).take (e.pos - lo)).length = e.pos - lo := by
      rw [length_take, length_drop]
      omega
    have hfirst : (e.pos + shift).toNat = front.length + (e.pos - lo) := by omega
    have hlast : (e.stop + shift).toNat = front.length + (e.stop - lo) := by omega
    have hsplice : splice (front ++ text.drop lo) (e.pos + shift).toNat (e.stop + shift).toNat
        e.insert = front ++ (text.drop lo).take (e.pos - lo) ++ e.insert ++ text.drop e.stop := by
      rw [splice, hfirst, hlast, take_length_add_append, drop_length_add_append,
        drop_drop, Nat.add_sub_cancel' (hlo.trans hle)]
    have hnext : next (front ++ text.drop lo, shift) e =
        (front ++ (text.drop lo).take (e.pos - lo) ++ e.insert ++ text.drop e.stop,
          shift + e.insert.length - e.delete) := Prod.ext hsplice rfl
    have hbefore := take_fromLast h.tail.1 hstop
    have hpre : (fromLast text edits).take e.pos = text.take e.pos := by
      have hshort := congrArg (take e.pos) hbefore
      rwa [take_take, take_take, Nat.min_eq_left hle] at hshort
    rw [foldl_cons, hnext, ih h.tail hfit' ?_]
    · show _ = front ++ (splice (fromLast text edits) e.pos e.stop e.insert).drop lo
      rw [splice, hpre, append_assoc (text.take e.pos),
        drop_append_of_le_length (by rw [length_take]; omega), drop_take]
      simp
    · rw [length_append, length_append, hkept]
      have hdelete : e.stop = e.pos + e.delete := rfl
      omega

/-- Replacements that follow each other leave the same list in both orders. -/
lemma fromLast_eq_inOrder (h : edits.Pairwise fun a b => a.stop ≤ b.pos)
    (hfit : ∀ e ∈ edits, e.stop ≤ text.length) : fromLast text edits = inOrder text edits := by
  have hrun : (edits.foldl next ([] ++ text.drop 0, 0)).1 = [] ++ (fromLast text edits).drop 0 :=
    foldl_next ⟨fun _ _ => Nat.zero_le _, h⟩ hfit rfl
  exact hrun.symm

end Replacement

end LibrePaper.Library
