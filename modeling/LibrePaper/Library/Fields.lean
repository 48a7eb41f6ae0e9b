import Mathlib

/-!
# Lines of fields

Texts that are joined with a separator and cut apart again, and numbers written in digits.
-/
namespace LibrePaper.Library
open List Option

variable {α : Type*} [DecidableEq α] {sep : α}

/-- What follows a prefix. -/
def stripPrefix (front text : List α) : Option (List α) :=
  if front <+: text then some (text.drop front.length) else none

@[simp] lemma stripPrefix_append (front text : List α) :
    stripPrefix front (front ++ text) = some text := by
  rw [stripPrefix, if_pos (prefix_append _ _), drop_left]

lemma stripPrefix_eq_some {front text rest : List α} :
    stripPrefix front text = some rest ↔ text = front ++ rest := by
  constructor
  · intro h
    unfold stripPrefix at h
    split at h
    next hprefix =>
      obtain ⟨more, rfl⟩ := hprefix
      rw [drop_left] at h
      cases h
      rfl
    next => cases h
  · rintro rfl
    exact stripPrefix_append front rest

/-- What is before and what is after the first separator. -/
def splitOnce (sep : α) : List α → Option (List α × List α)
  | [] => none
  | c :: text =>
    if c = sep then some ([], text) else (splitOnce sep text).map fun p => (c :: p.1, p.2)

/-- What is before and what is after the last separator. -/
def rsplitOnce (sep : α) (text : List α) : Option (List α × List α) :=
  (splitOnce sep text.reverse).map fun p => (p.2.reverse, p.1.reverse)

/-- At most `n` parts; the last one is what is left. -/
def splitn (sep : α) : ℕ → List α → List (List α)
  | 0, _ => []
  | 1, text => [text]
  | n + 2, text => match splitOnce sep text with
    | none => [text]
    | some (front, rest) => front :: splitn sep (n + 1) rest

/-- Fields with a separator behind each, and a last one. -/
def joined (sep : α) (fields : List (List α)) (last : List α) : List α :=
  fields.foldr (fun field text => field ++ sep :: text) last

/-- The number of a text of digits. -/
def digitsValue (text : List Char) : Option ℕ :=
  if text ≠ [] ∧ text.all Char.isDigit then some (Nat.ofDigitChars 10 text 0) else none

def showInt (n : ℤ) : List Char :=
  if n < 0 then '-' :: Nat.toDigits 10 n.natAbs else Nat.toDigits 10 n.natAbs

/-- A number with or without a sign. -/
def readInt : List Char → Option ℤ
  | '-' :: text => (digitsValue text).map fun n : ℕ => -(n : ℤ)
  | '+' :: text => (digitsValue text).map fun n : ℕ => (n : ℤ)
  | text => (digitsValue text).map fun n : ℕ => (n : ℤ)

end LibrePaper.Library
