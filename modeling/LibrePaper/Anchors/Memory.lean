import LibrePaper.Library.Widths

/-!
# Remembered text

Offsets count UTF-16 code units. A deletion that takes text from comment anchors is
remembered with what they covered, and an insertion is searched for a remembered text that
it holds exactly once.
-/
namespace LibrePaper.Anchors
open Library Option

def charLenUtf16 (c : Char) : ℕ := if c.toNat < 0x10000 then 1 else 2

lemma charLenUtf16_pos (c : Char) : 0 < charLenUtf16 c := by
  unfold charLenUtf16
  split <;> decide

/-- The length of a text in UTF-16 code units. -/
abbrev lenUtf16 (text : List Char) : ℕ := width charLenUtf16 text

/-- The text of a range, whose split characters are included whole. -/
abbrev slice16Widened (text : List Char) (start stop : ℕ) : List Char :=
  widened charLenUtf16 text start stop

inductive Occurrence where
  | none
  | one (start stop : ℕ)
  | many
deriving DecidableEq

/-- Where a text first occurs in another. -/
def firstMatch (needle : List Char) : List Char → Option ℕ
  | [] => if needle = [] then some 0 else none
  | c :: hay => if needle <+: c :: hay then some 0 else (firstMatch needle hay).map (· + 1)

/-- Where `needle` occurs in `hay`, by characters, when it occurs exactly once. -/
def uniqueOccurrence (hay needle : List Char) : Occurrence :=
  if needle = [] then .many
  else match firstMatch needle hay with
    | none => .none
    | some start =>
      if (firstMatch needle (hay.drop (start + 1))).isSome then .many
      else .one start (start + needle.length)

/-- Whether a text occurs in another at a character. -/
def OccursAt (hay needle : List Char) (i : ℕ) : Prop := needle <+: hay.drop i

variable {needle hay : List Char} {i : ℕ}

lemma firstMatch_none (h : firstMatch needle hay = none) (i : ℕ) : ¬ OccursAt hay needle i := by
  induction hay generalizing i with
  | nil =>
    unfold firstMatch at h
    split_ifs at h with hne
    simpa [OccursAt] using hne
  | cons c hay ih =>
    unfold firstMatch at h
    split_ifs at h with hpre
    cases i with
    | zero => exact hpre
    | succ i => exact ih (map_eq_none_iff.1 h) i

lemma firstMatch_some (h : firstMatch needle hay = some i) :
    OccursAt hay needle i ∧ ∀ j < i, ¬ OccursAt hay needle j := by
  induction hay generalizing i with
  | nil =>
    unfold firstMatch at h
    split_ifs at h with hne
    cases h
    exact ⟨by simp [OccursAt, hne], fun j hj => absurd hj (Nat.not_lt_zero j)⟩
  | cons c hay ih =>
    unfold firstMatch at h
    split_ifs at h with hpre
    · cases h
      exact ⟨hpre, fun j hj => absurd hj (Nat.not_lt_zero j)⟩
    · obtain ⟨k, hk, rfl⟩ := map_eq_some_iff.1 h
      obtain ⟨hat, hbefore⟩ := ih hk
      refine ⟨hat, fun j hj => ?_⟩
      cases j with
      | zero => exact hpre
      | succ j => exact hbefore j (Nat.lt_of_succ_lt_succ hj)

lemma uniqueOccurrence_one {start stop : ℕ} (h : uniqueOccurrence hay needle = .one start stop) :
    needle ≠ [] ∧ OccursAt hay needle start ∧ ∀ i, OccursAt hay needle i → i = start := by
  unfold uniqueOccurrence at h
  split_ifs at h with hne
  split at h
  · cases h
  · rename_i i hi
    split_ifs at h with hagain
    cases h
    obtain ⟨hat, hbefore⟩ := firstMatch_some hi
    refine ⟨hne, hat, fun j hj => ?_⟩
    rcases lt_trichotomy j start with hlt | rfl | hgt
    · exact absurd hj (hbefore j hlt)
    · rfl
    · refine absurd ?_ (firstMatch_none (not_isSome_iff_eq_none.1 hagain)
        (j - (start + 1)))
      unfold OccursAt at hj ⊢
      rwa [List.drop_drop, Nat.add_sub_cancel' hgt]

/-- A text that occurs exactly once is found there. -/
lemma uniqueOccurrence_eq (hne : needle ≠ []) (hat : OccursAt hay needle i)
    (hone : ∀ j, OccursAt hay needle j → j = i) :
    uniqueOccurrence hay needle = .one i (i + needle.length) := by
  unfold uniqueOccurrence
  rw [if_neg hne]
  cases hfirst : firstMatch needle hay with
  | none => exact absurd hat (firstMatch_none hfirst i)
  | some k =>
    obtain rfl := hone k (firstMatch_some hfirst).1
    dsimp only
    rw [if_neg]
    intro hagain
    obtain ⟨j, hj⟩ := isSome_iff_exists.1 hagain
    have hlater := (firstMatch_some hj).1
    unfold OccursAt at hlater
    rw [List.drop_drop] at hlater
    have := hone _ hlater
    omega

/-- The end of an attached anchor that a deletion cut away. -/
inductive Side where
  | head
  | tail
deriving DecidableEq

/-- Text that a deletion took from an anchor: the whole of it, or one end. `offset` is
where it starts in the deleted text. -/
structure Held where
  id : ℕ
  offset : ℕ
  text : List Char
  side : Option Side
deriving DecidableEq

structure Entry where
  text : List Char
  held : List Held
deriving DecidableEq

/-- What was deleted, oldest first. -/
structure MoveMemory where
  limit : ℕ
  entries : List Entry
deriving DecidableEq

/-- Where `needle` occurs exactly once, with the shift its pieces gain there. -/
def once (hay needle : List Char) (shift : ℤ) : Option (ℕ × ℤ) :=
  match uniqueOccurrence hay needle with
  | .one start _ => some (lenUtf16 (hay.take start), shift)
  | .none | .many => none

/-- A remembered text is looked for with its newline at the other end. -/
def movedNewline (hay text : List Char) : Option (ℕ × ℤ) :=
  if text.length < 2 then none
  else if text.getLast? = some '\n' then once hay ('\n' :: text.dropLast) 1
  else if text.head? = some '\n' then once hay (text.tail ++ ['\n']) (-1)
  else none

/-- Where an insertion holds a remembered text, as it was or with its newline moved. -/
def found (inserted text : List Char) : Option (ℕ × ℤ) :=
  (once inserted text 0).or (movedNewline inserted text)

namespace MoveMemory

/-- Remembers deleted text, and forgets the oldest beyond the limit. -/
def remember (m : MoveMemory) (text : List Char) (held : List Held) : MoveMemory :=
  if text = [] ∨ held = [] then m
  else
    let entries := m.entries ++ [⟨text, held⟩]
    { m with entries := entries.drop (entries.length - m.limit) }

/-- The newest remembered text below index `below` that the insertion holds exactly once,
in a span that `free` accepts: its index, where it starts and its shift. -/
def find (m : MoveMemory) (inserted : List Char) (free : ℕ → ℕ → Bool) : ℕ → Option (ℕ × ℕ × ℤ)
  | 0 => none
  | i + 1 =>
    match m.entries[i]? with
    | none => find m inserted free i
    | some e =>
      match found inserted e.text with
      | none => find m inserted free i
      | some (pos, shift) =>
        if free pos (pos + lenUtf16 e.text) then some (i, pos, shift)
        else find m inserted free i

def drop (m : MoveMemory) (index : ℕ) : MoveMemory :=
  { m with entries := m.entries.eraseIdx index }

variable {m : MoveMemory} {inserted : List Char} {free : ℕ → ℕ → Bool} {below : ℕ}

/-- What `find` returns, and that every newer remembered text below `below` is not in the
insertion once or not free. -/
lemma find_spec {pos : ℕ} {shift : ℤ} (h : m.find inserted free below = some (i, pos, shift)) :
    i < below ∧ ∃ e, m.entries[i]? = some e ∧ found inserted e.text = some (pos, shift) ∧
      free pos (pos + lenUtf16 e.text) = true ∧
      ∀ j e', i < j → j < below → m.entries[j]? = some e' → ∀ p s,
        found inserted e'.text = some (p, s) → free p (p + lenUtf16 e'.text) = false := by
  induction below with
  | zero => cases h
  | succ b ih =>
    unfold find at h
    split at h
    · rename_i hnone
      obtain ⟨hlt, e, he, hfound, hfree, hnewer⟩ := ih h
      refine ⟨Nat.lt_succ_of_lt hlt, e, he, hfound, hfree, fun j e' hij hj he' => ?_⟩
      rcases Nat.lt_succ_iff_lt_or_eq.1 hj with hj | rfl
      · exact hnewer j e' hij hj he'
      · cases hnone.symm.trans he'
    · rename_i e₀ he₀
      split at h
      · rename_i hnone
        obtain ⟨hlt, e, he, hfound, hfree, hnewer⟩ := ih h
        refine ⟨Nat.lt_succ_of_lt hlt, e, he, hfound, hfree, fun j e' hij hj he' p s hp => ?_⟩
        rcases Nat.lt_succ_iff_lt_or_eq.1 hj with hj | rfl
        · exact hnewer j e' hij hj he' p s hp
        · obtain rfl := some.inj (he₀.symm.trans he')
          cases hnone.symm.trans hp
      · rename_i pos₀ shift₀ hsome
        split_ifs at h with hfree₀
        · obtain ⟨rfl, rfl, rfl⟩ : b = i ∧ pos₀ = pos ∧ shift₀ = shift := by simpa using h
          exact ⟨Nat.lt_succ_self b, e₀, he₀, hsome, hfree₀, fun j e' hij hj => by omega⟩
        · obtain ⟨hlt, e, he, hfound, hfree, hnewer⟩ := ih h
          refine ⟨Nat.lt_succ_of_lt hlt, e, he, hfound, hfree, fun j e' hij hj he' p s hp => ?_⟩
          rcases Nat.lt_succ_iff_lt_or_eq.1 hj with hj | rfl
          · exact hnewer j e' hij hj he' p s hp
          · obtain rfl := some.inj (he₀.symm.trans he')
            obtain ⟨rfl, rfl⟩ := Prod.mk.inj (some.inj (hsome.symm.trans hp))
            exact eq_false_of_ne_true hfree₀

lemma find_none (h : m.find inserted free below = none) {j : ℕ} {e : Entry} (hj : j < below)
    (he : m.entries[j]? = some e) {p : ℕ} {s : ℤ} (hp : found inserted e.text = some (p, s)) :
    free p (p + lenUtf16 e.text) = false := by
  induction below with
  | zero => exact absurd hj (Nat.not_lt_zero j)
  | succ b ih =>
    unfold find at h
    rcases Nat.lt_succ_iff_lt_or_eq.1 hj with hj | rfl
    · split at h
      · exact ih h hj
      · split at h
        · exact ih h hj
        · split_ifs at h
          exact ih h hj
    · rw [he] at h
      dsimp only at h
      rw [hp] at h
      dsimp only at h
      split_ifs at h with hfree
      exact eq_false_of_ne_true hfree

end MoveMemory

end LibrePaper.Anchors
