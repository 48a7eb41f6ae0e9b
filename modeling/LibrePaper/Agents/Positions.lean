import LibrePaper.Anchors.TextIndex

/-!
# Lines and columns of a source

A scan passes characters and counts lines and UTF-16 units. The scan of a long source is saved every
few hundred units, up to a number of times, and a position is then found from the nearest saved scan.
-/
namespace LibrePaper.Agents.Positions
open Library Anchors Anchors.TextIndex List

/-- A scan state. -/
structure Cursor where
  byte : ℕ
  line : ℕ
  units : ℕ
  lineStartUnits : ℕ
deriving DecidableEq

def MAX_OFFSET_ITEMS : ℕ := 65536

namespace Cursor

def START : Cursor := ⟨0, 1, 0, 0⟩

/-- Passes one character. -/
def step (cursor : Cursor) (character : Char) : Cursor :=
  let units := cursor.units + charLenUtf16 character
  { byte := cursor.byte + character.utf8Size
    line := if character = '\n' then cursor.line + 1 else cursor.line
    units := units
    lineStartUnits := if character = '\n' then units else cursor.lineStartUnits }

/-- The last byte offset, no later than one, that is between two characters. -/
def boundaryBefore (text : List Char) : ℕ → ℕ
  | 0 => 0
  | stop + 1 =>
    if (boundaryAt Char.utf8Size text (stop + 1)).isSome then stop + 1 else boundaryBefore text stop

/-- Passes the characters from the cursor to a byte offset. -/
def advanceTo (cursor : Cursor) (text : List Char) (goal : ℕ) : Cursor :=
  let stop := boundaryBefore text (min goal (byteLen text))
  if stop ≤ cursor.byte then cursor
  else ((slice8 text cursor.byte stop).getD []).foldl step cursor

/-- The line and the column in UTF-16 units, both from one. -/
def position (cursor : Cursor) : ℕ × ℕ := (cursor.line, cursor.units - cursor.lineStartUnits + 1)

end Cursor

open Cursor

def sourcePosition (source : List Char) (offset : ℕ) : ℕ × ℕ :=
  (START.advanceTo source offset).position

def scanFrom : List Cursor → Cursor → ℕ → List Char → List Cursor
  | checkpoints, _, _, [] => checkpoints
  | checkpoints, cursor, next, character :: source =>
    let cursor := cursor.step character
    if next ≤ cursor.units ∧ checkpoints.length < MAX_OFFSET_ITEMS then
      scanFrom (checkpoints ++ [cursor]) cursor (cursor.units - cursor.units % 256 + 256) source
    else scanFrom checkpoints cursor next source

/-- The saved scan states of a source. -/
def scanOffsets (source : List Char) : List Cursor := scanFrom [START] START 256 source

/-- How many saved states are no later than an offset. They come first, as the states are in order. -/
def partitionPoint (checkpoints : List Cursor) (offset : ℕ) : ℕ :=
  (checkpoints.takeWhile fun checkpoint => checkpoint.byte ≤ offset).length

def indexedPosition (source : List Char) (offsets : Option (List Cursor)) (offset : ℕ) : ℕ × ℕ :=
  match offsets with
  | none => sourcePosition source offset
  | some checkpoints =>
    let cursor := (checkpoints[partitionPoint checkpoints offset - 1]?).getD START
    if cursor.byte < offset ∧ checkpoints.getLast?.any (fun last => last.byte < offset) ∧
        MAX_OFFSET_ITEMS ≤ checkpoints.length then sourcePosition source offset
    else (cursor.advanceTo source offset).position

variable {text p q source : List Char} {checkpoints : List Cursor} {offset next : ℕ}

lemma byte_foldl (cursor : Cursor) (p : List Char) :
    (p.foldl step cursor).byte = cursor.byte + byteLen p := by
  induction p generalizing cursor with
  | nil => rfl
  | cons c p ih =>
    rw [foldl_cons, ih]
    exact Nat.add_assoc _ _ _

lemma byte_passed (p : List Char) : (p.foldl step START).byte = byteLen p :=
  (byte_foldl START p).trans (Nat.zero_add _)

lemma floorAt_le_length (text : List Char) (offset : ℕ) :
    floorAt Char.utf8Size text offset ≤ text.length := by
  induction text generalizing offset with
  | nil => exact le_rfl
  | cons c text ih =>
    unfold floorAt
    split_ifs
    · exact Nat.succ_le_succ (ih _)
    · exact Nat.zero_le _

lemma boundaryBefore_eq (text : List Char) (stop : ℕ) :
    boundaryBefore text stop = byteLen (text.take (floorAt Char.utf8Size text stop)) := by
  induction stop with
  | zero =>
    rw [floorAt_zero Char.utf8Size_pos]
    rfl
  | succ stop ih =>
    unfold boundaryBefore boundaryAt
    by_cases hat : byteLen (text.take (floorAt Char.utf8Size text (stop + 1))) = stop + 1
    · rw [if_pos hat, if_pos (show (some _).isSome = true from rfl), hat]
    · rw [if_neg hat, if_neg (by simp), ih]
      have hlt : byteLen (text.take (floorAt Char.utf8Size text (stop + 1))) ≤ stop :=
        Nat.le_of_lt_succ (lt_of_le_of_ne (width_take_floorAt text (stop + 1)) hat)
      have hle := floorAt_mono (w := Char.utf8Size) (l := text) hlt
      have hself := floorAt_width Char.utf8Size_pos
        (text.take (floorAt Char.utf8Size text (stop + 1)))
        (text.drop (floorAt Char.utf8Size text (stop + 1)))
      rw [take_append_drop, length_take, Nat.min_eq_left (floorAt_le_length _ _)] at hself
      rw [hself] at hle
      rw [Nat.le_antisymm hle (floorAt_mono (Nat.le_succ stop))]

lemma boundaryBefore_min (text : List Char) (goal : ℕ) :
    boundaryBefore text (min goal (byteLen text)) =
      byteLen (text.take (floorAt Char.utf8Size text goal)) := by
  rw [boundaryBefore_eq]
  rcases Nat.lt_or_ge (byteLen text) goal with hlt | hle
  · have hall := floorAt_width Char.utf8Size_pos text []
    rw [append_nil] at hall
    rw [Nat.min_eq_right hlt.le, hall, floorAt_past hlt]
  · rw [Nat.min_eq_left hle]

/-- A scan that is resumed gets to where a scan from the start gets. -/
lemma advanceTo_passed (hle : byteLen p ≤ offset) :
    (p.foldl step START).advanceTo (p ++ q) offset =
      ((p ++ q).take (floorAt Char.utf8Size (p ++ q) offset)).foldl step START := by
  have hp : p.length ≤ floorAt Char.utf8Size (p ++ q) offset := by
    have h := floorAt_mono (w := Char.utf8Size) (l := p ++ q) hle
    rwa [floorAt_width Char.utf8Size_pos] at h
  obtain ⟨r, hr⟩ : ∃ r, (p ++ q).take (floorAt Char.utf8Size (p ++ q) offset) = p ++ r :=
    ⟨_, by rw [take_append, take_of_length_le hp]⟩
  have hslice : slice8 (p ++ q) (byteLen p) (byteLen (p ++ r)) = some r :=
    slice8_eq_some.2 ⟨p, (p ++ q).drop (floorAt Char.utf8Size (p ++ q) offset),
      by rw [← hr, take_append_drop], rfl, rfl⟩
  unfold advanceTo
  rw [boundaryBefore_min, hr, byte_passed]
  dsimp only
  by_cases hstop : byteLen (p ++ r) ≤ byteLen p
  · have hnil : r = [] := width_eq_zero Char.utf8Size_pos (by
      rw [byteLen, byteLen, width_append] at hstop
      omega)
    rw [if_pos hstop, hnil, append_nil]
  · rw [if_neg hstop, hslice, foldl_append]
    rfl

/-- The saved states of a part of the source that was scanned. -/
structure Saved (checkpoints : List Cursor) (p : List Char) : Prop where
  passed : ∀ checkpoint ∈ checkpoints, ∃ r, r <+: p ∧ checkpoint = r.foldl step START
  first : checkpoints.head? = some START
  sorted : checkpoints.Pairwise fun a b => a.byte < b.byte

lemma saved_scanFrom (h : Saved checkpoints p) :
    Saved (scanFrom checkpoints (p.foldl step START) next source) (p ++ source) := by
  induction source generalizing checkpoints p next with
  | nil => rwa [append_nil]
  | cons c source ih =>
    have hstep : (p.foldl step START).step c = (p ++ [c]).foldl step START := by
      rw [foldl_append]
      rfl
    have hkeep : Saved checkpoints (p ++ [c]) := by
      refine ⟨fun checkpoint hin => ?_, h.first, h.sorted⟩
      obtain ⟨r, hr, rfl⟩ := h.passed checkpoint hin
      exact ⟨r, hr.trans (prefix_append p [c]), rfl⟩
    have hsplit : p ++ c :: source = p ++ [c] ++ source := by simp
    unfold scanFrom
    rw [hstep, hsplit]
    dsimp only
    split_ifs
    · refine ih ⟨fun checkpoint hin => ?_, ?_, ?_⟩
      · rcases mem_append.1 hin with hin | hin
        · exact hkeep.passed checkpoint hin
        · exact ⟨p ++ [c], prefix_rfl, mem_singleton.1 hin⟩
      · rw [head?_append, h.first]
        rfl
      · refine pairwise_append.2 ⟨h.sorted, pairwise_singleton _ _, ?_⟩
        intro a ha b hb
        obtain ⟨r, ⟨s, rfl⟩, rfl⟩ := h.passed a ha
        have hpos := c.utf8Size_pos
        rw [mem_singleton.1 hb, byte_passed, byte_passed]
        simp only [byteLen, width_append, width_cons, width_nil]
        omega
    · exact ih hkeep

lemma saved_scanOffsets (source : List Char) : Saved (scanOffsets source) source :=
  saved_scanFrom (p := []) ⟨fun _ hin => ⟨[], prefix_rfl, mem_singleton.1 hin⟩, rfl,
    pairwise_singleton _ _⟩

/-- The state that a position is found from is no later than its offset. -/
lemma nearest_passed (h : Saved checkpoints source) (offset : ℕ) : ∃ r, r <+: source ∧
    (checkpoints[partitionPoint checkpoints offset - 1]?).getD START = r.foldl step START ∧
      byteLen r ≤ offset := by
  have hhead := h.first
  cases checkpoints with
  | nil => simp at hhead
  | cons first rest =>
    rw [head?_cons, Option.some.injEq] at hhead
    subst hhead
    let early : List Cursor := (START :: rest).takeWhile fun checkpoint => checkpoint.byte ≤ offset
    have hpre : early <+: START :: rest := takeWhile_prefix _
    have hpos : early.length - 1 < early.length := by
      have hne : early = START :: rest.takeWhile fun checkpoint => checkpoint.byte ≤ offset :=
        takeWhile_cons_of_pos (decide_eq_true (Nat.zero_le offset))
      rw [hne, length_cons]
      omega
    have hin : early[early.length - 1] ∈ early := getElem_mem hpos
    obtain ⟨r, hr, heq⟩ := h.passed _ (hpre.subset hin)
    have hbyte : early[early.length - 1].byte ≤ offset :=
      of_decide_eq_true (mem_takeWhile_imp (l := START :: rest) hin)
    refine ⟨r, hr, ?_, ?_⟩
    · rw [← heq, partitionPoint, hpre.getElem hpos, getElem?_eq_getElem]
      rfl
    · rwa [heq, byte_passed] at hbyte

/-- A position found from the saved states is the position found by a scan. -/
theorem indexedPosition_eq (source : List Char) :
    (scanOffsets source).Pairwise (fun a b => a.byte < b.byte) ∧
      ∀ offset, indexedPosition source none offset = sourcePosition source offset ∧
        indexedPosition source (some (scanOffsets source)) offset =
          sourcePosition source offset := by
  have hsaved := saved_scanOffsets source
  refine ⟨hsaved.sorted, fun offset => ⟨rfl, ?_⟩⟩
  obtain ⟨r, ⟨s, rfl⟩, hcursor, hle⟩ := nearest_passed hsaved offset
  unfold indexedPosition
  dsimp only
  rw [hcursor]
  split_ifs
  · rfl
  · unfold sourcePosition
    rw [advanceTo_passed hle]
    exact congrArg Cursor.position (advanceTo_passed (p := []) (Nat.zero_le offset)).symm

end LibrePaper.Agents.Positions
