import LibrePaper.Anchors.Planner
import LibrePaper.Library.Strands

/-!
# Stored anchors

A record keeps the place of an anchor: its file and two cursors, each on a character of the
text. The text keeps its deleted characters, so that a cursor can still be resolved. A plan
writes the anchors that it has set, but for those that only shifted.
-/
namespace LibrePaper.Anchors
open Library

/-- A cursor on a character of a text. -/
structure Cursor where
  container : ℕ
  char : ℕ
deriving DecidableEq

/-- Where an anchor sits. -/
structure Place where
  file : ℕ
  start : Option Cursor
  stop : Option Cursor
  detached : Bool
  length : Option ℕ
  fragment : Option ℕ
  offset : Option ℕ
deriving DecidableEq

/-- An attached place at the given cursors. -/
def Place.attached (file : ℕ) (start stop : Cursor) : Place where
  file := file
  start := some start
  stop := some stop
  detached := false
  length := none
  fragment := none
  offset := none

/-- The texts by file, and the record of each anchor. -/
structure Store where
  texts : ℕ → Option (Strand Char)
  records : List (ℕ × Place)
  nodup : (records.map Prod.fst).Nodup

/-- The body of a text. -/
abbrev body (t : Strand Char) : List Char := standing t.elems

/-- A cursor resolved to its offset, and whether its character was deleted. A cursor made for
another text does not resolve. -/
def cursorPos (file : ℕ) (t : Strand Char) (c : Cursor) : Option (ℕ × Bool) :=
  if c.container ≠ file then none
  else (seek charLenUtf16 c.char t.elems).map fun r => (r.1, !r.2.live)

/-- A cursor on the character at an offset, or none when there is none. -/
def cursorAt (file : ℕ) (t : Strand Char) (units : ℕ) : Option Cursor :=
  (boundaryAt charLenUtf16 (body t) units).bind fun pos =>
    ((t.elems.filter Elem.live)[pos]?).map fun e => ⟨file, e.id⟩

/-- Where the last character before `stop` starts. -/
def lastCharStart (stop : ℕ) : ℕ → ℕ → List Char → ℕ
  | start, _, [] => start
  | start, units, c :: text =>
    if stop ≤ units then start else lastCharStart stop units (units + charLenUtf16 c) text

/-- The width of the character at an offset; one unit at the end of the text. -/
def widthAt (text : List Char) (units : ℕ) : ℕ :=
  match text.drop (ceilAt charLenUtf16 text units) with
  | [] => 1
  | c :: _ => charLenUtf16 c

/-- The span that a place's cursors resolve to: a live end sits on the last character of the
span, and a stale end is already the exclusive end. -/
def spanOf (file : ℕ) (t : Strand Char) (place : Place) : Option (ℕ × ℕ) :=
  match place.start.bind (cursorPos file t), place.stop.bind (cursorPos file t) with
  | some s, some e =>
    let stop := if e.2 then e.1 else e.1 + widthAt (body t) e.1
    some (s.1, max stop s.1)
  | _, _ => none

/-- One record as an anchor; a detached record is read without its cursors. -/
def recordAnchor (S : Store) (r : ℕ × Place) : Anchor :=
  let place := r.2
  let fields : Anchor :=
    ⟨r.1, place.file, 0, 0, false, place.fragment, place.offset, place.length, false, false⟩
  if place.detached then { fields with detached := true }
  else match (S.texts place.file).bind fun t => spanOf place.file t place with
    | some (start, stop) =>
      { fields with start := start, stop := stop, collapsed := decide (stop ≤ start) }
    | none => { fields with unresolved := true }

/-- The anchor records of one file. -/
def resolveAnchors (S : Store) (file : ℕ) : List Anchor :=
  (S.records.filter fun r => r.2.file = file).map (recordAnchor S)

section
variable (insertion : List (Elem Char) → ℕ → ℕ)

/-- One edit: its range is deleted, and its text inserted behind as many elements as the
document puts before an insertion there. -/
def editText (t : Strand Char) (ef delete : ℕ) (insert : List Char) : Strand Char :=
  let struck := t.strike charLenUtf16 ef (ef + delete)
  struck.insertAt (insertion struck.elems ef) insert

/-- The edits of a file in order, each shifted by those before it. -/
def editTexts : ℤ → List Edit → Strand Char → Strand Char
  | _, [], t => t
  | adj, e :: edits, t =>
    editTexts (adj + lenUtf16 e.insert - e.delete) edits
      (editText insertion t (e.pos + adj).toNat e.delete e.insert)

/-- The store once the edits of an operation are applied. -/
def Store.edited (S : Store) (files : List OperationFile) : Store where
  texts id := (S.texts id).map fun t =>
    match files.find? fun f => f.fileId = id with
    | some f => editTexts insertion 0 f.edits t
    | none => t
  records := S.records
  nodup := S.nodup

end

def Store.place (S : Store) (id : ℕ) : Option Place :=
  (S.records.find? fun r => r.1 = id).map Prod.snd

/-- Stores a place whole in the record of an anchor. -/
def Store.putPlace (S : Store) (r : ℕ × Place) : Store where
  texts := S.texts
  records := S.records.map fun s => if s.1 = r.1 then r else s
  nodup := by
    have hkeys : (S.records.map fun s => if s.1 = r.1 then r else s).map Prod.fst =
        S.records.map Prod.fst := by
      rw [List.map_map]
      refine List.map_congr_left fun s _ => ?_
      rw [Function.comp_apply]
      split_ifs with h
      · exact h.symm
      · rfl
    rw [hkeys]
    exact S.nodup

/-- The place that a planned anchor is written with, if it is written. A detached record keeps
the cursors it had, and an attached anchor that was touched gets fresh ones. -/
def pendingPlace (S : Store) (file : PlannedFile) (p : PlannedAnchor) : Option (ℕ × Place) :=
  let a := p.anchor
  if p.state ≠ .set ∨ (a.detached = false ∧ p.touched = false) then none
  else match S.place a.id with
    | none => none
    | some stored =>
      if a.detached then
        some (a.id, ⟨file.fileId, stored.start, stored.stop, true, a.length, a.fragment, a.offset⟩)
      else match S.texts file.fileId with
        | none => none
        | some t =>
          if a.stop ≤ a.start then none
          else match cursorAt file.fileId t a.start,
              cursorAt file.fileId t (lastCharStart a.stop 0 0 (body t)) with
            | some start, some stop => some (a.id, .attached file.fileId start stop)
            | _, _ => none

/-- Everything is read before the first write. -/
def writeAnchors (S : Store) (planned : List PlannedFile) : Store :=
  (planned.flatMap fun file => file.anchors.filterMap (pendingPlace S file)).foldl Store.putPlace S

end LibrePaper.Anchors
