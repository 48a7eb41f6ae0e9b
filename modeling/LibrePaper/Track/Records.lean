import LibrePaper.Library.Lists

/-!
# The records of tracked changes

A change is one author's edit of one region: the text it inserted, given by a
span, and the original text it deleted. Deleted text lives in gaps. A gap is one
point of the text and holds the deleted texts that sat there as fragments, in
document order, each owned by a change. Offsets count code points, so a text is
a list of characters. Ranks are exact rationals here; the planner carries them
and never computes with them.
-/
namespace LibrePaper.Track
open List

/-- Who is making an edit: the stable key and the name comments show. -/
structure Author where
  who : String
  author : String
  deriving DecidableEq

/-- A pending change as the planner sees it, with `fromPos = toPos` for a change with no
span. `stamp` is the time of its last edit. -/
structure ChangeRecord where
  id : String
  who : String
  author : String
  run : Option String
  stamp : ℤ
  fromPos : ℕ
  toPos : ℕ
  emptied : Bool
  stale : Bool
  orphan : Bool
  deriving DecidableEq

/-- Original text deleted by one change. The id and the rank are `none` until the
fragment is stored. -/
structure Fragment where
  id : Option String
  change : String
  text : List Char
  rank : Option ℚ
  stale : Bool
  deriving DecidableEq

/-- The deleted texts at one point of the text, in document order. -/
structure Gap where
  id : String
  point : ℕ
  fragments : List Fragment
  stale : Bool
  deriving DecidableEq

/-- The live records of one file, resolved against its text now. -/
structure FileState where
  changes : List ChangeRecord
  gaps : List Gap
  deriving DecidableEq

inductive PlanState
  | kept
  | set
  | removed
  deriving DecidableEq

abbrev Row := ChangeRecord × PlanState
abbrev GapRow := Gap × PlanState

/-- The planned records of one file, in the coordinates of the text after the
batch. -/
structure Plan where
  changes : List Row
  gaps : List GapRow
  deriving DecidableEq

/-- A range of a batch and the text that replaces it. -/
structure Edit where
  fromPos : ℕ
  toPos : ℕ
  insert : List Char
  deriving DecidableEq

def hasSpan (c : ChangeRecord) : Bool := decide (c.fromPos < c.toPos)

@[simp] lemma hasSpan_iff (c : ChangeRecord) : hasSpan c = true ↔ c.fromPos < c.toPos := by
  simp [hasSpan]

/-- The change inserted the character at `p`. -/
def ChangeRecord.covers (c : ChangeRecord) (p : ℕ) : Prop := c.fromPos ≤ p ∧ p < c.toPos

instance (c : ChangeRecord) (p : ℕ) : Decidable (c.covers p) :=
  inferInstanceAs (Decidable (_ ∧ _))

variable {c : ChangeRecord} {rows : List Row}

lemma ChangeRecord.covers.hasSpan {p : ℕ} (h : c.covers p) : hasSpan c = true := by
  have := h.1
  have := h.2
  simp only [hasSpan_iff]
  omega

/-- Some change of the rows inserted the character at `p`. -/
def Covered (rows : List Row) (p : ℕ) : Prop := ∃ r ∈ rows, r.1.covers p

instance (rows : List Row) (p : ℕ) : Decidable (Covered rows p) :=
  inferInstanceAs (Decidable (∃ r ∈ rows, _))

/-- The record with the id, if one of the rows has it. -/
def findRow (rows : List Row) (id : String) : Option ChangeRecord :=
  (rows.find? fun r => r.1.id = id).map Prod.fst

lemma findRow_some {id : String} (h : findRow rows id = some c) :
    (∃ s, (c, s) ∈ rows) ∧ c.id = id := by
  simp only [findRow, Option.map_eq_some_iff] at h
  obtain ⟨r, hr, rfl⟩ := h
  exact ⟨⟨r.2, mem_of_find?_eq_some hr⟩, by simpa using find?_some hr⟩

lemma findRow_of_mem (hn : (rows.map (·.1.id)).Nodup) {r : Row} (hr : r ∈ rows) :
    findRow rows r.1.id = some r.1 := by
  have h : rows.find? (fun x => x.1.id = r.1.id) = some r := by
    induction rows with
    | nil => simp at hr
    | cons x xs ih =>
      simp only [map_cons, nodup_cons] at hn
      rcases mem_cons.1 hr with rfl | hr
      · simp
      · have hne : x.1.id ≠ r.1.id := fun he =>
          hn.1 (he ▸ mem_map_of_mem (f := fun r : Row => r.1.id) hr)
        simp [hne, ih hn.2 hr]
  simp [findRow, h]

end LibrePaper.Track
