import LibrePaper.Track.Browser

/-!
# The fragments of deletions

What a batch deletes is stored as fragments. They are matched back to the deletions: first each
deletion looks where its text is after the batch, and then, if it found none, anywhere.
-/
namespace LibrePaper.Track.Matched
open Library List
open Anchors.Browser (Units slice utf16)

/-- A fragment that a batch created, and its point in the text after the batch. -/
structure CreatedFragment where
  id : String
  text : Units
  point : ℕ
deriving DecidableEq

structure FragmentRange where
  id : String
  edit : ℕ
  start : ℕ
  stop : ℕ
deriving DecidableEq

/-- The span of an edit in the running text, and the length of what it inserts. -/
structure Span where
  ef : ℕ
  et : ℕ
  n : ℕ

def spans (adj : ℤ) : List Browser.Edit → List Span
  | [] => []
  | edit :: edits =>
    ⟨(edit.fromPos + adj).toNat, (edit.toPos + adj).toNat, edit.insert.length⟩ ::
      spans (adj + edit.insert.length - (edit.toPos - edit.fromPos)) edits

/-- Where a later edit moves a point. -/
def follow (point : ℕ) (later : Span) : ℕ :=
  if later.et ≤ point then point + later.n - (later.et - later.ef)
  else if later.ef < point then later.ef
  else point

/-- A deletion, where its text is after the batch, and the run of fragments that it took. -/
structure Deletion where
  index : ℕ
  deleted : Units
  point : ℕ
  run : Option (ℕ × ℕ)

def deletionsFrom (cur : Units) (index : ℕ) : List (Browser.Edit × Span) → List Deletion
  | [] => []
  | (edit, span) :: rest =>
    (if span.ef < span.et then
      [⟨index, slice cur span.ef span.et, (rest.map Prod.snd).foldl follow span.ef, none⟩]
    else []) ++
      deletionsFrom (splice cur span.ef span.et edit.insert) (index + 1) rest

/-- The deletions of a batch. -/
def deletions (before : Units) (edits : List Browser.Edit) : List Deletion :=
  deletionsFrom before 0 (edits.zip (spans 0 edits))

/-- Joins fragments on, for as long as they fit and the joined text is too short. -/
def extend (fits : ℕ → Bool) (deleted : Units) (last : ℕ) (joined : Units) :
    List CreatedFragment → ℕ × Units
  | [] => (last, joined)
  | fragment :: rest =>
    if fits last ∧ joined.length < deleted.length then
      extend fits deleted (last + 1) (joined ++ fragment.text) rest
    else (last, joined)

variable (fragments : List CreatedFragment)

def fits (consumed : ℕ → Bool) (gap : Option ℕ) (i : ℕ) : Bool :=
  !consumed i && gap.all fun gap => (fragments[i]?).any fun fragment => fragment.point = gap

/-- The run that begins with a fragment, if its texts join up to what was deleted. -/
def runAt (fits : ℕ → Bool) (deleted : Units) (first : ℕ) : Option (ℕ × ℕ) :=
  if fits first then
    let r := extend fits deleted first [] (fragments.drop first)
    if r.2 = deleted then some (first, r.1) else none
  else none

def firstRun (fits : ℕ → Bool) (deleted : Units) : Option (ℕ × ℕ) :=
  (range fragments.length).findSome? (runAt fragments fits deleted)

def take (gap : Deletion → Option ℕ) (consumed : ℕ → Bool) (d : Deletion) :
    (ℕ → Bool) × Deletion :=
  if d.run.isSome then (consumed, d)
  else
    match firstRun fragments (fits fragments consumed (gap d)) d.deleted with
    | none => (consumed, d)
    | some run => (fun i => consumed i || run.1 ≤ i && i < run.2, { d with run := some run })

def rangesFrom (edit : ℕ) (start : ℕ) : List CreatedFragment → List FragmentRange
  | [] => []
  | fragment :: rest =>
    ⟨fragment.id, edit, start, start + fragment.text.length⟩ ::
      rangesFrom edit (start + fragment.text.length) rest

/-- The fragments of a run. -/
def runOf (run : ℕ × ℕ) : List CreatedFragment := (fragments.take run.2).drop run.1

def Deletion.ranges (d : Deletion) : List FragmentRange :=
  d.run.elim [] fun run => rangesFrom d.index 0 (runOf fragments run)

variable {fragments} {fit : ℕ → Bool} {gap : Deletion → Option ℕ} {consumed : ℕ → Bool}
  {ds : List Deletion} {deleted joined : Units} {first last i : ℕ} {run : ℕ × ℕ}

/-- The fragments that a deletion has taken, by their positions. -/
def Deletion.uses (d : Deletion) (i : ℕ) : Prop :=
  ∃ run, d.run = some run ∧ run.1 ≤ i ∧ i < run.2

/-- The texts of a deletion's run join up to what it deleted. -/
def Deletion.Whole (fragments : List CreatedFragment) (d : Deletion) : Prop :=
  ∀ run, d.run = some run → run.1 ≤ run.2 ∧ run.2 ≤ fragments.length ∧
    (runOf fragments run).flatMap (·.text) = d.deleted

/-- What a search does to a deletion that has no run: it may take one of unconsumed fragments, at
its gap. -/
structure Taken (fragments : List CreatedFragment) (gap : Deletion → Option ℕ)
    (consumed : ℕ → Bool) (d d' : Deletion) : Prop where
  same : d' = { d with run := d'.run }
  kept : ∀ run, d.run = some run → d'.run = some run
  whole : d.Whole fragments → d'.Whole fragments
  fresh : ∀ i, d'.uses i → d.uses i ∨ fits fragments consumed (gap d) i = true

/-- The runs share no fragment, and all their fragments are consumed. -/
structure Sound (fragments : List CreatedFragment) (consumed : ℕ → Bool) (ds : List Deletion) :
    Prop where
  whole : ∀ d ∈ ds, d.Whole fragments
  apart : ds.Pairwise fun d e => ∀ i, d.uses i → ¬ e.uses i
  used : ∀ d ∈ ds, ∀ i, d.uses i → consumed i = true

def text : Units := utf16 "xyAAxB".toList

/-- The first two edits delete the `x` and the `y` that lie together, the third deletes the other
`x`, and the last inserts after it. -/
def edits : List Browser.Edit := [⟨0, 1, []⟩, ⟨1, 2, []⟩, ⟨4, 5, []⟩, ⟨5, 5, utf16 "Z".toList⟩]

end LibrePaper.Track.Matched
