import LibrePaper.Track.Runs
import LibrePaper.Anchors.Units

/-!
# The planner of the browser

The browser plans tracked edits by itself, on texts that are sequences of UTF-16 code units. Its
offsets count them, and a row carries its mark from edit to edit. The records of changes are those
of the planner.
-/
namespace LibrePaper.Track.Browser
open Library
open Anchors.Browser (Units utf16)

structure Fragment where
  id : Option String
  change : String
  text : Units
  rank : Option ℚ
  stale : Bool
deriving DecidableEq

structure Gap where
  id : String
  point : ℕ
  fragments : List Fragment
  stale : Bool
deriving DecidableEq

structure FileState where
  changes : List ChangeRecord
  gaps : List Gap
deriving DecidableEq

abbrev GapRow := Gap × PlanState

structure Plan where
  changes : List Row
  gaps : List GapRow
deriving DecidableEq

structure Edit where
  fromPos : ℕ
  toPos : ℕ
  insert : Units
deriving DecidableEq

/-- An id that is there. The empty string counts as none. -/
def present (id : Option String) : Bool := id.any (· ≠ "")

/-- Adjacent pieces of one change join while neither is stored. -/
def pushFragment (list : List Fragment) (f : Fragment) : List Fragment :=
  let piece := { f with id := if present f.id = true then f.id else none, stale := false }
  match list.getLast? with
  | some last =>
    if last.change = f.change ∧ present last.id = false ∧ present f.id = false then
      list.dropLast ++ [{ last with text := last.text ++ f.text }]
    else list ++ [piece]
  | none => list ++ [piece]

def pushFragments (list pieces : List Fragment) : List Fragment :=
  pieces.foldl pushFragment list

structure OneEdit where
  ef : ℕ
  et : ℕ
  insert : Units
deriving DecidableEq

namespace OneEdit

def len (e : OneEdit) : ℕ := e.insert.length

def stop (e : OneEdit) : ℕ := e.ef + e.len

/-- An offset at or after `et`, moved by the edit's `delta`. -/
def shift (e : OneEdit) (p : ℕ) : ℕ := p + e.len - (e.et - e.ef)

end OneEdit

def swallowedGaps (gaps : List GapRow) (e : OneEdit) : List Gap :=
  (gaps.filter fun g => e.ef ≤ g.1.point ∧ g.1.point ≤ e.et).map Prod.fst

/-- The first of the own spans that touch the edit, sorted by their starts and then by their ids as
strings of code units. -/
def touching (changes : List Row) (me : Author) (e : OneEdit) : Option ChangeRecord :=
  firstMin (fun a b => a.fromPos < b.fromPos ||
      (a.fromPos = b.fromPos && utf16 a.id.toList < utf16 b.id.toList))
    ((changes.filter fun r =>
      r.1.who = me.who ∧ hasSpan r.1 ∧ r.1.fromPos ≤ e.et ∧ e.ef ≤ r.1.toPos).map Prod.fst)

/-- The set of own changes that the edit touches, in the order in which they are added. -/
def ownedIds (changes : List Row) (gaps : List GapRow) (me : Author) (e : OneEdit)
    (untracked : Bool) : List String :=
  if untracked then []
  else ((swallowedGaps gaps e).flatMap Gap.fragments).foldl
    (fun owned f => if ownBare changes me f.change then pushUnique owned f.change else owned)
    ((touching changes me e).map ChangeRecord.id).toList

def spanAt (changes : List Row) (p : ℕ) : Option ChangeRecord :=
  (changes.find? fun r => hasSpan r.1 && decide (r.1.covers p)).map Prod.fst

/-- Where the original text that begins at `p` ends. -/
def runEnd (changes : List Row) (et p : ℕ) : ℕ :=
  p + ((List.range' p (et - p)).takeWhile fun q => (spanAt changes q).isNone).length

/-- The runs of original text from `p` to `et`. Every pass takes a character, so as many passes as
there are characters are enough. -/
def originalRuns (changes : List Row) (et : ℕ) : ℕ → ℕ → List (ℕ × ℕ)
  | 0, _ => []
  | fuel + 1, p =>
    if p < et then
      match spanAt changes p with
      | some s => originalRuns changes et fuel (min et s.toPos)
      | none => (p, runEnd changes et p) ::
          originalRuns changes et fuel (runEnd changes et p)
    else []

def recordsChange (changes : List Row) (e : OneEdit) (untracked : Bool) : Bool :=
  !untracked && (decide (0 < (originalRuns changes e.et (e.et - e.ef) e.ef).length) ||
    decide (0 < e.len))

/-- The merged span: the inserted text and the owned spans. -/
def widen (changes : List Row) (owned : List String) (e : OneEdit) : ℕ × ℕ :=
  (owned.filterMap (findRow changes)).foldl
    (fun span c =>
      if hasSpan c then
        (if c.fromPos < span.1 then c.fromPos else span.1,
          if e.et < c.toPos then max span.2 (e.shift c.toPos) else span.2)
      else span)
    (e.ef, e.stop)

/-- The change of the edit: the first owned one with its other fields, or a new one. -/
def mineOf (fresh : ℕ → String) (changes : List Row) (owned : List String) (e : OneEdit)
    (me : Author) (run : Option String) (now : ℤ) (records : Bool) (n : ℕ) :
    Option ChangeRecord × ℕ :=
  if records then
    let span := widen changes owned e
    match firstOwned changes owned with
    | some first => (some { first with
        run := run.or first.run, stamp := now, fromPos := span.1, toPos := span.2 }, n)
    | none => (some {
        id := fresh n, who := me.who, author := me.author, run, stamp := now, fromPos := span.1,
        toPos := span.2, emptied := false, stale := false, orphan := false }, n + 1)
  else (none, n)

def ownAtEnd (changes : List Row) (sw : List Gap) (me : Author) (owned : List String)
    (e : OneEdit) : Bool :=
  (changes.any fun r =>
    r.1.who = me.who && hasSpan r.1 && r.1.fromPos = e.et && decide (r.1.id ∈ owned)) ||
  sw.any fun g => g.point = e.et && g.fragments.any fun f => decide (f.change ∈ owned)

def relabel (mine : Option ChangeRecord) (owned : List String) (f : Fragment) : Fragment :=
  { f with change := newOwner mine owned f.change }

def gapPieces (sw : List Gap) (mine : Option ChangeRecord) (owned : List String) (p : ℕ) :
    List Fragment :=
  ((sw.filter fun g => g.point = p).flatMap Gap.fragments).map (relabel mine owned)

/-- The original code unit at `p`. -/
def originalPiece (cur : Units) (changes : List Row) (mine : Option ChangeRecord) (e : OneEdit)
    (p : ℕ) : List Fragment :=
  match mine, cur[p]? with
  | some m, some unit =>
    if p < e.et ∧ spanAt changes p = none then
      [{ id := none, change := m.id, text := [unit], rank := none, stale := false }]
    else []
  | _, _ => []

/-- The walk from `ef` to `et`, unit by unit. -/
def mergedFragments (cur : Units) (changes : List Row) (sw : List Gap)
    (mine : Option ChangeRecord) (owned : List String) (e : OneEdit) (splitAtEnd : Bool) :
    List Fragment :=
  pushFragments [] ((List.range' e.ef (e.et + 1 - e.ef)).flatMap fun p =>
    (if splitAtEnd && p = e.et then [] else gapPieces sw mine owned p) ++
      originalPiece cur changes mine e p)

def afterFragments (sw : List Gap) (mine : Option ChangeRecord) (owned : List String)
    (e : OneEdit) (splitAtEnd : Bool) : List Fragment :=
  if splitAtEnd then pushFragments [] (gapPieces sw mine owned e.et) else []

/-- The row with no span left. It keeps its mark. -/
def emptiedRow (r : Row) (e : OneEdit) : Row :=
  ({ r.1 with fromPos := e.stop, toPos := e.stop, emptied := true }, r.2)

def keepRow (e : OneEdit) (mine : Option ChangeRecord) (owned : List String) (r : Row) :
    List Row :=
  let c := r.1
  if absorbedBy mine owned c then
    if mine.map ChangeRecord.id = some c.id then [] else [emptiedRow r e]
  else if !hasSpan c then [r]
  else if c.toPos ≤ e.ef then
    [(c, if 0 < e.len ∧ c.toPos = e.ef then .set else r.2)]
  else if e.et ≤ c.fromPos then
    [({ c with fromPos := e.shift c.fromPos, toPos := e.shift c.toPos },
      if 0 < e.len ∧ c.fromPos = e.et then .set else r.2)]
  else if c.fromPos < e.ef ∧ e.et < c.toPos ∧ 0 < e.len then
    [({ c with toPos := e.ef }, .set)]
  else
    let fromPos := if c.fromPos < e.ef then c.fromPos else e.stop
    let toPos :=
      if e.et < c.toPos then e.shift c.toPos else if c.fromPos < e.ef then e.ef else e.stop
    if fromPos < toPos then [({ c with fromPos, toPos }, .set)] else [emptiedRow r e]

def splitsRow (e : OneEdit) (mine : Option ChangeRecord) (owned : List String) (r : Row) :
    Bool :=
  !absorbedBy mine owned r.1 &&
    (decide (r.1.fromPos < e.ef) && decide (e.et < r.1.toPos) && decide (0 < e.len))

def newSpans (fresh : ℕ → String) (e : OneEdit) (mine : Option ChangeRecord)
    (owned : List String) (changes : List Row) (n : ℕ) : List Row :=
  (changes.filter (splitsRow e mine owned)).mapIdx fun i r =>
    ({ r.1 with id := fresh (n + i), fromPos := e.stop, toPos := e.shift r.1.toPos }, .set)

def keepGap (e : OneEdit) (g : GapRow) : Option GapRow :=
  if g.1.point < e.ef then some g
  else if e.et < g.1.point then some ({ g.1 with point := e.shift g.1.point }, g.2)
  else none

def placeMerged (fresh : ℕ → String) (pos : ℕ) (merged : List Fragment) (out : List GapRow)
    (ids : List String) (n : ℕ) : List GapRow × List String × ℕ :=
  if merged = [] then (out, ids, n)
  else
    match out.filter fun g => g.1.point = pos with
    | first :: rest =>
      let list := pushFragments [] (((first :: rest).flatMap fun g => g.1.fragments) ++ merged)
      (out.filter (fun g => !decide (g.1.point = pos)) ++
        [({ first.1 with fragments := list }, .set)], ids, n)
    | [] =>
      let next := takeId fresh ids n
      (out ++ [(⟨next.1, pos, merged, false⟩, .set)], next.2)

def placeAfter (fresh : ℕ → String) (pos : ℕ) (after : List Fragment) (out : List GapRow)
    (ids : List String) (n : ℕ) : List GapRow × ℕ :=
  if after = [] then (out, n)
  else
    let next := takeId fresh ids n
    (out ++ [(⟨next.1, pos, after, false⟩, .set)], next.2.2)

def relabelGap (mine : Option ChangeRecord) (owned : List String) (g : GapRow) : GapRow :=
  match mine with
  | some m =>
    if g.1.fragments.any fun f => decide (f.change ∈ owned) && f.change ≠ m.id then
      ({ g.1 with fragments := pushFragments [] (g.1.fragments.map (relabel mine owned)) }, .set)
    else g
  | none => g

def referenced (gaps : List GapRow) (id : String) : Bool :=
  gaps.any fun g => g.1.fragments.any fun f => f.change = id

def reviveRow (gaps : List GapRow) (r : Row) : Row :=
  if r.1.emptied ∧ referenced gaps r.1.id then ({ r.1 with emptied := false }, r.2) else r

def seatRow (gaps : List GapRow) (r : Row) : Row :=
  if hasSpan r.1 then r
  else
    match gaps.find? fun g => g.1.fragments.any fun f => f.change = r.1.id with
    | some g =>
      if r.1.fromPos = g.1.point then r
      else ({ r.1 with fromPos := g.1.point, toPos := g.1.point }, r.2)
    | none => r

def liveRow (gaps : List GapRow) (r : Row) : Bool :=
  hasSpan r.1 || referenced gaps r.1.id || r.1.emptied

def settle (out : List Row) (gaps : List GapRow) : List Row × List GapRow :=
  let live := sortByKey (fun r : Row => toLex (r.1.fromPos, r.1.toPos))
    ((out.map (reviveRow gaps)).filter (liveRow gaps))
  let gaps := sortByKey (fun g : GapRow => g.1.point) gaps
  (live.map (seatRow gaps), gaps)

def planOne (fresh : ℕ → String) (cur : Units) (changes : List Row) (gaps : List GapRow)
    (e : OneEdit) (me : Author) (run : Option String) (now : ℤ) (untracked : Bool) (n : ℕ) :
    List Row × List GapRow × ℕ :=
  let sw := swallowedGaps gaps e
  let owned := ownedIds changes gaps me e untracked
  let made := mineOf fresh changes owned e me run now (recordsChange changes e untracked) n
  let mine := made.1
  let splitAtEnd := decide (0 < e.len) && !ownAtEnd changes sw me owned e
  let merged := mergedFragments cur changes sw mine owned e splitAtEnd
  let after := afterFragments sw mine owned e splitAtEnd
  let halves := newSpans fresh e mine owned changes made.2
  let out := changes.flatMap (keepRow e mine owned) ++ halves ++
    mine.toList.map fun m => (m, .set)
  let pos := (mine.map ChangeRecord.fromPos).getD e.ef
  let placed := placeMerged fresh pos merged (gaps.filterMap (keepGap e))
    (sw.map Gap.id) (made.2 + halves.length)
  let all := placeAfter fresh e.stop after placed.1 placed.2.1 placed.2.2
  let settled := settle out (all.1.map (relabelGap mine owned))
  (settled.1, settled.2, all.2)

/-- `Map.prototype.set` of a row that went away. -/
def setRemoved {α : Type*} (id : α → String) (removed : List (α × PlanState)) (x : α) :
    List (α × PlanState) :=
  if removed.any (fun r => id r.1 = id x) then
    removed.map fun r => if id r.1 = id x then (x, .removed) else r
  else removed ++ [(x, .removed)]

structure Progress where
  cur : Units
  changes : List Row
  gaps : List GapRow
  removedChanges : List Row
  removedGaps : List GapRow
  adj : ℤ
  taken : ℕ

def planStep (fresh : ℕ → String) (state : FileState) (me : Author) (run : Option String)
    (now : ℤ) (untracked : Bool) (p : Progress) (edit : Edit) : Progress :=
  let e : OneEdit := ⟨(edit.fromPos + p.adj).toNat, (edit.toPos + p.adj).toNat, edit.insert⟩
  if e.ef = e.et ∧ e.len = 0 then p
  else
    let next := planOne fresh p.cur p.changes p.gaps e me run now untracked p.taken
    { cur := splice p.cur e.ef e.et e.insert
      changes := next.1
      gaps := next.2.1
      removedChanges := (p.changes.filter fun r =>
        !next.1.any (fun x => x.1.id = r.1.id) && state.changes.any fun c => c.id = r.1.id).foldl
          (fun acc r => setRemoved ChangeRecord.id acc r.1) p.removedChanges
      removedGaps := (p.gaps.filter fun g =>
        !next.2.1.any (fun x => x.1.id = g.1.id) && state.gaps.any fun c => c.id = g.1.id).foldl
          (fun acc g => setRemoved Gap.id acc g.1) p.removedGaps
      adj := p.adj + e.len - (e.et - e.ef)
      taken := next.2.2 }

def startProgress (before : Units) (state : FileState) (n : ℕ) : Progress where
  cur := before
  changes := state.changes.map fun c => (c, .kept)
  gaps := state.gaps.map fun g => (g, .kept)
  removedChanges := []
  removedGaps := []
  adj := 0
  taken := n

def planLoop (fresh : ℕ → String) (before : Units) (state : FileState) (edits : List Edit)
    (me : Author) (run : Option String) (now : ℤ) (untracked : Bool) (n : ℕ) : Progress :=
  edits.foldl (planStep fresh state me run now untracked) (startProgress before state n)

def finishPlan (state : FileState) (p : Progress) : Plan where
  changes := p.changes.map (markNew fun c => state.changes.any fun o => o.id = c.id) ++
    p.removedChanges
  gaps := p.gaps.map (markNew fun g => state.gaps.any fun o => o.id = g.id) ++ p.removedGaps

def planEdits (fresh : ℕ → String) (before : Units) (state : FileState) (edits : List Edit)
    (me : Author) (run : Option String) (now : ℤ) (untracked : Bool) (n : ℕ) : Plan :=
  finishPlan state (planLoop fresh before state edits me run now untracked n)

/-- The text after a batch. -/
def planText (fresh : ℕ → String) (before : Units) (state : FileState) (edits : List Edit)
    (me : Author) (run : Option String) (now : ℤ) (untracked : Bool) (n : ℕ) : Units :=
  (planLoop fresh before state edits me run now untracked n).cur

end LibrePaper.Track.Browser
