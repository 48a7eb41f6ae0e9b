import LibrePaper.Track.Records

/-!
# The planner

`planOne` plans one edit `[ef, et)` with its inserted text against the pending
records of a file, and `planEdits` plans a batch, range by range, each range in
the coordinates left by the ranges before it. Fresh ids come from a supply
`fresh : ℕ → String` and a counter of the ids taken so far.
-/
namespace LibrePaper.Track
open Library

/-- The end of the span that holds `p`, if any change inserted the character
at `p`. -/
def spanEndAt (changes : List Row) (p : ℕ) : Option ℕ :=
  (changes.find? fun r => hasSpan r.1 && decide (r.1.covers p)).map fun r => r.1.toPos

/-- Append a fragment, joining it to the last one only when neither has a stored
id. A stored fragment keeps its record and its rank. -/
def pushFragment (list : List Fragment) (f : Fragment) : List Fragment :=
  match list.getLast? with
  | some last =>
    if last.change = f.change ∧ last.id = none ∧ f.id = none then
      list.dropLast ++ [{ last with text := last.text ++ f.text }]
    else list ++ [{ f with stale := false }]
  | none => list ++ [{ f with stale := false }]

def pushFragments (list pieces : List Fragment) : List Fragment :=
  pieces.foldl pushFragment list

def pushUnique (ids : List String) (id : String) : List String :=
  if id ∈ ids then ids else ids ++ [id]

/-- The next gap id: a swallowed gap's id is reused first, then a fresh one. -/
def takeId (fresh : ℕ → String) (ids : List String) (n : ℕ) : String × List String × ℕ :=
  match ids with
  | [] => (fresh n, [], n + 1)
  | id :: ids => (id, ids, n)

/-- One edit `[ef, et)` with its inserted text, in the coordinates of the text
before it. -/
structure OneEdit where
  ef : ℕ
  et : ℕ
  insert : List Char
  deriving DecidableEq

namespace OneEdit

def len (e : OneEdit) : ℕ := e.insert.length

/-- Where the inserted text ends. -/
def stop (e : OneEdit) : ℕ := e.ef + e.len

/-- The offset after the edit of an offset at or after `et`. -/
def shift (e : OneEdit) (p : ℕ) : ℕ := p + e.len - (e.et - e.ef)

end OneEdit

def swallowed (gaps : List GapRow) (e : OneEdit) : List Gap :=
  (gaps.filter fun g => e.ef ≤ g.1.point ∧ g.1.point ≤ e.et).map Prod.fst

/-- The first span of `me` that touches `[ef, et]`, by position and then by id. -/
def firstSpan (changes : List Row) (me : Author) (e : OneEdit) : Option ChangeRecord :=
  firstMin (fun a b => a.fromPos < b.fromPos || (a.fromPos = b.fromPos && a.id < b.id))
    ((changes.filter fun r =>
      r.1.who = me.who ∧ hasSpan r.1 ∧ r.1.fromPos ≤ e.et ∧ e.ef ≤ r.1.toPos).map Prod.fst)

/-- A change of `me` with no span and a record of its own. -/
def ownBare (changes : List Row) (me : Author) (id : String) : Bool :=
  match findRow changes id with
  | some c => c.who = me.who && !hasSpan c && !c.orphan
  | none => false

/-- The own changes an edit touches: the first own span at `[ef, et]`, and the own
changes with no span that have a fragment in a swallowed gap. -/
def touchedIds (changes : List Row) (gaps : List GapRow) (me : Author) (e : OneEdit) :
    List String :=
  ((swallowed gaps e).flatMap Gap.fragments).foldl
    (fun ids f => if ownBare changes me f.change then pushUnique ids f.change else ids)
    ((firstSpan changes me e).map ChangeRecord.id).toList

/-- The edit removes original text, which no span holds. -/
def removesOriginal (changes : List Row) (e : OneEdit) : Bool :=
  (List.range' e.ef (e.et - e.ef)).any fun p => (spanEndAt changes p).isNone

/-- Original text that a tracked edit removes makes a record, and so does inserted
text. An untracked edit records nothing. -/
def recordsChange (changes : List Row) (e : OneEdit) (untracked : Bool) : Bool :=
  !untracked && (removesOriginal changes e || decide (0 < e.len))

def ownedIds (changes : List Row) (gaps : List GapRow) (me : Author) (e : OneEdit)
    (untracked : Bool) : List String :=
  if untracked then [] else touchedIds changes gaps me e

/-- The owned change that comes first by position. -/
def firstOwned (changes : List Row) (owned : List String) : Option ChangeRecord :=
  firstMin (fun a b => a.fromPos < b.fromPos) (owned.filterMap (findRow changes))

/-- The start of the edit's own span, widened over the owned spans. -/
def widenFrom (changes : List Row) (owned : List String) (e : OneEdit) : ℕ :=
  (owned.filterMap (findRow changes)).foldl
    (fun fromPos c => if hasSpan c then min fromPos c.fromPos else fromPos) e.ef

/-- The end of the edit's own span, widened over the owned spans. -/
def widenTo (changes : List Row) (owned : List String) (e : OneEdit) : ℕ :=
  (owned.filterMap (findRow changes)).foldl
    (fun toPos c => if hasSpan c ∧ e.et < c.toPos then max toPos (e.shift c.toPos) else toPos)
    e.stop

/-- The change this edit writes: the first owned one by position, or a new one. -/
def mineOf (fresh : ℕ → String) (changes : List Row) (owned : List String) (e : OneEdit)
    (me : Author) (run : Option String) (now : ℤ) (records : Bool) (n : ℕ) :
    Option ChangeRecord × ℕ :=
  if records then
    let fromPos := widenFrom changes owned e
    let toPos := widenTo changes owned e
    match firstOwned changes owned with
    | some c => (some { c with
        run := run.or c.run, stamp := now, fromPos, toPos, emptied := false, orphan := false }, n)
    | none => (some {
        id := fresh n, who := me.who, author := me.author, run, stamp := now, fromPos, toPos,
        emptied := false, stale := false, orphan := false }, n + 1)
  else (none, n)

/-- An own change claims the end of the edit, so that text which sat there merges
before the new span. -/
def ownAtEnd (changes : List Row) (sw : List Gap) (me : Author) (owned : List String)
    (e : OneEdit) : Bool :=
  (changes.any fun r =>
    r.1.who = me.who && hasSpan r.1 && r.1.fromPos = e.et && decide (r.1.id ∈ owned)) ||
  sw.any fun g => g.point = e.et && g.fragments.any fun f => decide (f.change ∈ owned)

/-- The owner of a fragment once the owned changes have joined the edit's change. -/
def newOwner (mine : Option ChangeRecord) (owned : List String) (change : String) : String :=
  match mine with
  | some m => if change ∈ owned then m.id else change
  | none => change

def relabel (mine : Option ChangeRecord) (owned : List String) (f : Fragment) : Fragment :=
  { f with change := newOwner mine owned f.change }

/-- The fragments of the swallowed gaps at `p`, in their order, under their new
owners. -/
def gapPieces (sw : List Gap) (mine : Option ChangeRecord) (owned : List String) (p : ℕ) :
    List Fragment :=
  ((sw.filter fun g => g.point = p).flatMap Gap.fragments).map (relabel mine owned)

/-- The original character at `p`, as a fragment of the edit's change. -/
def originalPiece (cur : List Char) (changes : List Row) (mine : Option ChangeRecord)
    (e : OneEdit) (p : ℕ) : List Fragment :=
  match mine, cur[p]? with
  | some m, some ch =>
    if p < e.et ∧ spanEndAt changes p = none then
      [{ id := none, change := m.id, text := [ch], rank := none, stale := false }]
    else []
  | _, _ => []

/-- The fragments that merge into one gap: walking `[ef, et]`, the gaps at `p` come
first, then the original character at `p`. -/
def mergedFragments (cur : List Char) (changes : List Row) (sw : List Gap)
    (mine : Option ChangeRecord) (owned : List String) (e : OneEdit) (splitAtEnd : Bool) :
    List Fragment :=
  pushFragments [] ((List.range' e.ef (e.et + 1 - e.ef)).flatMap fun p =>
    (if splitAtEnd && p = e.et then [] else gapPieces sw mine owned p) ++
      originalPiece cur changes mine e p)

/-- The fragments that sat at `et` and come after the inserted text. -/
def afterFragments (sw : List Gap) (mine : Option ChangeRecord) (owned : List String)
    (e : OneEdit) (splitAtEnd : Bool) : List Fragment :=
  if splitAtEnd then pushFragments [] (gapPieces sw mine owned e.et) else []

/-- The row with no span left. Its record stays, untouched. -/
def emptiedRow (c : ChangeRecord) (e : OneEdit) : Row :=
  ({ c with fromPos := e.stop, toPos := e.stop, emptied := true }, .kept)

/-- The row joins the change that the edit writes. -/
def absorbedBy (mine : Option ChangeRecord) (owned : List String) (c : ChangeRecord) : Bool :=
  mine.isSome && decide (c.id ∈ owned)

/-- The row that stays in the place of a row: spans shrink, move or split around
the edit. -/
def keepRow (e : OneEdit) (mine : Option ChangeRecord) (owned : List String) (r : Row) :
    List Row :=
  let c := r.1
  if absorbedBy mine owned c then
    if mine.map ChangeRecord.id = some c.id then [] else [emptiedRow c e]
  else if !hasSpan c then [r]
  else if c.toPos ≤ e.ef then
    [(c, if 0 < e.len ∧ c.toPos = e.ef then .set else r.2)]
  else if e.et ≤ c.fromPos then
    [({ c with fromPos := e.shift c.fromPos, toPos := e.shift c.toPos },
      if 0 < e.len ∧ c.fromPos = e.et then .set else r.2)]
  else if c.fromPos < e.ef ∧ e.et < c.toPos ∧ 0 < e.len then
    [({ c with toPos := e.ef }, .set)]
  else
    let fromPos := if c.fromPos < e.ef then c.fromPos else e.stop
    let toPos :=
      if e.et < c.toPos then e.shift c.toPos else if c.fromPos < e.ef then e.ef else e.stop
    if fromPos < toPos then [({ c with fromPos, toPos }, .set)] else [emptiedRow c e]

/-- The edit cuts the row's span in two with inserted text. -/
def splitsRow (e : OneEdit) (mine : Option ChangeRecord) (owned : List String) (r : Row) :
    Bool :=
  !absorbedBy mine owned r.1 &&
    (decide (r.1.fromPos < e.ef) && decide (e.et < r.1.toPos) && decide (0 < e.len))

/-- The right-hand copy of a split span. -/
def rightCopy (e : OneEdit) (id : String) (c : ChangeRecord) : Row :=
  ({ c with id, fromPos := e.stop, toPos := e.shift c.toPos }, .set)

/-- The right-hand copies of the split spans, with fresh ids in their order. -/
def splitRows (fresh : ℕ → String) (e : OneEdit) (mine : Option ChangeRecord)
    (owned : List String) (changes : List Row) (n : ℕ) : List Row :=
  (changes.filter (splitsRow e mine owned)).mapIdx fun i r => rightCopy e (fresh (n + i)) r.1

/-- Gaps before the edit stay and gaps after it shift. -/
def keepGap (e : OneEdit) (g : GapRow) : Option GapRow :=
  if g.1.point < e.ef then some g
  else if e.et < g.1.point then some ({ g.1 with point := e.shift g.1.point }, g.2)
  else none

/-- Place the merged fragments at `pos`, after the fragments of the gaps that
already stand there. -/
def placeMerged (fresh : ℕ → String) (pos : ℕ) (merged : List Fragment) (out : List GapRow)
    (ids : List String) (n : ℕ) : List GapRow × List String × ℕ :=
  if merged = [] then (out, ids, n)
  else
    match out.filter fun g => g.1.point = pos with
    | first :: rest =>
      let list := pushFragments [] (((first :: rest).flatMap fun g => g.1.fragments) ++ merged)
      (out.filter (fun g => !decide (g.1.point = pos)) ++
        [({ first.1 with fragments := list }, .set)], ids, n)
    | [] =>
      let next := takeId fresh ids n
      (out ++ [(⟨next.1, pos, merged, false⟩, .set)], next.2)

/-- Place the fragments that come after the inserted text. -/
def placeAfter (fresh : ℕ → String) (pos : ℕ) (after : List Fragment) (out : List GapRow)
    (ids : List String) (n : ℕ) : List GapRow × ℕ :=
  if after = [] then (out, n)
  else
    let next := takeId fresh ids n
    (out ++ [(⟨next.1, pos, after, false⟩, .set)], next.2.2)

/-- The changes that merged into `m` are gone; their fragments now belong to it. -/
def relabelGap (mine : Option ChangeRecord) (owned : List String) (g : GapRow) : GapRow :=
  match mine with
  | some m =>
    if g.1.fragments.any fun f => decide (f.change ∈ owned) && f.change ≠ m.id then
      let list := pushFragments [] (g.1.fragments.map (relabel mine owned))
      ({ g.1 with fragments := list }, .set)
    else g
  | none => g

def referenced (gaps : List GapRow) (id : String) : Bool :=
  gaps.any fun g => g.1.fragments.any fun f => f.change = id

/-- A change whose span went but whose deletions remain is a deletion now. -/
def reviveRow (gaps : List GapRow) (r : Row) : Row :=
  if r.1.emptied ∧ referenced gaps r.1.id then ({ r.1 with emptied := false }, r.2) else r

/-- A pure deletion sits at the gap of its first fragment. -/
def seatRow (gaps : List GapRow) (r : Row) : Row :=
  if hasSpan r.1 then r
  else
    match gaps.find? fun g => g.1.fragments.any fun f => f.change = r.1.id with
    | some g =>
      if r.1.fromPos = g.1.point then r
      else ({ r.1 with fromPos := g.1.point, toPos := g.1.point }, r.2)
    | none => r

def liveRow (gaps : List GapRow) (r : Row) : Bool :=
  hasSpan r.1 || referenced gaps r.1.id || r.1.emptied

/-- A change with no span and no fragment is gone, unless the edit emptied it. -/
def settle (out : List Row) (gaps : List GapRow) : List Row × List GapRow :=
  let live := sortByKey (fun r : Row => toLex (r.1.fromPos, r.1.toPos))
    ((out.map (reviveRow gaps)).filter (liveRow gaps))
  let gaps := sortByKey (fun g : GapRow => g.1.point) gaps
  (live.map (seatRow gaps), gaps)

/-- Plan one edit, in the coordinates of `cur`. Returns the rows, the gaps and the
number of ids taken. -/
def planOne (fresh : ℕ → String) (cur : List Char) (changes : List Row) (gaps : List GapRow)
    (e : OneEdit) (me : Author) (run : Option String) (now : ℤ) (untracked : Bool) (n : ℕ) :
    List Row × List GapRow × ℕ :=
  let sw := swallowed gaps e
  let owned := ownedIds changes gaps me e untracked
  let made := mineOf fresh changes owned e me run now (recordsChange changes e untracked) n
  let mine := made.1
  let splitAtEnd := decide (0 < e.len) && !ownAtEnd changes sw me owned e
  let merged := mergedFragments cur changes sw mine owned e splitAtEnd
  let after := afterFragments sw mine owned e splitAtEnd
  let halves := splitRows fresh e mine owned changes made.2
  let out := changes.flatMap (keepRow e mine owned) ++ halves ++
    mine.toList.map fun m => (m, .set)
  let pos := (mine.map ChangeRecord.fromPos).getD e.ef
  let placed := placeMerged fresh pos merged (gaps.filterMap (keepGap e))
    (sw.map Gap.id) (made.2 + halves.length)
  let all := placeAfter fresh e.stop after placed.1 placed.2.1 placed.2.2
  let settled := settle out (all.1.map (relabelGap mine owned))
  (settled.1, settled.2, all.2)

/-- The rows that went away so far, one for each id, in the order of the ids. -/
def noteRemoved {α : Type*} (id : α → String) (removed : List (α × PlanState)) (x : α) :
    List (α × PlanState) :=
  (removed.filter fun r => !decide (id x ≤ id r.1)) ++ (x, .removed) ::
    removed.filter fun r => decide (id x < id r.1)

/-- What the loop of `plan_edits` carries from one edit to the next. -/
structure Progress where
  cur : List Char
  changes : List Row
  gaps : List GapRow
  removedChanges : List Row
  removedGaps : List GapRow
  adj : ℤ
  taken : ℕ

/-- One pass of the loop of `plan_edits`: the edit is moved by the edits before it,
planned, and applied to the text. -/
def planStep (fresh : ℕ → String) (state : FileState) (me : Author) (run : Option String)
    (now : ℤ) (untracked : Bool) (p : Progress) (edit : Edit) : Progress :=
  let e : OneEdit := ⟨(edit.fromPos + p.adj).toNat, (edit.toPos + p.adj).toNat, edit.insert⟩
  if e.ef = e.et ∧ e.insert = [] then p
  else
    let next := planOne fresh p.cur p.changes p.gaps e me run now untracked p.taken
    { cur := splice p.cur e.ef e.et e.insert
      changes := next.1
      gaps := next.2.1
      removedChanges := (p.changes.filter fun r =>
        state.changes.any (fun c => c.id = r.1.id) && !next.1.any fun x => x.1.id = r.1.id).foldl
          (fun acc r => noteRemoved ChangeRecord.id acc r.1) p.removedChanges
      removedGaps := (p.gaps.filter fun g =>
        state.gaps.any (fun c => c.id = g.1.id) && !next.2.1.any fun x => x.1.id = g.1.id).foldl
          (fun acc g => noteRemoved Gap.id acc g.1) p.removedGaps
      adj := p.adj + e.len - (e.et - e.ef)
      taken := next.2.2 }

/-- Where the loop of `plan_edits` starts. -/
def startProgress (before : List Char) (state : FileState) (n : ℕ) : Progress where
  cur := before
  changes := state.changes.map fun c => (c, .kept)
  gaps := state.gaps.map fun g => (g, .kept)
  removedChanges := []
  removedGaps := []
  adj := 0
  taken := n

/-- The progress after every edit of the batch. -/
def planLoop (fresh : ℕ → String) (before : List Char) (state : FileState) (edits : List Edit)
    (me : Author) (run : Option String) (now : ℤ) (untracked : Bool) (n : ℕ) : Progress :=
  edits.foldl (planStep fresh state me run now untracked) (startProgress before state n)

/-- A record that was not there before the batch must be written. -/
def markNew {α : Type*} (known : α → Bool) (r : α × PlanState) : α × PlanState :=
  if !known r.1 ∧ r.2 = .kept then (r.1, .set) else r

/-- The rows of a finished loop: the live ones, then those that went away. -/
def finishPlan (state : FileState) (p : Progress) : Plan where
  changes := p.changes.map (markNew fun c => state.changes.any fun o => o.id = c.id) ++
    p.removedChanges
  gaps := p.gaps.map (markNew fun g => state.gaps.any fun o => o.id = g.id) ++ p.removedGaps

/-- Plan a batch of edits against the pending records of one file. -/
def planEdits (fresh : ℕ → String) (before : List Char) (state : FileState)
    (edits : List Edit) (me : Author) (run : Option String) (now : ℤ) (untracked : Bool)
    (n : ℕ) : Plan :=
  finishPlan state (planLoop fresh before state edits me run now untracked n)

/-- The text after a batch, as the loop of `plan_edits` splices it. -/
def planText (fresh : ℕ → String) (before : List Char) (state : FileState)
    (edits : List Edit) (me : Author) (run : Option String) (now : ℤ) (untracked : Bool)
    (n : ℕ) : List Char :=
  (planLoop fresh before state edits me run now untracked n).cur

end LibrePaper.Track
