import LibrePaper.Anchors.Memory

/-!
# The anchor planner

An operation edits some files. Its first phase follows the edits of each file: it moves the
attached anchors, detaches those whose text is deleted whole, and remembers deleted text.
Its second phase brings remembered text back where an insertion holds it.
-/
namespace LibrePaper.Anchors
open Library

/-- An anchor as the planner sees it; `start` and `stop` mean nothing while it is detached. -/
structure Anchor where
  id : ℕ
  file : ℕ
  start : ℕ
  stop : ℕ
  detached : Bool
  fragment : Option ℕ
  offset : Option ℕ
  length : Option ℕ
  collapsed : Bool
  unresolved : Bool
deriving DecidableEq

/-- Only an attached anchor resolves to a span. -/
def Anchor.attached (a : Anchor) : Bool := !a.detached && !a.collapsed && !a.unresolved

inductive PlanState where
  | kept
  | set
deriving DecidableEq

structure PlannedAnchor where
  anchor : Anchor
  state : PlanState
  touched : Bool
  movedFrom : Option ℕ
deriving DecidableEq

/-- A fragment of the text that edit number `edit` deletes. -/
structure FragmentRange where
  id : ℕ
  edit : ℕ
  start : ℕ
  stop : ℕ
deriving DecidableEq

/-- Deletes `delete` units at `pos`, then inserts there. -/
structure Edit where
  pos : ℕ
  delete : ℕ
  insert : List Char
deriving DecidableEq

/-- One file of an operation, with its edits in offsets before the operation. -/
structure OperationFile where
  fileId : ℕ
  before : List Char
  anchors : List Anchor
  edits : List Edit
  fragments : List FragmentRange
deriving DecidableEq

structure PlannedFile where
  fileId : ℕ
  after : List Char
  anchors : List PlannedAnchor
deriving DecidableEq

/-- An anchor while the edits are followed: whether one of them moved it, and whether the
present one overlaps it without covering it. -/
structure Followed where
  planned : PlannedAnchor
  moved : Bool
  overlapped : Bool
deriving DecidableEq

/-- A file while its edits are followed: the text and the shift of offsets as they stand,
and the insertions with where they are. -/
structure Following where
  cur : List Char
  adj : ℤ
  anchors : List Followed
  inserts : List (ℕ × List Char)
  memory : MoveMemory
deriving DecidableEq

/-- Where a position goes when `[ef, et)` is deleted. -/
def afterDelete (p ef et : ℕ) : ℕ := if p < ef then p else if et ≤ p then p - (et - ef) else ef

/-- A deletion meets an anchor: what becomes of it, and what is held of its text. -/
def cutAnchor (fragments : List FragmentRange) (cur : List Char) (index ef et : ℕ)
    (f : Followed) : Followed × Option Held :=
  let a := f.planned.anchor
  if a.attached = false then ({ f with overlapped := false }, none)
  else if ef ≤ a.start ∧ a.stop ≤ et then
    let fragment := fragments.find? fun g =>
      g.edit = index ∧ g.start ≤ a.start - ef ∧ a.stop - ef ≤ g.stop
    ({ f with
        overlapped := false
        planned := { f.planned with
          anchor := { a with
            detached := true
            start := 0
            stop := 0
            length := some (a.stop - a.start)
            fragment := fragment.map (·.id)
            offset := fragment.map fun g => a.start - ef - g.start }
          state := .set
          touched := true } },
      some ⟨a.id, a.start - ef, slice16Widened cur a.start a.stop, none⟩)
  else
    let overlapped := decide (a.start < et ∧ ef < a.stop)
    let start := afterDelete a.start ef et
    let stop := afterDelete a.stop ef et
    ({ moved := f.moved || decide (start ≠ a.start ∨ stop ≠ a.stop)
       overlapped := overlapped
       planned := { f.planned with
         anchor := { a with start := start, stop := stop }
         touched := f.planned.touched || overlapped } },
      if overlapped = false then none
      else if ef ≤ a.start ∧ et < a.stop then
        some ⟨a.id, a.start - ef, slice16Widened cur a.start et, some .head⟩
      else if a.start < ef ∧ a.stop ≤ et then
        some ⟨a.id, 0, slice16Widened cur ef a.stop, some .tail⟩
      else none)

/-- `n` units are inserted at `ef`: an overlapped anchor takes them inside it, one that
starts there moves, and one that ends there stays. -/
def insertAnchor (ef n : ℕ) (f : Followed) : Followed :=
  let a := f.planned.anchor
  if a.attached = false then f
  else if f.overlapped then
    { f with moved := true, planned := { f.planned with anchor := { a with stop := a.stop + n } } }
  else if ef ≤ a.start then
    { f with
      moved := true
      planned := { f.planned with anchor := { a with start := a.start + n, stop := a.stop + n } } }
  else if ef < a.stop then
    { f with moved := true, planned := { f.planned with anchor := { a with stop := a.stop + n } } }
  else f

/-- An earlier insertion moves past an edit, and is dropped when the edit reaches into it. -/
def followEdit (ef et n : ℕ) (insertion : ℕ × List Char) : Option (ℕ × List Char) :=
  if et ≤ insertion.1 then some (insertion.1 + n - (et - ef), insertion.2)
  else if insertion.1 + lenUtf16 insertion.2 ≤ ef then some insertion
  else none

/-- Follows one edit. -/
def Following.step (fragments : List FragmentRange) (s : Following) (item : Edit × ℕ) :
    Following :=
  let edit := item.1
  let ef := (edit.pos + s.adj).toNat
  let et := ef + edit.delete
  let n := lenUtf16 edit.insert
  if ef = et ∧ n = 0 then s
  else
    let first := floorAt charLenUtf16 s.cur ef
    let last := ceilAt charLenUtf16 s.cur et
    let cuts := s.anchors.map (cutAnchor fragments s.cur item.2 ef et)
    let anchors := if ef < et then cuts.map (·.1)
      else s.anchors.map fun f => { f with overlapped := false }
    { cur := s.cur.take first ++ edit.insert ++ s.cur.drop last
      adj := s.adj + n - (et - ef : ℕ)
      anchors := if 0 < n then anchors.map (insertAnchor ef n) else anchors
      inserts := s.inserts.filterMap (followEdit ef et n) ++
        if 0 < n then [(ef, edit.insert)] else []
      memory := if ef < et then
          s.memory.remember ((s.cur.take last).drop first) (cuts.filterMap (·.2))
        else s.memory }

def Following.start (file : OperationFile) (memory : MoveMemory) : Following where
  cur := file.before
  adj := 0
  anchors := file.anchors.map fun a => ⟨⟨a, .kept, false, none⟩, false, false⟩
  inserts := []
  memory := memory

/-- A moved anchor is written again. -/
def Followed.settle (f : Followed) : PlannedAnchor :=
  if f.moved ∧ f.planned.anchor.attached then { f.planned with state := .set } else f.planned

/-- One file's state while the operation is planned. -/
structure Work where
  fileId : ℕ
  anchors : List PlannedAnchor
  after : List Char
  inserts : List (ℕ × List Char)
deriving DecidableEq

/-- Follows the edits of one file in order. -/
def followEdits (file : OperationFile) (memory : MoveMemory) : Following :=
  file.edits.zipIdx.foldl (Following.step file.fragments) (.start file memory)

def planFile (file : OperationFile) (memory : MoveMemory) : Work × MoveMemory :=
  let s := followEdits file memory
  (⟨file.fileId, s.anchors.map Followed.settle, s.cur, s.inserts⟩, s.memory)

/-- The first phase, over all files. -/
def planFiles : List OperationFile → MoveMemory → List Work × MoveMemory
  | [], memory => ([], memory)
  | file :: files, memory =>
    let (work, memory) := planFile file memory
    let (rest, memory) := planFiles files memory
    (work :: rest, memory)

/-- A plan under way: the files, and what is remembered. -/
structure Plan where
  work : List Work
  memory : MoveMemory
deriving DecidableEq

/-- The first element that satisfies a predicate, with its index. -/
def position {α : Type*} (p : α → Bool) : List α → Option (ℕ × α)
  | [] => none
  | a :: l => if p a then some (0, a) else (position p l).map fun r => (r.1 + 1, r.2)

/-- The file that has an anchor, and the anchor in it. -/
def locate (work : List Work) (id : ℕ) : Option (ℕ × ℕ × PlannedAnchor) :=
  (position (fun w => w.anchors.any fun a => a.anchor.id = id) work).bind fun o =>
    (position (fun a => a.anchor.id = id) o.2.anchors).map fun a => (o.1, a.1, a.2)

/-- A cut piece goes back onto an attached anchor at the edge it was cut from. -/
def rejoinPiece (after : List Char) (planned : PlannedAnchor) (side : Side) (start : ℕ)
    (text : List Char) : Option PlannedAnchor :=
  let stop := start + lenUtf16 text
  let a := planned.anchor
  if slice16Widened after start stop ≠ text then none
  else if a.attached = false then none
  else match side with
    | .head =>
      if stop = a.start then
        some { planned with anchor := { a with start := start }, state := .set, touched := true }
      else none
    | .tail =>
      if start = a.stop then
        some { planned with anchor := { a with stop := stop }, state := .set, touched := true }
      else none

/-- A detached anchor is attached to a range of a file. -/
def pin (planned : PlannedAnchor) (fileId start stop : ℕ) (movedFrom : Option ℕ) :
    PlannedAnchor where
  anchor := { planned.anchor with
    file := fileId
    start := start
    stop := stop
    detached := false
    fragment := none
    offset := none
    length := none
    collapsed := false
    unresolved := false }
  state := .set
  touched := true
  movedFrom := movedFrom

/-- Where a held piece lands when its text is at `pos`. -/
def landing (pos : ℕ) (shift : ℤ) (h : Held) : Option ℕ :=
  if 0 ≤ (pos + h.offset : ℕ) + shift then some ((pos + h.offset : ℕ) + shift).toNat else none

/-- A piece that was held of an anchor goes back, in file `wi` with its text at `pos`. -/
def bringBack (wi pos : ℕ) (shift : ℤ) (work : List Work) (h : Held) : Option (List Work) :=
  if h.text = [] then none
  else match locate work h.id, work[wi]?, landing pos shift h with
    | some (oi, index, source), some w, some start =>
      match h.side with
      | some side =>
        if oi = wi then
          (rejoinPiece w.after source side start h.text).map fun p =>
            work.modify wi fun w => { w with anchors := w.anchors.set index p }
        else none
      | none =>
        let stop := start + lenUtf16 h.text
        if source.anchor.attached ∨ source.anchor.length = none then none
        else if slice16Widened w.after start stop ≠ h.text then none
        else
          let movedFrom := if oi = wi then source.movedFrom else (work[oi]?).map (·.fileId)
          let removed := work.modify oi fun o => { o with anchors := o.anchors.eraseIdx index }
          some (removed.modify wi fun o =>
            { o with anchors := o.anchors ++ [pin source w.fileId start stop movedFrom] })
    | _, _, _ => none

/-- The next piece goes back if it can. -/
def bringNext (wi pos : ℕ) (shift : ℤ) (s : List Work × Bool) (h : Held) : List Work × Bool :=
  match bringBack wi pos shift s.1 h with
  | some work => (work, true)
  | none => s

/-- The pieces held with one text, in order, and whether one went back. -/
def bringAll (wi pos : ℕ) (shift : ℤ) (work : List Work) (held : List Held) :
    List Work × Bool :=
  held.foldl (bringNext wi pos shift) (work, false)

/-- Whether a span overlaps none that is claimed. -/
def free (claimed : List (ℕ × ℕ × ℕ)) (start stop : ℕ) : Bool :=
  !claimed.any fun c => start < c.2.2 && c.2.1 < stop

/-- Matches an insertion with what is remembered, newest first; `claimed` are the spans
that texts have taken, each with the index of its entry. Every round looks below the last
hit, so that `fuel` rounds are enough for the entries below `fuel`. -/
def matchRounds (wi pos : ℕ) (text : List Char) :
    ℕ → ℕ → Plan → List (ℕ × ℕ × ℕ) → Plan × List (ℕ × ℕ × ℕ)
  | 0, _, plan, claimed => (plan, claimed)
  | fuel + 1, below, plan, claimed =>
    match plan.memory.find text (free claimed) below with
    | none => (plan, claimed)
    | some (i, hit, shift) =>
      match plan.memory.entries[i]? with
      | none => (plan, claimed)
      | some e =>
        let (work, applied) := bringAll wi (pos + hit) shift plan.work e.held
        if applied then
          matchRounds wi pos text fuel i ⟨work, plan.memory.drop i⟩
            (claimed ++ [(i, hit, hit + lenUtf16 e.text)])
        else matchRounds wi pos text fuel i ⟨work, plan.memory⟩ claimed

/-- One insertion of the second phase. -/
def matchInsertion (plan : Plan) (task : ℕ × ℕ × List Char) : Plan × List (ℕ × ℕ × ℕ) :=
  let n := plan.memory.entries.length
  matchRounds task.1 task.2.1 task.2.2 n n plan []

/-- The insertions of the second phase, with the numbers of their files. -/
def tasks (work : List Work) : List (ℕ × ℕ × List Char) :=
  work.zipIdx.flatMap fun w => w.1.inserts.map fun i => (w.2, i.1, i.2)

/-- The second phase. -/
def matchInsertions (plan : Plan) (todo : List (ℕ × ℕ × List Char)) : Plan :=
  todo.foldl (fun plan task => (matchInsertion plan task).1) plan

def Work.planned (w : Work) : PlannedFile := ⟨w.fileId, w.after, w.anchors⟩

/-- Plans an operation: its files, and what is remembered after it. -/
def planOperation (files : List OperationFile) (memory : MoveMemory) :
    List PlannedFile × MoveMemory :=
  let (work, memory) := planFiles files memory
  let plan := matchInsertions ⟨work, memory⟩ (tasks work)
  (plan.work.map Work.planned, plan.memory)

lemma planOperation_files (files : List OperationFile) (memory : MoveMemory) :
    (planOperation files memory).1 = (matchInsertions
      ⟨(planFiles files memory).1, (planFiles files memory).2⟩
        (tasks (planFiles files memory).1)).work.map Work.planned := rfl

end LibrePaper.Anchors
