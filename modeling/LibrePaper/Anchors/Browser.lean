import LibrePaper.Anchors.Planner
import LibrePaper.Library.Codes

/-!
# The planner of the browser

The browser plans an operation on texts that are sequences of UTF-16 code units, so a slice
may end inside a surrogate pair. The records of anchors are those of the anchor planner.
-/
namespace LibrePaper.Anchors.Browser
open Library

abbrev Units := List UInt16

def encodeUtf16 (c : Char) : Units :=
  if c.toNat < 0x10000 then [c.toNat.toUInt16]
  else [(0xd800 + (c.toNat - 0x10000) / 0x400).toUInt16,
    (0xdc00 + (c.toNat - 0x10000) % 0x400).toUInt16]

def utf16 (text : List Char) : Units := coded encodeUtf16 text

def newline : UInt16 := 10

/-- `String.prototype.slice` between two offsets that are not negative. -/
def slice (text : Units) (start stop : ℕ) : Units := (text.take stop).drop start

structure Held where
  id : ℕ
  offset : ℕ
  text : Units
  side : Option Side
deriving DecidableEq

structure Entry where
  text : Units
  held : List Held
deriving DecidableEq

structure MoveMemory where
  limit : ℕ
  entries : List Entry
deriving DecidableEq

/-- Where `needle` occurs exactly once in `hay`, with the shift its pieces gain there. -/
def once (hay needle : Units) (shift : ℤ) : Option (ℕ × ℤ) :=
  match firstAt needle hay with
  | none => none
  | some pos =>
    if (firstAt needle (hay.drop (pos + 1))).isSome then none else some (pos, shift)

def movedNewline (hay text : Units) : Option (ℕ × ℤ) :=
  if text.length < 2 then none
  else if text.getLast? = some newline then once hay (newline :: slice text 0 (text.length - 1)) 1
  else if text.head? = some newline then once hay (text.drop 1 ++ [newline]) (-1)
  else none

namespace MoveMemory

def remember (m : MoveMemory) (text : Units) (held : List Held) : MoveMemory :=
  if text = [] ∨ held = [] then m
  else
    let entries := m.entries ++ [⟨text, held⟩]
    { m with entries := entries.drop (entries.length - m.limit) }

/-- The newest remembered text below index `below` that the insertion holds exactly once, in
a span that `free` accepts. -/
def find (m : MoveMemory) (inserted : Units) (free : ℕ → ℕ → Bool) : ℕ → Option (ℕ × ℕ × ℤ)
  | 0 => none
  | i + 1 =>
    match m.entries[i]? with
    | none => find m inserted free i
    | some e =>
      match (once inserted e.text 0).or (movedNewline inserted e.text) with
      | none => find m inserted free i
      | some (pos, shift) =>
        if free pos (pos + e.text.length) then some (i, pos, shift)
        else find m inserted free i

/-- Removes the entry that `find` returned, by its index. -/
def drop (m : MoveMemory) (index : ℕ) : MoveMemory :=
  { m with entries := m.entries.eraseIdx index }

end MoveMemory

structure Edit where
  start : ℕ
  stop : ℕ
  insert : Units
deriving DecidableEq

structure OperationFile where
  fileId : ℕ
  before : Units
  anchors : List Anchor
  edits : List Edit
  fragments : List FragmentRange
deriving DecidableEq

structure PlannedFile where
  fileId : ℕ
  after : Units
  anchors : List PlannedAnchor
deriving DecidableEq

structure Following where
  cur : Units
  adj : ℤ
  anchors : List Followed
  inserts : List (ℕ × Units)
  memory : MoveMemory
deriving DecidableEq

def attached (a : Anchor) : Bool := !a.detached && !a.collapsed && !a.unresolved

/-- Where a position goes when `[ef, et)` is deleted. -/
def afterDelete (p ef et : ℕ) : ℕ :=
  if p < ef then p
  else if et ≤ p then p - (et - ef)
  else ef

/-- A deletion meets an anchor: what becomes of it, and what is held of its text. -/
def cutAnchor (fragments : List FragmentRange) (cur : Units) (index ef et : ℕ)
    (f : Followed) : Followed × Option Held :=
  let a := f.planned.anchor
  if !attached a then ({ f with overlapped := false }, none)
  else if ef ≤ a.start ∧ a.stop ≤ et then
    let fragment := fragments.find? fun g =>
      g.edit = index ∧ g.start ≤ a.start - ef ∧ a.stop - ef ≤ g.stop
    ({ f with
        overlapped := false
        planned := { f.planned with
          anchor := { a with
            detached := true
            start := 0
            stop := 0
            length := some (a.stop - a.start)
            fragment := fragment.map (·.id)
            offset := fragment.map fun g => a.start - ef - g.start }
          state := .set
          touched := true } },
      some ⟨a.id, a.start - ef, slice cur a.start a.stop, none⟩)
  else
    let overlapped := decide (a.start < et ∧ ef < a.stop)
    let start := afterDelete a.start ef et
    let stop := afterDelete a.stop ef et
    ({ moved := f.moved || decide (start ≠ a.start ∨ stop ≠ a.stop)
       overlapped := overlapped
       planned := { f.planned with
         anchor := { a with start := start, stop := stop }
         touched := f.planned.touched || overlapped } },
      if overlapped = false then none
      else if ef ≤ a.start then some ⟨a.id, a.start - ef, slice cur a.start et, some .head⟩
      else if a.stop ≤ et then some ⟨a.id, 0, slice cur ef a.stop, some .tail⟩
      else none)

/-- The new text meets an anchor: inside it, before it, or after it. -/
def takeInsert (ef n : ℕ) (f : Followed) : Followed :=
  let a := f.planned.anchor
  if !attached a then f
  else if f.overlapped then
    { moved := true
      overlapped := f.overlapped
      planned := { f.planned with anchor := { a with stop := a.stop + n } } }
  else if ef ≤ a.start then
    { moved := true
      overlapped := f.overlapped
      planned := { f.planned with
        anchor := { a with start := a.start + n, stop := a.stop + n } } }
  else if ef < a.stop then
    { moved := true
      overlapped := f.overlapped
      planned := { f.planned with anchor := { a with stop := a.stop + n } } }
  else f

/-- One of the insertions of a batch, moved past an edit. -/
def followInsert (ef et n : ℕ) (insertion : ℕ × Units) : Option (ℕ × Units) :=
  if et ≤ insertion.1 then some (insertion.1 + n - (et - ef), insertion.2)
  else if insertion.1 + insertion.2.length ≤ ef then some insertion
  else none

def followInserts (inserts : List (ℕ × Units)) (ef et n : ℕ) : List (ℕ × Units) :=
  inserts.filterMap (followInsert ef et n)

def Following.step (fragments : List FragmentRange) (s : Following) (item : Edit × ℕ) :
    Following :=
  let edit := item.1
  let ef := (edit.start + s.adj).toNat
  let et := (edit.stop + s.adj).toNat
  let n := edit.insert.length
  if ef = et ∧ n = 0 then s
  else
    let cuts := s.anchors.map (cutAnchor fragments s.cur item.2 ef et)
    let anchors := if ef < et then cuts.map (·.1)
      else s.anchors.map fun f => { f with overlapped := false }
    let held := cuts.filterMap (·.2)
    { cur := slice s.cur 0 ef ++ edit.insert ++ s.cur.drop et
      adj := s.adj + n - (et - ef : ℕ)
      anchors := if 0 < n then anchors.map (takeInsert ef n) else anchors
      inserts := followInserts s.inserts ef et n ++ if 0 < n then [(ef, edit.insert)] else []
      memory := if ef < et ∧ 0 < held.length then s.memory.remember (slice s.cur ef et) held
        else s.memory }

def Following.start (file : OperationFile) (memory : MoveMemory) : Following where
  cur := file.before
  adj := 0
  anchors := file.anchors.map fun a => ⟨⟨a, .kept, false, none⟩, false, false⟩
  inserts := []
  memory := memory

/-- A moved anchor that is still attached is written again. -/
def settle (f : Followed) : PlannedAnchor :=
  if f.moved ∧ attached f.planned.anchor then { f.planned with state := .set } else f.planned

structure Work where
  fileId : ℕ
  anchors : List PlannedAnchor
  after : Units
  inserts : List (ℕ × Units)
deriving DecidableEq

def followEdits (file : OperationFile) (memory : MoveMemory) : Following :=
  file.edits.zipIdx.foldl (Following.step file.fragments) (.start file memory)

def planFile (file : OperationFile) (memory : MoveMemory) : Work × MoveMemory :=
  let s := followEdits file memory
  (⟨file.fileId, s.anchors.map settle, s.cur, s.inserts⟩, s.memory)

def planFiles : List OperationFile → MoveMemory → List Work × MoveMemory
  | [], memory => ([], memory)
  | file :: files, memory =>
    let (work, memory) := planFile file memory
    let (rest, memory) := planFiles files memory
    (work :: rest, memory)

structure Plan where
  work : List Work
  memory : MoveMemory
deriving DecidableEq

/-- The owner of an anchor, and the anchor in it. -/
def owner (work : List Work) (id : ℕ) : Option (ℕ × ℕ × PlannedAnchor) :=
  (position (fun w => w.anchors.any fun a => a.anchor.id = id) work).bind fun o =>
    (position (fun a => a.anchor.id = id) o.2.anchors).map fun a => (o.1, a.1, a.2)

/-- Whether a cut piece between two offsets is at the edge it was cut from. -/
def edge (side : Side) (start stop : ℕ) (a : Anchor) : Bool :=
  match side with
  | .head => stop = a.start
  | .tail => start = a.stop

/-- The anchor with its piece put back. -/
def rejoined (planned : PlannedAnchor) (side : Side) (start stop : ℕ) : PlannedAnchor :=
  let a := planned.anchor
  { planned with
    anchor := match side with
      | .head => { a with start := start }
      | .tail => { a with stop := stop }
    state := .set
    touched := true }

/-- The anchor attached again, in the file where its text has come back. -/
def pinned (planned : PlannedAnchor) (fileId start stop : ℕ) (movedFrom : Option ℕ) :
    PlannedAnchor where
  anchor := { planned.anchor with
    file := fileId
    start := start
    stop := stop
    detached := false
    fragment := none
    offset := none
    length := none
    collapsed := false
    unresolved := false }
  state := .set
  touched := true
  movedFrom := movedFrom

/-- A held piece goes back at `start` in file `wi`. -/
def bringTo (wi start : ℕ) (work : List Work) (h : Held) (w : Work)
    (owned : ℕ × ℕ × PlannedAnchor) : Option (List Work) :=
  let (oi, index, anchor) := owned
  let stop := start + h.text.length
  match h.side with
  | some side =>
    if !attached anchor.anchor ∨ oi ≠ wi ∨ !edge side start stop anchor.anchor ∨
        slice w.after start stop ≠ h.text then none
    else some (work.modify wi fun w =>
      { w with anchors := w.anchors.set index (rejoined anchor side start stop) })
  | none =>
    if attached anchor.anchor ∨ anchor.anchor.length = none then none
    else if slice w.after start stop ≠ h.text then none
    else
      let movedFrom := if oi ≠ wi then (work[oi]?).map (·.fileId) else anchor.movedFrom
      let spliced := work.modify oi fun o => { o with anchors := o.anchors.eraseIdx index }
      some (spliced.modify wi fun o =>
        { o with anchors := o.anchors ++ [pinned anchor w.fileId start stop movedFrom] })

/-- A piece of an entry, whose text is at `pos` in file `wi`. -/
def bringBack (wi pos : ℕ) (shift : ℤ) (work : List Work) (h : Held) : Option (List Work) :=
  if h.text = [] then none
  else match owner work h.id, work[wi]? with
    | some owned, some w =>
      let start : ℤ := pos + shift + h.offset
      if start < 0 then none else bringTo wi start.toNat work h w owned
    | _, _ => none

def bringNext (wi pos : ℕ) (shift : ℤ) (s : List Work × Bool) (h : Held) : List Work × Bool :=
  match bringBack wi pos shift s.1 h with
  | some work => (work, true)
  | none => s

def bringAll (wi pos : ℕ) (shift : ℤ) (work : List Work) (held : List Held) :
    List Work × Bool :=
  held.foldl (bringNext wi pos shift) (work, false)

/-- Whether a span is still unclaimed. -/
def free (claimed : List (ℕ × ℕ)) (start stop : ℕ) : Bool :=
  !claimed.any fun c => start < c.2 && c.1 < stop

/-- The hits of one insertion, each below the last; `fuel` rounds are enough for the entries
below `fuel`. -/
def matchHits (wi pos : ℕ) (text : Units) : ℕ → ℕ → Plan → List (ℕ × ℕ) → Plan
  | 0, _, plan, _ => plan
  | fuel + 1, below, plan, claimed =>
    match plan.memory.find text (free claimed) below with
    | none => plan
    | some (i, hit, shift) =>
      match plan.memory.entries[i]? with
      | none => plan
      | some e =>
        let (work, applied) := bringAll wi (pos + hit) shift plan.work e.held
        if applied then
          matchHits wi pos text fuel i ⟨work, plan.memory.drop i⟩
            (claimed ++ [(hit, hit + e.text.length)])
        else matchHits wi pos text fuel i ⟨work, plan.memory⟩ claimed

def matchInsertion (plan : Plan) (task : ℕ × ℕ × Units) : Plan :=
  let n := plan.memory.entries.length
  matchHits task.1 task.2.1 task.2.2 n n plan []

/-- The insertions of the second phase, with the numbers of their files. -/
def tasks (work : List Work) : List (ℕ × ℕ × Units) :=
  work.zipIdx.flatMap fun w => w.1.inserts.map fun i => (w.2, i.1, i.2)

def planOperation (files : List OperationFile) (memory : MoveMemory) :
    List PlannedFile × MoveMemory :=
  let (work, memory) := planFiles files memory
  let plan := (tasks work).foldl matchInsertion ⟨work, memory⟩
  (plan.work.map fun w => ⟨w.fileId, w.after, w.anchors⟩, plan.memory)

end LibrePaper.Anchors.Browser
