import LibrePaper.Library.Keysets

/-!
# Pages of comments

A document's comments are read a page at a time, in the order of their creation. A page is limited
by its rows and by its bytes. It previews the first replies of each comment, and a thread's other
replies are read behind a cursor of their own.
-/
namespace LibrePaper.Comments
open Library

abbrev Uuid := Fin (2 ^ 128)

scoped instance neZero : NeZero (2 ^ 128) := ⟨by decide⟩

def minNanos : ℤ := -377705116800 * 10 ^ 9

def maxNanos : ℤ := 253402300799 * 10 ^ 9 + 999999999

/-- A time, in nanoseconds since the epoch. -/
structure Moment where
  nanos : ℤ
  low : minNanos ≤ nanos
  high : nanos ≤ maxNanos
deriving DecidableEq

/-- A place in a traversal. -/
structure Position where
  created : Moment
  id : Uuid
deriving DecidableEq

abbrev Key := ℤ ×ₗ Uuid

namespace Position

/-- Before every real row. -/
def start : Position := ⟨⟨0, by decide, by decide⟩, 0⟩

def micros (p : Position) : Int64 := Int64.ofInt (p.created.nanos.tdiv 1000)

def fromMicros (micros : Int64) (id : Uuid) : Option Position :=
  if h : minNanos ≤ micros.toInt * 1000 ∧ micros.toInt * 1000 ≤ maxNanos then
    some ⟨⟨micros.toInt * 1000, h.1, h.2⟩, id⟩
  else none

/-- What the database compares. -/
def key (p : Position) : Key := toLex (p.created.nanos.tdiv 1000, p.id)

end Position

/-- A cursor on the wire. -/
structure Wire where
  v : UInt8
  d : Uuid
  t : Option Uuid
  micros : Int64
  id : Uuid
deriving DecidableEq

/-- The text of a cursor. -/
structure Codec where
  encode : Wire → String
  decode : String → Option Wire

/-- A cursor's text is read back. -/
def Codec.Lawful (codec : Codec) : Prop := ∀ w, codec.decode (codec.encode w) = some w

def encodeCursor (codec : Codec) (document : Uuid) (thread : Option Uuid) (p : Position) : String :=
  codec.encode ⟨1, document, thread, p.micros, p.id⟩

/-- Reads a cursor, or says that it does not belong to this request. -/
def decodeCursor (codec : Codec) (raw : String) (document : Uuid) (thread : Option Uuid) :
    Except String Position :=
  let refuse := "that pagination cursor is not for this request"
  match codec.decode raw with
  | none => .error refuse
  | some wire =>
    if wire.v ≠ 1 ∨ wire.d ≠ document ∨ wire.t ≠ thread then .error refuse
    else match Position.fromMicros wire.micros wire.id with
      | some p => .ok p
      | none => .error refuse

/-- A comment of a document, or a reply of a comment. Its time is the database's when it was
written, in whole microseconds. -/
structure Row where
  owner : Uuid
  id : Uuid
  created : Moment
  bytes : ℤ
  updated : ℤ
  body : String
  whole : created.nanos % 1000 = 0
  later : 0 < created.nanos
deriving DecidableEq

def Row.position (r : Row) : Position := ⟨r.created, r.id⟩

def Row.key (r : Row) : Key := r.position.key

/-- Rows with ids of their own. -/
structure Table where
  rows : List Row
  distinct : (rows.map Row.id).Nodup

structure Database where
  annotations : Table
  replies : Table

def annotationPageMax : ℕ := 500

def replyPageMax : ℕ := 1000

def replyLookupMax : ℕ := 2000

/-- The rows of one owner behind a cursor, in order. -/
def Table.behind (t : Table) (owner : Uuid) (cursor : Option Key) : List Row :=
  sortByKey Row.key (t.rows.filter fun r => r.owner = owner ∧ cursor.all (· < r.key))

def sizesBehind (what : String) (max : ℕ) (t : Table) (owner : Uuid) (cursor : Option Key)
    (limit : ℕ) : Except String (List Row) :=
  if 1 ≤ limit ∧ limit ≤ max then .ok ((t.behind owner cursor).take limit)
  else .error s!"{what} page limit must be 1..={max}"

def annotationSizes (db : Database) (document : Uuid) (cursor : Option Key) (limit : ℕ) :
    Except String (List Row) :=
  sizesBehind "annotation" annotationPageMax db.annotations document cursor limit

def threadReplySizes (db : Database) ( annotation : Uuid) (cursor : Option Key) (limit : ℕ) :
    Except String (List Row) :=
  sizesBehind "reply" replyPageMax db.replies annotation cursor limit

def annotationsById (db : Database) (document : Uuid) (ids : List Uuid) :
    Except String (List Row) :=
  if ids = [] then .ok []
  else if ids.length > annotationPageMax then .error "too many annotations requested"
  else .ok (sortByKey Row.key
    (db.annotations.rows.filter fun r => r.owner = document ∧ r.id ∈ ids))

/-- How many replies a thread has, and when one last changed. -/
structure ReplySummary where
  annotation : Uuid
  replies : ℕ
  changedMicros : ℤ
deriving DecidableEq

def summaryOf (rows : List Row) ( annotation : Uuid) : ReplySummary :=
  let thread := rows.filter fun r => r.owner = annotation
  ⟨ annotation, thread.length, (thread.map Row.updated).max?.getD 0⟩

def replySummaries (db : Database) (ids : List Uuid) : Except String (List ReplySummary) :=
  if ids = [] then .ok []
  else if ids.length > annotationPageMax then .error "too many threads requested"
  else
    let rows := db.replies.rows.filter fun r => r.owner ∈ ids
    .ok ((rows.map Row.owner).dedup.map (summaryOf rows))

def replyPreviewSizes (db : Database) (ids : List Uuid) (perThread : ℕ) :
    Except String (List Row) :=
  if ids = [] ∨ perThread = 0 then .ok []
  else if ids.length > annotationPageMax ∨ ¬(1 ≤ perThread ∧ perThread ≤ replyPageMax) then
    .error "invalid reply preview size"
  else .ok (ids.flatMap fun id => (db.replies.behind id none).take perThread)

def repliesById (db : Database) (ids : List Uuid) : Except String (List Row) :=
  if ids = [] then .ok []
  else if ids.length > replyLookupMax then .error "too many replies requested"
  else .ok (sortByKey Row.key (db.replies.rows.filter fun r => r.id ∈ ids))

def commentPageMax : ℕ := 200

def threadPageMax : ℕ := 200

def replyPreview : ℕ := 10

def pageBytesMax : ℕ := 512 * 1024

def rowOverheadBytes : ℕ := 1024

def replyOverheadBytes : ℕ := 256

/-- Spends what is left over sized rows. A first row that is too large goes by itself. -/
def spend (overhead : ℕ) : ℕ → ℕ → List ℤ → ℕ × Bool
  | _, taken, [] => (taken, false)
  | left, taken, size :: sizes =>
    let cost := size.toNat + overhead
    if cost > left then if taken = 0 then (1, true) else (taken, false)
    else spend overhead (left - cost) (taken + 1) sizes

/-- How many rows fit a budget, and whether the first one did not. -/
def admitRows (sizes : List ℤ) (overhead budget : ℕ) : ℕ × Bool := spend overhead budget 0 sizes

/-- The replies of one thread that the budget affords, and what is left of it. -/
def affordThread : ℕ → List Row → ℕ × List Row
  | budget, [] => (budget, [])
  | budget, r :: rows =>
    let cost := r.bytes.toNat + replyOverheadBytes
    if cost > budget then (0, [])
    else
      let rest := affordThread (budget - cost) rows
      (rest.1, r :: rest.2)

/-- The replies that the budget affords, thread by thread. -/
def affordReplies (thread : Uuid → List Row) : ℕ → List Uuid → List Row
  | _, [] => []
  | budget, id :: ids =>
    let rest := affordThread budget (thread id)
    if rest.1 = 0 then rest.2 else rest.2 ++ affordReplies thread rest.1 ids

/-- A comment with the first of its replies, and a cursor to the others. -/
structure Comment where
  row : Row
  replies : List Row
  replyTotal : ℕ
  replyCursor : Option String
  threadChangedMicros : ℤ

structure CommentPage where
  comments : List Comment
  next : Option Position
  complete : Bool
  oversize : Bool

structure ReplyPage where
  replies : List Row
  next : Option Position
  complete : Bool
  total : ℕ
  oversize : Bool

/-- `limit.clamp(1, most)`. -/
def clampLimit (limit most : ℕ) : ℕ := min (max limit 1) most

/-- A comment with the replies that were loaded for it. -/
def previewed (codec : Codec) (document : Uuid) (summaries : List ReplySummary)
    (loaded : List Row) (row : Row) : Comment :=
  let replies := loaded.filter fun r => r.owner = row.id
  let summary := summaries.find? fun s => s.annotation = row.id
  let total := (summary.map ReplySummary.replies).getD 0
  let place := (replies.getLast?.map Row.position).getD Position.start
  { row, replies, replyTotal := total
    replyCursor := if replies.length < total then
      some (encodeCursor codec document (some row.id) place) else none
    threadChangedMicros := (summary.map ReplySummary.changedMicros).getD 0 }

/-- Reads the rows of a page that fit the budget, and previews their replies with what is left. -/
def loadPage (codec : Codec) (budget : ℕ) (db : Database) (document : Uuid) (sizes : List Row)
    (moreRows : Bool) : Except String CommentPage := do
  let admitted := admitRows (sizes.map Row.bytes) rowOverheadBytes budget
  let fitting := sizes.take admitted.1
  let left := budget - (fitting.map fun r => r.bytes.toNat + rowOverheadBytes).sum
  let rows ← annotationsById db document (fitting.map Row.id)
  let ids := rows.map Row.id
  let summaries ← replySummaries db ids
  let sized ← replyPreviewSizes db ids replyPreview
  let previews := sortByKey Row.key sized
  let wanted := affordReplies (fun id => previews.filter fun r => r.owner = id) left ids
  let loaded ← repliesById db (wanted.map Row.id)
  let last := (rows.getLast?.or fitting.getLast?).map Row.position
  let complete := !moreRows && decide (admitted.1 = sizes.length)
  return ⟨rows.map (previewed codec document summaries loaded),
    if complete then none else last, complete, admitted.2⟩

/-- One page of comments behind a position, within a byte budget. -/
def page (codec : Codec) (budget : ℕ) (db : Database) (document : Uuid)
    (after : Option Position) (limit : ℕ) : Except String CommentPage := do
  let limit := clampLimit limit commentPageMax
  let found ← annotationSizes db document (after.map Position.key) (limit + 1)
  if found.take limit = [] then return ⟨[], none, true, false⟩
  else loadPage codec budget db document (found.take limit) (decide (found.length > limit))

/-- Reads the replies of a page that fit the budget. -/
def loadThread (budget : ℕ) (db : Database) (sizes : List Row) (moreRows : Bool) (total : ℕ) :
    Except String ReplyPage := do
  let admitted := admitRows (sizes.map Row.bytes) replyOverheadBytes budget
  let rows ← repliesById db ((sizes.take admitted.1).map Row.id)
  let last := sizes[admitted.1 - 1]?
  let complete := !moreRows && decide (admitted.1 = sizes.length)
  return ⟨rows, if complete then none else last.map Row.position, complete, total, admitted.2⟩

/-- One page of a thread's replies behind a position. -/
def threadPage (budget : ℕ) (db : Database) (comment : Uuid) (after : Option Position)
    (limit : ℕ) : Except String ReplyPage := do
  let limit := clampLimit limit threadPageMax
  let summaries ← replySummaries db [comment]
  let total := (summaries.head?.map ReplySummary.replies).getD 0
  let found ← threadReplySizes db comment (after.map Position.key) (limit + 1)
  if found.take limit = [] then return ⟨[], none, true, total, false⟩
  else loadThread budget db (found.take limit) (decide (found.length > limit)) total

end LibrePaper.Comments
