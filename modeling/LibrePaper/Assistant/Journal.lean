import LibrePaper.Library.Tables
import LibrePaper.Library.Utf8

/-!
# The assistant's journal

The journal keeps what a runner's calls did, as events in a file of bounded size. Events of
operations that are over make room for new ones; what is not resolved stays.
-/
namespace LibrePaper.Assistant.Journal
open Library

abbrev Text := List Char

/-- The bytes of a text. -/
abbrev lenUtf8 (text : Text) : ℕ := width Char.utf8Size text

def MAX_EVENTS : ℕ := 4096

def MAX_BYTES : ℕ := 2 * 1024 * 1024

structure OperationIdentity where
  epoch : Text
  id : Text
deriving DecidableEq

/-- An event; confirmed effects are kept as the text of their JSON. -/
structure Event where
  seq : ℕ
  time : ℕ
  taskId : Text
  kind : Text
  tool : Text
  operation : Option OperationIdentity
  receiptId : Option Text
  resultIds : List Text
  status : Text
  detail : Option Text
  refused : ℕ
  confirmed : List Text
deriving DecidableEq

structure Disk where
  nextSeq : ℕ
  events : List Event

def Disk.empty : Disk := ⟨0, []⟩

/-- Texts with commas between them. -/
def joined : List Text → Text
  | [] => []
  | [text] => text
  | text :: texts => text ++ ',' :: joined texts

def jsonList (items : List Text) : Text := '[' :: joined items ++ [']']

def jsonObject (fields : List (String × Text)) : Text :=
  '\x7b' :: joined (fields.map fun f => quoted f.1.toList ++ ':' :: f.2) ++ ['\x7d']

def jsonNumber (n : ℕ) : Text := Nat.toDigits 10 n

def jsonOption (text : Option Text) : Text := text.elim "null".toList id

def OperationIdentity.json (o : OperationIdentity) : Text :=
  jsonObject [("epoch", quoted o.epoch), ("id", quoted o.id)]

def Event.json (e : Event) : Text :=
  jsonObject ([("seq", jsonNumber e.seq), ("at", jsonNumber e.time), ("task_id", quoted e.taskId),
    ("kind", quoted e.kind), ("tool", quoted e.tool),
    ("operation", jsonOption (e.operation.map OperationIdentity.json)),
    ("receipt_id", jsonOption (e.receiptId.map quoted)),
    ("result_ids", jsonList (e.resultIds.map quoted)), ("status", quoted e.status)] ++
    (e.detail.map fun detail => ("detail", quoted detail)).toList ++
    (if e.refused = 0 then [] else [("refused", jsonNumber e.refused)]) ++
    (if e.confirmed = [] then [] else [("confirmed", jsonList e.confirmed)]))

def Disk.json (disk : Disk) : Text :=
  jsonObject [("next_seq", jsonNumber disk.nextSeq),
    ("events", jsonList (disk.events.map Event.json))]

/-- The bytes of the file. -/
def Disk.size (disk : Disk) : ℕ := lenUtf8 disk.json

/-- Reads the file; there may be none. -/
def read : Option Disk → Except String Disk
  | none => .ok .empty
  | some disk =>
    if MAX_BYTES < disk.size then .error "runner journal exceeds its size limit"
    else if MAX_EVENTS < disk.events.length then .error "runner journal exceeds its event limit"
    else .ok disk

def write (disk : Disk) : Except String Disk :=
  if MAX_BYTES < disk.size then .error "runner journal exceeds its size limit" else .ok disk

/-- Changes the file under its lock. -/
def update {α : Type} (file : Option Disk) (f : Disk → Except String (α × Disk)) :
    Except String (α × Disk) := do
  let disk ← read file
  let (value, disk) ← f disk
  let disk ← write disk
  .ok (value, disk)

/-- What one operation of one tool is known by. -/
abbrev Key : Type := Text ×ₗ Text ×ₗ Text ×ₗ Text

def eventKey (e : Event) : Option Key :=
  e.operation.map fun o => toLex (e.taskId, toLex (e.tool, toLex (o.epoch, o.id)))

def resolved (e : Event) : Bool :=
  e.kind = "receipt_reconcile".toList ||
    (e.kind = "tool_result".toList && e.status = "completed".toList)

/-- Whether the last event of each operation resolved it. -/
def latest (events : List Event) : Finmap fun _ : Key => Bool :=
  events.foldl (fun table e => match eventKey e with
    | none => table
    | some key => table.insert key (resolved e)) ∅

def unresolvedKeys (events : List Event) : List Key :=
  (sortedKeys (latest events)).filter fun key => (latest events).lookup key = some false

/-- The calls whose result was not observed. -/
def pendingOperations (events : List Event) : List (Text × Text × OperationIdentity) :=
  (unresolvedKeys events).map fun key => (key.1, key.2.1, ⟨key.2.2.1, key.2.2.2⟩)

/-- What is appended, and the time. -/
structure Request where
  taskId : Text
  kind : Text
  tool : Text
  operation : Option OperationIdentity
  resultIds : List Text
  status : Text
  detail : Option Text
  refused : ℕ
  confirmed : List Text
  time : ℕ

def checkFields (r : Request) : Option String :=
  if 128 < lenUtf8 r.taskId ∨ 64 < lenUtf8 r.kind ∨ 128 < lenUtf8 r.tool ∨
      64 < lenUtf8 r.status then some "runner journal event field exceeds its limit"
  else if 100 < r.resultIds.length ∨ r.resultIds.any fun id => id = [] || 128 < lenUtf8 id then
    some "runner journal result identifiers exceed their limit"
  else if 100 < r.confirmed.length then some "runner journal confirmed effects exceed their limit"
  else none

section Digest
variable (digest : Bytes → Bytes)

def receiptId (tool : Text) (o : OperationIdentity) : Text :=
  "result_".toList ++ hex (digest (utf8 tool ++ 0 :: utf8 o.epoch ++ 0 :: utf8 o.id))

def Request.event (r : Request) (seq : ℕ) : Event where
  seq := seq
  time := r.time
  taskId := r.taskId
  kind := r.kind
  tool := r.tool
  operation := r.operation
  receiptId := r.operation.map (receiptId digest r.tool)
  resultIds := r.resultIds
  status := r.status
  detail := r.detail
  refused := r.refused
  confirmed := r.confirmed

/-- Whether no unresolved operation needs an event. -/
def settled (events : List Event) (e : Event) : Bool :=
  (eventKey e).all fun key => decide (key ∉ unresolvedKeys events)

/-- Settled events make room until the events are few enough. -/
def trim : ℕ → List Event → Except String (List Event)
  | 0, events => .ok events
  | fuel + 1, events =>
    if events.length ≤ MAX_EVENTS then .ok events
    else match events.findIdx? (settled events) with
      | none => .error "runner journal is full of unresolved operations"
      | some i => trim fuel (events.eraseIdx i)

/-- The number of the next event. -/
def Disk.seq (disk : Disk) : ℕ := max (min (disk.nextSeq + 1) (2 ^ 64 - 1)) 1

def push (r : Request) (disk : Disk) : Except String (ℕ × Disk) := do
  let events := disk.events ++ [r.event digest disk.seq]
  let events ← trim events.length events
  .ok (disk.seq, ⟨disk.seq, events⟩)

/-- What an append answers, and the file behind it. -/
def append (file : Option Disk) (r : Request) : Except String ℕ × Option Disk :=
  match checkFields r with
  | some error => (.error error, file)
  | none => match update file (push digest r) with
    | .error error => (.error error, file)
    | .ok (seq, disk) => match read (some disk) with
      | .error error => (.error error, some disk)
      | .ok _ => (.ok seq, some disk)

/-- The file, and every event that was ever appended. -/
structure State where
  file : Option Disk
  history : List Event

def State.step (s : State) (r : Request) : State :=
  match append digest s.file r with
  | (.ok seq, file) => ⟨file, s.history ++ [r.event digest seq]⟩
  | (.error _, file) => ⟨file, s.history⟩

/-- A new journal after some appends. -/
def run (requests : List Request) : State := requests.foldl (State.step digest) ⟨none, []⟩

end Digest

/-- The events in the file. -/
def State.stored (s : State) : List Event := s.file.elim [] Disk.events

end LibrePaper.Assistant.Journal
