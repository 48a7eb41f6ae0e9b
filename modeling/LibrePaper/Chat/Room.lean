import LibrePaper.Chat.Page
import LibrePaper.Library.Runs

/-!
# A room's chat

Messages wait in a buffer and are written in batches. Every call holds the chat lock across its calls
of the store, so a call is one step. Ids are minted before the lock is taken.
-/
namespace LibrePaper.Chat
open Library

/-- What came of a write: one whose reply is lost has happened all the same. -/
inductive Written where
  | ok
  | failed
  | lost
deriving DecidableEq

/-- A socket that receives chat: the messages that it was sent, whether its hello had a page, and
whether it was closed; beside it the ids of that page, and how many messages there had been. -/
structure Listener where
  held : List ChatRecord
  paged : Bool
  closed : Bool
  page : List ℕ
  since : ℕ
deriving DecidableEq

/-- A room, with the ids of all messages that it ever had. -/
structure Room where
  stored : List ChatRecord
  buffer : List ChatRecord
  listeners : ℕ → Option Listener
  accepted : List ℕ

inductive Op where
  | hello (socket : ℕ) (limit : ℤ) (read queued : Bool)
  | enqueue (sender : ℕ) (record : ChatRecord) (reserved : Bool) (refused : List ℕ)
      (written : Written)
  | flush (written : Written)
  | clear (acknowledged : Bool) (refused : List ℕ)
  | disconnect (socket : ℕ)
deriving DecidableEq

def chatFlushRows : ℕ := 64

def chatBufferMaxRows : ℕ := 256

/-- The store skips what it has. -/
def insertChatMessages (stored rows : List ChatRecord) : List ChatRecord :=
  stored ++ rows.filter fun r => r.id ∉ stored.map ChatRecord.id

namespace Room

/-- Sends a frame to a listener; one whose queue refuses it is closed. -/
def send (refused : List ℕ) (f : List ChatRecord → List ChatRecord) (c : ℕ) (l : Listener) :
    Listener :=
  if c ∈ refused then { l with closed := true } else { l with held := f l.held }

/-- Sends a frame to every listener but one. -/
def broadcastChat (s : Room) (skip : Option ℕ) (refused : List ℕ)
    (f : List ChatRecord → List ChatRecord) : Room :=
  { s with
    listeners := fun c =>
      if skip = some c then s.listeners c else (s.listeners c).map (send refused f c) }

def echoChat (s : Room) (socket : ℕ) (refused : List ℕ) (f : List ChatRecord → List ChatRecord) :
    Room :=
  { s with
    listeners := Function.update s.listeners socket
      ((s.listeners socket).map (send refused f socket)) }

/-- Writes what waits. -/
def writeChat (s : Room) (written : Written) : Room :=
  match written with
  | .ok => { s with stored := insertChatMessages s.stored s.buffer, buffer := [] }
  | .failed => s
  | .lost => { s with stored := insertChatMessages s.stored s.buffer }

/-- A message is queued, and goes to every listener and back to its sender. -/
def accept (s : Room) (sender : ℕ) (record : ChatRecord) (refused : List ℕ) : Room :=
  ({ s with
    buffer := s.buffer ++ [record]
    accepted := s.accepted ++ [record.id] }.broadcastChat (some sender) refused
      (· ++ [record])).echoChat sender refused (· ++ [record])

/-- Queues a message, if there is room for it and storage is reserved. -/
def enqueueChat (s : Room) (sender : ℕ) (record : ChatRecord) (reserved : Bool)
    (refused : List ℕ) (written : Written) : Room :=
  if chatBufferMaxRows ≤ s.buffer.length then s
  else if reserved = false then s
  else
    let s := s.accept sender record refused
    if chatFlushRows ≤ s.buffer.length then s.writeChat written else s

def flushChat (s : Room) (written : Written) : Room :=
  if s.buffer = [] then s else s.writeChat written

/-- Deletes what is stored and what waits, and tells every listener. A trim does the same. -/
def clearChat (s : Room) (refused : List ℕ) : Room :=
  { s with stored := [], buffer := [] }.broadcastChat none refused fun _ => []

/-- Registers a listener and sends it the newest messages. -/
def sendHelloWithChat (s : Room) (socket : ℕ) (limit : ℤ) (read queued : Bool) : Room :=
  let page := if read then (pageLocked s.stored s.buffer none limit).1 else []
  { s with
    listeners := Function.update s.listeners socket
      (some ⟨page, read, !queued, page.map ChatRecord.id, s.accepted.length⟩) }

/-- One call. Sockets and ids are new. -/
def step (s : Room) : Op → Option Room
  | .hello c limit read queued =>
    if s.listeners c = none then some (s.sendHelloWithChat c limit read queued) else none
  | .enqueue sender record reserved refused written =>
    if record.id ∈ s.accepted then none
    else some (s.enqueueChat sender record reserved refused written)
  | .flush written => some (s.flushChat written)
  | .clear acknowledged refused => some (if acknowledged then s.clearChat refused else s)
  | .disconnect c => some { s with listeners := Function.update s.listeners c none }

/-- A room that nobody is in yet. -/
def start (stored : List ChatRecord) : Room :=
  ⟨stored, [], fun _ => none, stored.map ChatRecord.id⟩

end Room
end LibrePaper.Chat
