import LibrePaper.Client.Joins

/-!
# A session and its room

The session of one browser, the connection to its room, and the server as the browser
meets it: a head that accepted updates raise, a durable part of it, and an answer to each
update. A dropped connection delivers nothing more, and the session is told of the drop
later, at the latest when the next connection opens.
-/
namespace LibrePaper.Client
open Library

variable {P : Type} [DecidableEq P] {R : Replica P} {c : Config}

/-- What the server sends to a browser. -/
inductive Frame (R : Replica P) where
  | join (frame : JoinFrame R)
  | gap (vector : VersionVector P)
  | pressure (vector : VersionVector P)
  | durable (vector : VersionVector P)
  | ack (upTo : ℕ)
  | relayed (update : R.Update)

/-- How the page hands a frame to the session. -/
def Frame.op : Frame R → Op R
  | .join frame => .join frame
  | .gap vector => .gap (some vector)
  | .pressure vector => .pressure (some vector)
  | .durable vector => .durable (some vector)
  | .ack upTo => .acknowledge upTo
  | .relayed update => .apply update

/-- A session in its room. `toServer` and `toClient` hold what the connection carries, and
`mine` the operations that this browser made or restored. -/
structure Room (R : Replica P) where
  session : Session R
  mine : Set (Operation P)
  up : Bool
  head : VersionVector P
  durable : VersionVector P
  toServer : List (Message R)
  toClient : List (Frame R)

/-- How the server answers an update; `join` holds the frames that answer `doc-open`, up to
the vectors that they state. -/
inductive Answer (R : Replica P) where
  | accept
  | gap
  | pressure
  | join (frames : List (JoinFrame R))
  | nothing

/-- What happens in a room. -/
inductive RoomOp (R : Replica P) where
  | own (op : Op R)
  | receive
  | openRoom
  | serve (answer : Answer R)
  | others (vector : VersionVector P)
  | flush (vector : VersionVector P) (notify : Bool)
  | ack (upTo : ℕ)
  | relay (update : R.Update)
  | drop
  | told
  | reconnect
  | restart (head : VersionVector P)

/-- The events of a session that come from its own browser. -/
def Op.isOwn : Op R → Bool
  | .edit _ => true
  | .restore _ => true
  | .hydration _ => true
  | .writing _ => true
  | .persisted => true
  | .failed _ => true
  | .turn _ _ => true
  | .timer => true
  | .leave => true
  | _ => false

/-- The transport drops an update of a session that is not joined; the join catches it
up. A session that was left is gone for the transport. -/
def wire (s : Session R) : Effect R → Option (Message R)
  | .sent (.docUpdate u n) => if s.joined && !s.left then some (.docUpdate u n) else none
  | .sent m => some m
  | _ => none

/-- An event of the session, with what it hands to the connection. -/
def Room.act (c : Config) (r : Room R) (op : Op R) : Option (Room R) :=
  (Client.step c r.session op).map fun a =>
    { r with
      session := a.1
      mine := r.mine ∪ made r.session a.1 op
      toServer := r.toServer ++ a.2.filterMap (wire a.1) }

/-- The answer to `doc-open` advertises the head, and states what is durable. -/
def JoinFrame.advertising (head durable : VersionVector P) : JoinFrame R → JoinFrame R
  | .state f => .state { f with vector := some head, durableVector := some durable }
  | .rows f => .rows { f with vector := some head, durableVector := some durable }

/-- The server takes one message and answers it. -/
def Room.answer (r : Room R) (m : Message R) (a : Answer R) : Option (Room R) :=
  match m, a with
  | .docUpdate u _, .accept =>
    if covers r.head (R.start u) then some { r with head := merge r.head (R.stop u) } else none
  | .docUpdate _ _, .gap => some { r with toClient := r.toClient ++ [.gap r.head] }
  | .docUpdate _ _, .pressure => some { r with toClient := r.toClient ++ [.pressure r.head] }
  | .docOpen _, .join frames =>
    some { r with
      toClient := r.toClient ++ frames.map fun f => .join (f.advertising r.head r.durable) }
  | .docPresence, .nothing => some r
  | _, _ => none

/-- The session learns that its connection is gone; what it carried is never answered. -/
def Room.disconnect (c : Config) (r : Room R) : Room R :=
  { r with session := (disconnected c r.session).1, toServer := [], toClient := [] }

/-- Nothing is left of the last connection that the session was on. -/
def Room.idle (r : Room R) : Bool :=
  !r.up && !r.session.joined && r.session.gate.isEmpty && r.session.pressureTimer.isNone &&
    r.toServer.isEmpty && r.toClient.isEmpty

/-- One event of a room. A restarted server has at least what was durable; it closes every
connection, and is met again after the session was told. -/
def Room.step (c : Config) (r : Room R) : RoomOp R → Option (Room R)
  | .own op => if op.isOwn then r.act c op else none
  | .receive =>
    match r.toClient with
    | [] => none
    | f :: rest => if r.up then { r with toClient := rest }.act c f.op else none
  | .openRoom =>
    if r.up then some { r with toServer := r.toServer ++ [openMessage r.session] } else none
  | .serve a =>
    match r.toServer with
    | [] => none
    | m :: rest => if r.up then { r with toServer := rest }.answer m a else none
  | .others v => some { r with head := merge r.head v }
  | .flush v notify =>
    if covers r.head v then
      let durable := merge r.durable v
      some { r with
        durable := durable
        toClient := if notify && r.up then r.toClient ++ [.durable durable] else r.toClient }
    else none
  | .ack n => if r.up then some { r with toClient := r.toClient ++ [.ack n] } else none
  | .relay u => if r.up then some { r with toClient := r.toClient ++ [.relayed u] } else none
  | .drop => some { r with up := false }
  | .told => if r.up then none else some (r.disconnect c)
  | .reconnect => if r.up then none else some { r.disconnect c with up := true }
  | .restart h =>
    if r.idle && covers h r.durable then some { r with head := h } else none

/-- A browser that opens a project before its connection is up. -/
def Room.opened (R : Replica P) (c : Config) (head durable : VersionVector P) : Room R :=
  ⟨createProjectSession R c, ∅, false, head, durable, [], []⟩

/-- The rooms that a browser reaches; the server starts with a head over its durable log. -/
inductive Room.Reachable (c : Config) : Room R → Prop where
  | opened (head durable : VersionVector P) : covers head durable = true →
      Reachable c (.opened R c head durable)
  | step {r r' : Room R} (op : RoomOp R) : Reachable c r → r.step c op = some r' →
      Reachable c r'

/-- The server refused an update, and the session has not handled the refusal. -/
def Frame.isRefusal : Frame R → Bool
  | .gap _ => true
  | .pressure _ => true
  | _ => false

def Message.isUpdate : Message R → Bool
  | .docUpdate _ _ => true
  | _ => false

/-- An update is in flight from the moment the session hands it to its connection until
the server has accepted it or the session has handled its refusal. What was handed to a
connection that dropped stays unanswered until the session is told. -/
def Room.inFlight (r : Room R) : Bool :=
  r.toServer.any Message.isUpdate || r.toClient.any Frame.isRefusal

/-- The session is joined, as its transport sees it. -/
def Room.joined (r : Room R) : Bool := r.session.joined && !r.session.left

end LibrePaper.Client
