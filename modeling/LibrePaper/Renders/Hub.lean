import LibrePaper.Library.Runs
import LibrePaper.Library.Tables

/-!
# Renders over an assistant channel

A channel joins a browser and an agent. A render call sends the browser a request and waits for the
preview result with the request's id. A result is checked, handed on to the agent where there is
one, and given to the waiting call in sections of the channel's lock; between them other calls get
the lock. A step is one section, with what its caller does before it waits for the lock again.
-/
namespace LibrePaper.Renders
open Library

/-- The status and the text of a refusal. -/
abbrev Refusal := ℕ × String

inductive Role where
  | user
  | agent
deriving DecidableEq

/-- A frame with the fields that the relay reads: a field of another type reads as none. The items
of a list stand as they are written, and `text` is the whole frame as it is written. -/
structure Frame where
  id : Option String
  messageId : Option String
  taskId : Option String
  requestId : Option String
  baseRevision : Option String
  revision : Option String
  ok : Option Bool
  diagnostics : Option (List String)
  text : String
deriving DecidableEq

def maxId : ℕ := 128

def maxContext : ℕ := 16 * 1024

def maxEventText : ℕ := 2 * 1024 * 1024

def maxFrame : ℕ := 2 * maxEventText

def isControl (c : Char) : Bool := c.toNat < 0x20 || (0x7f ≤ c.toNat && c.toNat ≤ 0x9f)

def validId (id : String) : Bool :=
  id ≠ "" && id.utf8ByteSize ≤ maxId && !id.toList.any isControl

def boundedString (field : Option String) : Except Refusal String :=
  match field with
  | none => .error (400, "bounded string is required")
  | some value => if validId value then .ok value else .error (400, "invalid bounded string")

/-- How long a list is, with its brackets and commas. -/
def written (items : List String) : ℕ :=
  2 + (items.map String.utf8ByteSize).sum + (items.length - 1)

def validContext (items : List String) : Bool := written items ≤ maxContext

/-- What a preview result is refused for before the channel is looked at. -/
def checkPreviewResult (role : Role) (frame : Frame) : Except Refusal Unit := do
  let _ ← boundedString frame.taskId
  let _ ← boundedString frame.requestId
  let _ ← boundedString frame.baseRevision
  if role ≠ .user ∨ ¬validId (frame.revision.getD "") ∨ frame.ok = none ∨
      ¬(frame.diagnostics.any validContext) then
    .error (400, "invalid preview result")
  else .ok ()

/-- A channel. A waiter is the number of the render call that waits. -/
structure Channel where
  browser : Option ℕ
  agent : Option ℕ
  agentBinding : Option String
  requests : List (String × String)
  renderWaiters : Finmap fun _ : String => ℕ
  renderResults : Finmap fun _ : String => Frame
  renderExpected : Finmap fun _ : String => String × String

namespace Channel

def peer (ch : Channel) : Role → Option ℕ
  | .user => ch.browser
  | .agent => ch.agent

def other : Role → Role
  | .user => .agent
  | .agent => .user

def attachBound (ch : Channel) (role : Role) (binding : Option String) (socket : ℕ) :
    Except Refusal Channel :=
  if (ch.peer role).isSome then .error (409, "participant is already connected")
  else
    match role with
    | .user => .ok { ch with browser := some socket }
    | .agent =>
      match binding, ch.agentBinding with
      | some binding, some existing =>
        if existing ≠ binding then
          .error (412, "conversation belongs to different runner state; create a new conversation")
        else .ok { ch with agent := some socket }
      | some binding, none =>
        .ok { ch with agent := some socket, agentBinding := some binding }
      | none, _ => .ok { ch with agent := some socket }

def detachBrowser (ch : Channel) (socket : ℕ) : Channel :=
  if ch.browser = some socket then { ch with browser := none, requests := [] } else ch

def detachAgent (ch : Channel) (socket : ℕ) : Channel :=
  if ch.agent = some socket then { ch with agent := none, requests := [] } else ch

def detach (ch : Channel) (socket : ℕ) : Channel := (ch.detachBrowser socket).detachAgent socket

/-- The key that a hash map's order begins with, which may be any. -/
def firstKey {α : Type*} (order : ℕ) (table : Finmap fun _ : String => α) : Option String :=
  (sortedKeys table)[order % (sortedKeys table).length]?

/-- One turn of the loop that keeps the expected renders few. -/
def forgetExpected (order : ℕ) (ch : Channel) : Channel :=
  match firstKey order ch.renderExpected with
  | some oldest =>
    { ch with
      renderExpected := ch.renderExpected.erase oldest
      renderResults := ch.renderResults.erase oldest }
  | none => ch

def trimExpected (order : ℕ → ℕ) : ℕ → Channel → Channel
  | 0, ch => ch
  | n + 1, ch => trimExpected order n (ch.forgetExpected (order n))

/-- One turn of the loop that keeps the cached results few. -/
def forgetResult (order : ℕ) (ch : Channel) : Channel :=
  match firstKey order ch.renderResults with
  | some oldest => { ch with renderResults := ch.renderResults.erase oldest }
  | none => ch

def trimResults (order : ℕ → ℕ) : ℕ → Channel → Channel
  | 0, ch => ch
  | n + 1, ch => trimResults order n (ch.forgetResult (order n))

/-- The channel with a render call that waits. -/
def expect (ch : Channel) (call : ℕ) (id base revision : String) : Channel :=
  { ch with
    renderExpected := ch.renderExpected.insert id (base, revision)
    renderWaiters := ch.renderWaiters.insert id call }

/-- What a render call takes out of the channel or leaves in it. -/
inductive Rendered where
  | cached (result : Frame)
  | waiting

/-- The section of a render call. `accepts` says whether the browser's queue takes the request. -/
def render (ch : Channel) (call : ℕ) (frame : Frame) (accepts : Bool) (order : ℕ → ℕ) :
    Except Refusal (Channel × Rendered) :=
  let id := frame.id.getD ""
  if id = "" ∨ maxId < id.utf8ByteSize then .error (400, "render request id is required")
  else
    match ch.renderResults.lookup id with
    | some result => .ok ({ ch with renderResults := ch.renderResults.erase id }, .cached result)
    | none =>
      if id ∈ ch.renderWaiters then .error (409, "render request is already pending")
      else if ch.browser = none then .error (409, "renderer is not connected")
      else if maxContext < frame.text.utf8ByteSize then
        .error (413, "render request is too large")
      else if ¬accepts then .error (409, "renderer cannot receive render request")
      else
        let ch := ch.expect call id (frame.baseRevision.getD "") (frame.revision.getD "")
        .ok (trimExpected order (ch.renderExpected.keys.card - 64) ch, .waiting)

/-- The section in which a preview result is checked: whether its render is known, and whether
there is an agent. -/
def check (ch : Channel) (socket : ℕ) (frame : Frame) : Except Refusal (Bool × Bool) :=
  let expected := ch.renderExpected.lookup (frame.requestId.getD "")
  if expected.any fun e => frame.baseRevision ≠ some e.1 || frame.revision ≠ some e.2 then
    .error (409, "preview result does not match render request")
  else if ch.browser ≠ some socket then .error (403, "wrong participant")
  else .ok (expected.isSome, ch.agent.isSome)

def eventKey (role : Role) (id : String) : String :=
  (match role with | .user => "user" | .agent => "agent") ++ ":" ++ id

/-- The requests with one more, of which the last 256 are held. -/
def remember (requests : List (String × String)) (request : String × String) :
    List (String × String) :=
  if 256 < (requests ++ [request]).length then (requests ++ [request]).drop 1
  else requests ++ [request]

/-- Hands an event on to the other participant. `limited` says whether the rate limiter refuses,
and `accepts` whether the other one's queue takes the event. -/
def deliver (digest : String → String) (ch : Channel) (role : Role) (socket : ℕ) (frame : Frame)
    (limited accepts : Bool) : Except Refusal (Channel × Option String) :=
  let id := (frame.id <|> frame.messageId).getD ""
  if ¬validId id then .error (400, "event id is required")
  else if maxFrame < frame.text.utf8ByteSize then .error (413, "event is too large")
  else
    match ch.requests.find? fun request => request.1 = eventKey role id with
    | some request =>
      if request.2 = digest frame.text then .ok (ch, some id)
      else .error (409, "event id already used for different content")
    | none =>
      if ch.peer role ≠ some socket then .error (403, "wrong participant")
      else if ch.peer (other role) = none then .error (409, "recipient is not connected")
      else if limited then .error (429, "too many assistant events; try later")
      else if ¬accepts then .error (409, "recipient cannot receive events")
      else
        .ok ({ ch with requests := remember ch.requests (eventKey role id, digest frame.text) },
          some id)

end Channel

/-- Where a render call stands: waiting; out of time, before and after it lets go of its end; or
returned. -/
inductive Phase where
  | waiting
  | elapsed
  | late
  | answered (result : Frame)
  | refused (why : Refusal)
deriving DecidableEq

structure Call where
  id : String
  base : String
  revision : String
  phase : Phase
deriving DecidableEq

/-- Where the relay of a preview result stands. -/
inductive Stage where
  | delivering
  | settling (reply : Option String)
  | storing (reply : Option String)
  | done (reply : Except Refusal (Option String))
deriving DecidableEq

structure Relay where
  socket : ℕ
  frame : Frame
  known : Bool
  stage : Stage
deriving DecidableEq

/-- A channel with the calls and relays that use it, and what its attached browsers have sent. -/
structure Hub where
  channel : Channel
  calls : ℕ → Option Call
  relays : ℕ → Option Relay
  heard : List Frame

inductive Op where
  | attach (role : Role) (binding : Option String) (socket : ℕ)
  | detach (socket : ℕ)
  | event (role : Role) (socket : ℕ) (frame : Frame) (limited accepts : Bool)
  | render (call : ℕ) (frame : Frame) (accepts : Bool) (order : ℕ → ℕ)
  | expire (call : ℕ)
  | close (call : ℕ)
  | giveUp (call : ℕ)
  | result (relay : ℕ) (role : Role) (socket : ℕ) (frame : Frame)
  | deliver (relay : ℕ) (limited accepts : Bool)
  | settle (relay : ℕ)
  | store (relay : ℕ) (order : ℕ → ℕ)

namespace Hub

def setCall (s : Hub) (c : ℕ) (call : Call) : Hub :=
  { s with calls := Function.update s.calls c (some call) }

def setRelay (s : Hub) (r : ℕ) (relay : Relay) : Hub :=
  { s with relays := Function.update s.relays r (some relay) }

def setChannel (s : Hub) (ch : Channel) : Hub := { s with channel := ch }

def render (s : Hub) (c : ℕ) (frame : Frame) (accepts : Bool) (order : ℕ → ℕ) : Hub :=
  let call : Phase → Call :=
    fun phase => ⟨frame.id.getD "", frame.baseRevision.getD "", frame.revision.getD "", phase⟩
  match s.channel.render c frame accepts order with
  | .error why => s.setCall c (call (.refused why))
  | .ok (ch, .cached result) => (s.setChannel ch).setCall c (call (.answered result))
  | .ok (ch, .waiting) => (s.setChannel ch).setCall c (call .waiting)

/-- The sender of a waiter is dropped, and a call that waits is told. -/
def dropSender (s : Hub) (c : ℕ) : Hub :=
  match s.calls c with
  | some call =>
    if call.phase = .waiting then
      s.setCall c { call with phase := .refused (409, "renderer disconnected before completing") }
    else s
  | none => s

/-- A call that is out of time takes out the waiter under its id. -/
def giveUp (s : Hub) (c : ℕ) (call : Call) : Hub :=
  let s' := (s.setChannel { s.channel with
    renderWaiters := s.channel.renderWaiters.erase call.id }).setCall c
      { call with phase := .refused (504, "renderer timed out") }
  match s.channel.renderWaiters.lookup call.id with
  | some waiter => s'.dropSender waiter
  | none => s'

/-- The relay of a preview result up to the end of its first section. -/
def result (s : Hub) (r : ℕ) (role : Role) (socket : ℕ) (frame : Frame) : Hub :=
  let s := if role = .user ∧ s.channel.browser = some socket
    then { s with heard := frame :: s.heard } else s
  match checkPreviewResult role frame with
  | .error why => s.setRelay r ⟨socket, frame, false, .done (.error why)⟩
  | .ok () =>
    match s.channel.check socket frame with
    | .error why => s.setRelay r ⟨socket, frame, false, .done (.error why)⟩
    | .ok (known, true) => s.setRelay r ⟨socket, frame, known, .delivering⟩
    | .ok (true, false) => s.setRelay r ⟨socket, frame, true, .settling frame.id⟩
    | .ok (false, false) =>
      s.setRelay r ⟨socket, frame, false, .done (.error (409, "render request is not known"))⟩

def deliver (digest : String → String) (s : Hub) (r : ℕ) (relay : Relay)
    (limited accepts : Bool) : Hub :=
  match s.channel.deliver digest .user relay.socket relay.frame limited accepts with
  | .error why => s.setRelay r { relay with stage := .done (.error why) }
  | .ok (ch, reply) =>
    (s.setChannel ch).setRelay r
      { relay with stage := if relay.known then .settling reply else .done (.ok reply) }

/-- Takes out the waiter of a known result and sends it the result. A call that is out of time but
has not let go of its end takes the result and loses it. -/
def settle (s : Hub) (r : ℕ) (relay : Relay) (reply : Option String) : Hub :=
  let id := relay.frame.requestId.getD ""
  let s' := s.setChannel { s.channel with renderWaiters := s.channel.renderWaiters.erase id }
  match (s.channel.renderWaiters.lookup id).bind fun c => (s.calls c).map fun call => (c, call) with
  | some (c, call) =>
    match call.phase with
    | .waiting =>
      (s'.setCall c { call with phase := .answered relay.frame }).setRelay r
        { relay with stage := .done (.ok reply) }
    | .elapsed => s'.setRelay r { relay with stage := .done (.ok reply) }
    | _ => s'.setRelay r { relay with stage := .storing reply }
  | none => s'.setRelay r { relay with stage := .storing reply }

def store (s : Hub) (r : ℕ) (relay : Relay) (reply : Option String) (order : ℕ → ℕ) : Hub :=
  let ch := { s.channel with
    renderResults := s.channel.renderResults.insert (relay.frame.requestId.getD "") relay.frame }
  (s.setChannel (Channel.trimResults order (ch.renderResults.keys.card - 32) ch)).setRelay r
    { relay with stage := .done (.ok reply) }

def step (digest : String → String) (s : Hub) : Op → Option Hub
  | .attach role binding socket =>
    match s.channel.attachBound role binding socket with
    | .ok ch => some (s.setChannel ch)
    | .error _ => some s
  | .detach socket => some (s.setChannel (s.channel.detach socket))
  | .event role socket frame limited accepts =>
    match s.channel.deliver digest role socket frame limited accepts with
    | .ok (ch, _) => some (s.setChannel ch)
    | .error _ => some s
  | .render c frame accepts order =>
    if s.calls c = none then some (s.render c frame accepts order) else none
  | .expire c =>
    match s.calls c with
    | some call =>
      if call.phase = .waiting then some (s.setCall c { call with phase := .elapsed }) else none
    | none => none
  | .close c =>
    match s.calls c with
    | some call =>
      if call.phase = .elapsed then some (s.setCall c { call with phase := .late }) else none
    | none => none
  | .giveUp c =>
    match s.calls c with
    | some call => if call.phase = .late then some (s.giveUp c call) else none
    | none => none
  | .result r role socket frame =>
    if s.relays r = none then some (s.result r role socket frame) else none
  | .deliver r limited accepts =>
    match s.relays r with
    | some relay =>
      if relay.stage = .delivering then some (s.deliver digest r relay limited accepts) else none
    | none => none
  | .settle r =>
    match s.relays r with
    | some relay =>
      match relay.stage with
      | .settling reply => some (s.settle r relay reply)
      | _ => none
    | none => none
  | .store r order =>
    match s.relays r with
    | some relay =>
      match relay.stage with
      | .storing reply => some (s.store r relay reply order)
      | _ => none
    | none => none

/-- A channel as it is made. -/
def empty : Hub := ⟨⟨none, none, none, [], ∅, ∅, ∅⟩, fun _ => none, fun _ => none, []⟩

end Hub
end LibrePaper.Renders
