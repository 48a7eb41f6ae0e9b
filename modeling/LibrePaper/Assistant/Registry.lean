import LibrePaper.Library.Runs
import LibrePaper.Library.Tables

/-!
# The assistant's session registry

Sessions are tasks of one process, and a table says which key is running which of them. Calls take
the table's lock for one look or one change at a time and wait for tasks in between. A step is
what a call does up to its next wait or its next use of the lock.
-/
namespace LibrePaper.Assistant
open Library

inductive RunnerState where
  | starting
  | ready
  | connecting
  | working
  | needsInput
  | stopped
  | failed
deriving DecidableEq

structure StatusSnapshot where
  state : Option RunnerState
  taskId : Option String
  detail : Option String
deriving DecidableEq

/-- What a task's handle says when the task is over. -/
inductive Outcome where
  | ok
  | err (detail : String)
  | join (error : String)
deriving DecidableEq

/-- The terminal status of a session that ended. -/
def Outcome.snapshot : Outcome → StatusSnapshot
  | .ok => ⟨some .stopped, none, none⟩
  | .err detail => ⟨some .failed, none, some detail⟩
  | .join error =>
    ⟨some .failed, none, some ("the assistant session ended unexpectedly: " ++ error)⟩

inductive Phase where
  | running
  | aborting
  | ended (outcome : Outcome)
deriving DecidableEq

/-- A session's task, with the status that it shares with the registry. -/
structure Task where
  key : String
  status : StatusSnapshot
  phase : Phase
deriving DecidableEq

/-- The handle of the task is finished with this. -/
def Task.outcome (t : Task) : Option Outcome :=
  match t.phase with
  | .ended o => some o
  | _ => none

/-- Aborts a task that has not ended. -/
def Task.abort (t : Task) : Task := if t.outcome = none then { t with phase := .aborting } else t

inductive Entry where
  | running (configHash : String) (origin : Option String) (session : ℕ)
  | terminal (snapshot : StatusSnapshot)
deriving DecidableEq

/-- What a start asks for: the key of its conversation, the normalized origin of its site and the
hash of its configuration. -/
structure Request where
  key : String
  requester : String
  wanted : String
deriving DecidableEq

/-- What comes after a reap. -/
inductive Next where
  | check (request : Request)
  | remove (request : Option Request)
  | settle (left : ℕ)
  | report
  | list (rest : List String)
deriving DecidableEq

inductive Answer where
  | ok
  | error (text : String)
  | status (snapshot : Option StatusSnapshot)
  | sessions (rows : List (String × StatusSnapshot))
deriving DecidableEq

/-- Where a call stands. -/
inductive Call where
  | gate (request : Request)
  | gateStop (key : String)
  | reap (key : String) (next : Next)
  | joining (key : String) (session : ℕ) (next : Next)
  | reaped (key : String) (next : Next)
  | stopping (key : String) (session : ℕ) (request : Option Request)
  | opening (request : Request)
  | validating (request : Request)
  | done (answer : Answer)
deriving DecidableEq

structure Registry where
  sessions : Finmap fun _ : String => Entry
  tasks : ℕ → Option Task
  spawned : ℕ
  gate : Option ℕ
  calls : ℕ → Option Call

inductive Op where
  | start (call : ℕ) (request : Request)
  | stop (call : ℕ) (key : String)
  | status (call : ℕ) (key : String)
  | dashboard (call : ℕ)
  | advance (call : ℕ)
  | answer (call : ℕ) (result : Except String Unit)
  | report (session : ℕ) (snapshot : StatusSnapshot)
  | finish (session : ℕ) (outcome : Outcome) (early : Bool)

/-- How often a start looks for its session to settle. -/
def polls : ℕ := 750

def notRunning : String := "no assistant session is running"

/-- Only the site that started a session may use it. -/
def ensureOriginOwner (owner : Option String) (requester : String) : Except String Unit :=
  match owner with
  | none => .error "the running assistant session has no owning site; stop and restart it"
  | some owner =>
    if owner = requester then .ok ()
    else .error "the assistant session is already owned by another site"

/-- What a waiting start makes of a look at its key. -/
inductive Settled where
  | ready
  | failed (text : String)
  | disappeared
  | pending
deriving DecidableEq

def settled : Option StatusSnapshot → Settled
  | none => .disappeared
  | some snapshot =>
    match snapshot.state with
    | some .ready | some .working | some .needsInput => .ready
    | some .failed | some .stopped =>
      .failed (snapshot.detail.getD "the assistant session stopped")
    | _ => .pending

namespace Registry

def setCall (s : Registry) (c : ℕ) (call : Call) : Registry :=
  { s with calls := Function.update s.calls c (some call) }

def updateTask (s : Registry) (i : ℕ) (f : Task → Task) : Registry :=
  { s with tasks := Function.update s.tasks i ((s.tasks i).map f) }

/-- The call answers, and the gate is open again. -/
def leave (s : Registry) (c : ℕ) (answer : Answer) : Registry :=
  { s.setCall c (.done answer) with gate := none }

/-- What a look at a key sees. -/
def snapshot (s : Registry) (key : String) : Option StatusSnapshot :=
  match s.sessions.lookup key with
  | some (.running _ _ session) => some (((s.tasks session).map Task.status).getD ⟨none, none, none⟩)
  | some (.terminal snapshot) => some snapshot
  | none => none

def rows (s : Registry) : List (String × StatusSnapshot) :=
  (sortedKeys s.sessions).filterMap fun key => (s.snapshot key).map fun status => (key, status)

/-- How the task of a key's running entry ended. -/
def finished (s : Registry) (key : String) : Option ℕ :=
  match s.sessions.lookup key with
  | some (.running _ _ session) =>
    if ((s.tasks session).bind Task.outcome).isSome then some session else none
  | _ => none

/-- The first part of a reap takes a finished entry out. -/
def takeOut (s : Registry) (c : ℕ) (key : String) (next : Next) : Registry :=
  match s.finished key with
  | some session =>
    { s.setCall c (.joining key session next) with sessions := s.sessions.erase key }
  | none => s.setCall c (.reaped key next)

/-- The second part writes how its task ended. -/
def writeBack (s : Registry) (c : ℕ) (key : String) (session : ℕ) (next : Next) :
    Option Registry :=
  ((s.tasks session).bind Task.outcome).map fun outcome =>
    { s.setCall c (.reaped key next) with
      sessions := s.sessions.insert key (.terminal outcome.snapshot) }

/-- A start looks at what is running. -/
def check (s : Registry) (c : ℕ) (r : Request) : Registry :=
  match s.sessions.lookup r.key with
  | some (.running hash origin _) =>
    match ensureOriginOwner origin r.requester with
    | .error text => s.leave c (.error text)
    | .ok () =>
      if hash = r.wanted then s.setCall c (.validating r)
      else s.setCall c (.reap r.key (.remove (some r)))
  | _ => s.setCall c (.opening r)

/-- A stop takes the entry out and aborts its task. -/
def remove (s : Registry) (c : ℕ) (key : String) (r : Option Request) : Registry :=
  let s' := { s with sessions := s.sessions.erase key }
  match s.sessions.lookup key with
  | some (.running _ _ session) =>
    (s'.updateTask session Task.abort).setCall c (.stopping key session r)
  | _ => s'.leave c (.error notRunning)

def settle (s : Registry) (c : ℕ) (key : String) (left : ℕ) : Registry :=
  match settled (s.snapshot key) with
  | .ready => s.setCall c (.done .ok)
  | .failed text => s.setCall c (.done (.error text))
  | .disappeared => s.setCall c (.done (.error "assistant session disappeared while starting"))
  | .pending =>
    if left ≤ 1 then
      s.setCall c (.done (.error "the assistant did not become ready within 75 seconds"))
    else s.setCall c (.reap key (.settle (left - 1)))

def list (s : Registry) (c : ℕ) : List String → Registry
  | [] => s.setCall c (.done (.sessions s.rows))
  | key :: rest => s.setCall c (.reap key (.list rest))

def resume (s : Registry) (c : ℕ) (key : String) : Next → Registry
  | .check r => s.check c r
  | .remove r => s.remove c key r
  | .settle left => s.settle c key left
  | .report => s.setCall c (.done (.status (s.snapshot key)))
  | .list rest => s.list c rest

/-- Aborts the task that a key holds. -/
def abortAt (s : Registry) (key : String) : Registry :=
  match s.sessions.lookup key with
  | some (.running _ _ session) => s.updateTask session Task.abort
  | _ => s

/-- The new session replaces what its key held. -/
def spawnRunning (s : Registry) (c : ℕ) (r : Request) : Registry :=
  { s with
    sessions := s.sessions.insert r.key (.running r.wanted (some r.requester) s.spawned)
    tasks := Function.update (s.abortAt r.key).tasks s.spawned
      (some ⟨r.key, ⟨none, none, none⟩, .running⟩)
    spawned := s.spawned + 1
    gate := none
    calls := Function.update s.calls c (some (.reap r.key (.settle polls))) }

/-- A call's next step, if it does not have to wait. -/
def advance (s : Registry) (c : ℕ) : Option Registry :=
  match s.calls c with
  | some (.gate r) =>
    if s.gate = none then some { s.setCall c (.reap r.key (.check r)) with gate := some c } else none
  | some (.gateStop key) =>
    if s.gate = none then some { s.setCall c (.reap key (.remove none)) with gate := some c }
    else none
  | some (.reap key next) => some (s.takeOut c key next)
  | some (.joining key session next) => s.writeBack c key session next
  | some (.reaped key next) => some (s.resume c key next)
  | some (.stopping _ session r) =>
    if ((s.tasks session).bind Task.outcome).isSome then
      some (match r with
        | some r => s.setCall c (.opening r)
        | none => s.leave c .ok)
    else none
  | _ => none

/-- A start goes on with the server's answer to its token. -/
def answer (s : Registry) (c : ℕ) (result : Except String Unit) : Option Registry :=
  match s.calls c, result with
  | some (.opening _), .error text => some (s.leave c (.error text))
  | some (.opening r), .ok () => some (s.spawnRunning c r)
  | some (.validating _), .error text => some (s.leave c (.error text))
  | some (.validating r), .ok () =>
    match s.sessions.lookup r.key with
    | some (.running _ origin _) =>
      match ensureOriginOwner origin r.requester with
      | .error text => some (s.leave c (.error text))
      | .ok () => some { s.setCall c (.reap r.key (.settle polls)) with gate := none }
    | _ => some (s.leave c
        (.error "the assistant is not running; start it again from the document"))
  | _, _ => none

/-- A session says its state as it runs. -/
def report (s : Registry) (i : ℕ) (snapshot : StatusSnapshot) : Option Registry :=
  if ((s.tasks i).map Task.outcome) = some none ∧ snapshot.state ≠ some .stopped ∧
      snapshot.state ≠ some .failed then
    some (s.updateTask i fun t => { t with status := snapshot })
  else none

/-- A session's task ends. One that fails early, or that does not return, leaves its status. -/
def finish (s : Registry) (i : ℕ) (outcome : Outcome) (early : Bool) : Option Registry :=
  if ((s.tasks i).map Task.outcome) = some none then
    some (s.updateTask i fun t =>
      { t with
        phase := .ended outcome
        status := match outcome with
          | .ok => ⟨some .stopped, none, none⟩
          | .err detail => if early then t.status else ⟨some .failed, none, some detail⟩
          | .join _ => t.status })
  else none

/-- A new call. -/
def begin (s : Registry) (c : ℕ) (call : Call) : Option Registry :=
  if s.calls c = none then some (s.setCall c call) else none

def step (s : Registry) : Op → Option Registry
  | .start c r => s.begin c (.gate r)
  | .stop c key => s.begin c (.gateStop key)
  | .status c key => s.begin c (.reap key .report)
  | .dashboard c => s.begin c (.reaped "" (.list (sortedKeys s.sessions)))
  | .advance c => s.advance c
  | .answer c result => s.answer c result
  | .report i snapshot => s.report i snapshot
  | .finish i outcome early => s.finish i outcome early

def empty : Registry := ⟨∅, fun _ => none, 0, none, fun _ => none⟩

end Registry
end LibrePaper.Assistant
