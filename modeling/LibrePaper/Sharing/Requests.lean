import LibrePaper.Sharing.Links
import LibrePaper.Library.Runs

/-!
# Share requests in flight

A request plans from one read of the links, edits the copy of a second read, and writes the copy back
in a third transaction. Requests interleave, and each may be refused or fail at any point.
-/
namespace LibrePaper.Sharing
open Library

/-- What a request that is answered changed. -/
inductive Change where
  | share (request : Request)
  | setGrant (account : ℕ) (role : String)
  | removeGrant (account : ℕ)
  | pinLinkGuest (account : ℕ) (source : String)
deriving DecidableEq

/-- Where a request stands. One that saves holds the links that it read and the time then. -/
inductive Call where
  | planning (request : Request)
  | editing (request : Request) (planned : Edit)
  | saving (request : Request) (planned : Edit) (seen : List LinkGrant) (now : ℤ)
  | done
deriving DecidableEq

/-- The log has the changes that were acknowledged, with the time that each went by. -/
structure System where
  stored : Stored
  now : ℤ
  calls : ℕ → Option Call
  log : List (ℤ × Change)

inductive Op where
  | tick (seconds : ℕ)
  | share (call : ℕ) (request : Request)
  | mintReadLink (call : ℕ) (link : LinkGrant)
  | advance (call : ℕ)
  | save (call : ℕ) (lost : Bool)
  | fail (call : ℕ)
  | grant (change : Change)
deriving DecidableEq

/-- A change made by itself, with nothing else in flight. -/
def Change.perform (now : ℤ) : Change → Stored → Stored
  | .share r, s =>
    match (plan s.live r).bind (edit s.live) with
    | some links => s.save links (liveHashes links now)
    | none => s
  | .setGrant account role, s => s.setGrant account role
  | .removeGrant account, s => s.removeGrant account
  | .pinLinkGuest account source, s => s.pinLinkGuest account source now

namespace System

def setCall (s : System) (c : ℕ) (call : Call) : System :=
  { s with calls := Function.update s.calls c (some call) }

/-- A read of a request, with what it decides on it. -/
def advance (s : System) (c : ℕ) : Option System :=
  match s.calls c with
  | some (.planning r) =>
    some (s.setCall c (match plan s.stored.live r with
      | some e => .editing r e
      | none => .done))
  | some (.editing r e) =>
    some (s.setCall c (match edit s.stored.live e with
      | some _ => .saving r e s.stored.live s.now
      | none => .done))
  | _ => none

/-- Writes the copy back. The answer may be lost, and then the request is not acknowledged. -/
def save (s : System) (c : ℕ) (lost : Bool) : Option System :=
  match s.calls c with
  | some (.saving r e seen now) =>
    (edit seen e).map fun links =>
      { s.setCall c .done with
        stored := s.stored.save links (liveHashes links now)
        log := if lost then s.log else s.log ++ [(now, .share r)] }
  | _ => none

def step (s : System) : Op → Option System
  | .tick seconds => some { s with now := s.now + seconds }
  | .share c r => if s.calls c = none then some (s.setCall c (.planning r)) else none
  | .mintReadLink c link =>
    if s.calls c = none then some (s.setCall c (.editing (.create link) (.add link))) else none
  | .advance c => s.advance c
  | .save c lost => s.save c lost
  | .fail c => if s.calls c = none then none else some (s.setCall c .done)
  | .grant change =>
    match change with
    | .share _ => none
    | change =>
      some { s with stored := change.perform s.now s.stored, log := s.log ++ [(s.now, change)] }

/-- A deployment with nothing in flight. -/
def start (stored : Stored) (now : ℤ) : System := ⟨stored, now, fun _ => none, []⟩

end System
end LibrePaper.Sharing
