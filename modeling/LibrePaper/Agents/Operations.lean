import LibrePaper.Library.Runs

/-!
# Operations of an agent

An agent's request carries a key. The first call that stores the key's admission runs the operation,
and every later call with that key is turned away. A change commits in one transaction with the
outcome that is kept for it, a private proposal is stored as a candidate, and a definite refusal is
recorded by a transaction of its own. Every read and every write is a step, and a call may stop at
any of them.
-/
namespace LibrePaper.Agents
open Library

/-- A key holds until its epoch expires. -/
structure OperationKey where
  expiry : ℕ
  id : ℕ
deriving DecidableEq

inductive Tool where
  | propose
  | apply
  | files
  | comment
deriving DecidableEq

inductive Publish where
  | suggestions
  | privateOnly
deriving DecidableEq

/-- What an admission keeps of the arguments. -/
structure Context where
  publish : Publish
  label : Bool
deriving DecidableEq

structure Request where
  key : OperationKey
  tool : Tool
  digest : ℕ
  context : Context
  compile : Bool
  viewExpiry : ℕ
deriving DecidableEq

/-- The command leaves a retry record among the document's labels. -/
def Request.labelled (r : Request) : Bool :=
  match r.tool with
  | .comment => r.context.label
  | _ => true

structure Admission where
  digest : ℕ
  tool : Tool
  context : Context
deriving DecidableEq

/-- A proposal that is stored, under its key and digest. -/
structure Candidate where
  operation : OperationKey
  digest : ℕ
  publish : Publish
  compile : Bool
  expiresAt : ℕ
deriving DecidableEq

inductive Status where
  | committed
  | refused
deriving DecidableEq

/-- An outcome that is kept for recovery. -/
structure Outcome where
  key : OperationKey
  digest : ℕ
  tool : Tool
  status : Status
  expiresAt : ℕ
deriving DecidableEq

def Request.outcome (r : Request) (status : Status) (expiresAt : ℕ) : Outcome :=
  ⟨r.key, r.digest, r.tool, status, expiresAt⟩

def recoveryCapacity : ℕ := 4096

/-- The row is added once the expired ones are deleted, if there is room and its key is free. -/
def recordOperationOutcome (rows : List Outcome) (now : ℕ) (row : Outcome) :
    Option (List Outcome) :=
  let live := rows.filter (now < ·.expiresAt)
  if recoveryCapacity ≤ live.length then none
  else if live.any (·.key = row.key) = true then none
  else some (live ++ [row])

/-- Where a call stands. It may have failed with a definite refusal, and then own the admission
that its refusal is recorded for, with no private candidate to claim it. -/
inductive Phase where
  | arrived
  | checked
  | admitted
  | staged
  | transacting (retain : ℕ)
  | failed
  | owning
  | unclaimed
  | recording (retain : ℕ)
  | ended
deriving DecidableEq

/-- A label whose reply is lost is taken for a conflict. -/
def Request.replyPhase (r : Request) (replied : Bool) : Phase :=
  if replied = false ∧ r.tool = .comment ∧ r.context.label = true then .failed else .ended

/-- A call, or a finishing of its candidate. -/
structure Call where
  request : Request
  finishing : Bool
  phase : Phase
deriving DecidableEq

inductive LookupPhase where
  | receipt
  | candidate
  | ended
deriving DecidableEq

/-- A result lookup with the admission that it has read, and for an item of a batch with the digest
that the batch expects. -/
structure Lookup where
  key : OperationKey
  expected : Option ℕ
  admission : Admission
  phase : LookupPhase
deriving DecidableEq

structure Answer where
  key : OperationKey
  expected : Option ℕ
  digest : ℕ
  tool : Tool
  status : Status
deriving DecidableEq

/-- A document's operations. Nothing reads `effects`, `refusals` and `answers`: the keys whose
effect was committed, the keys that a refusal was recorded for, and what lookups answered. -/
structure System where
  now : ℕ
  admissions : OperationKey → Option Admission
  candidates : OperationKey → ℕ → Option Candidate
  labels : List OperationKey
  outcomes : List Outcome
  calls : ℕ → Option Call
  lookups : ℕ → Option Lookup
  effects : List OperationKey
  refusals : List OperationKey
  answers : List Answer

inductive Op where
  | call (c : ℕ) (request : Request)
  | deny (c : ℕ)
  | check (c : ℕ)
  | admission (c : ℕ) (replied : Bool)
  | stage (c : ℕ)
  | receipt (c : ℕ)
  | commit (c : ℕ) (replied : Bool)
  | refuse (c : ℕ)
  | loadAdmission (c : ℕ)
  | loadCandidate (c : ℕ) (readable : Bool)
  | record (c : ℕ)
  | finish (c : ℕ) (key : OperationKey) (digest : ℕ)
  | drop (c : ℕ)
  | lookup (l : ℕ) (key : OperationKey) (expected : Option ℕ)
  | readReceipt (l : ℕ)
  | readCandidate (l : ℕ) (verified : Bool)
  | tick
  | purge
deriving DecidableEq

namespace System

def setCall (s : System) (c : ℕ) (x : Call) : System :=
  { s with calls := Function.update s.calls c (some x) }

def setLookup (s : System) (l : ℕ) (x : Lookup) : System :=
  { s with lookups := Function.update s.lookups l (some x) }

/-- An admission is loaded until its key expires. -/
def loadedAdmission (s : System) (key : OperationKey) : Option Admission :=
  if s.now < key.expiry then s.admissions key else none

def loadedCandidate (s : System) (key : OperationKey) (digest : ℕ) : Option Candidate :=
  (s.candidates key digest).filter (s.now < ·.expiresAt)

def call (s : System) (c : ℕ) (request : Request) : Option System :=
  if s.calls c = none then some (s.setCall c ⟨request, false, .arrived⟩) else none

/-- Access is refused before anything else is read. -/
def deny (s : System) (c : ℕ) : Option System :=
  match s.calls c with
  | some ⟨request, finishing, .arrived⟩ => some (s.setCall c ⟨request, finishing, .failed⟩)
  | _ => none

/-- A key that was admitted is turned away. -/
def mcpRefuseIfAdmitted (s : System) (c : ℕ) : Option System :=
  match s.calls c with
  | some ⟨request, finishing, .arrived⟩ =>
    let phase := if s.loadedAdmission request.key = none then .checked else .ended
    some (s.setCall c ⟨request, finishing, phase⟩)
  | _ => none

/-- The admission is stored once. Its reply may be lost. -/
def mcpAdmit (s : System) (c : ℕ) (replied : Bool) : Option System :=
  match s.calls c with
  | some ⟨request, finishing, .checked⟩ =>
    if s.now < request.key.expiry ∧ s.admissions request.key = none then
      let phase := if replied = true then .admitted else .ended
      some { s.setCall c ⟨request, finishing, phase⟩ with
        admissions := Function.update s.admissions request.key
          (some ⟨request.digest, request.tool, request.context⟩) }
    else some (s.setCall c ⟨request, finishing, .ended⟩)
  | _ => none

/-- A proposal is stored, and a private one is done with that. -/
def stage (s : System) (c : ℕ) : Option System :=
  match s.calls c with
  | some ⟨request, finishing, .admitted⟩ =>
    if request.tool = .propose then
      if s.now < request.viewExpiry ∧ s.candidates request.key request.digest = none then
        some { s.setCall c ⟨request, finishing, .staged⟩ with
          candidates := Function.update s.candidates request.key
            (Function.update (s.candidates request.key) request.digest
              (some ⟨request.key, request.digest, request.context.publish, request.compile,
                request.viewExpiry⟩))
          effects := if request.context.publish = .privateOnly then request.key :: s.effects
            else s.effects }
      else some (s.setCall c ⟨request, finishing, .ended⟩)
    else none
  | _ => none

/-- The receipt of a command says how long its outcome is kept. -/
def mcpOperationReceipt (s : System) (c : ℕ) : Option System :=
  match s.calls c with
  | some ⟨request, finishing, .admitted⟩ =>
    if request.tool ≠ .propose then
      some (s.setCall c ⟨request, finishing, .transacting (request.key.expiry - s.now)⟩)
    else none
  | some ⟨request, finishing, .staged⟩ =>
    if request.context.publish = .suggestions then
      some (s.setCall c ⟨request, finishing, .transacting (request.key.expiry - s.now)⟩)
    else none
  | some ⟨request, finishing, .unclaimed⟩ =>
    some (s.setCall c ⟨request, finishing, .recording (request.key.expiry - s.now)⟩)
  | _ => none

/-- The command's retry record. -/
def insertLabel (s : System) (request : Request) : List OperationKey :=
  if request.labelled = true then request.key :: s.labels else s.labels

/-- The effect, its retry record and its outcome commit together. -/
def commit (s : System) (c : ℕ) (replied : Bool) : Option System :=
  match s.calls c with
  | some ⟨request, finishing, .transacting retain⟩ =>
    if request.labelled = true ∧ request.key ∈ s.labels then
      some (s.setCall c ⟨request, finishing, .ended⟩)
    else
      match recordOperationOutcome s.outcomes s.now
        (request.outcome .committed (s.now + retain)) with
      | none => some (s.setCall c ⟨request, finishing, .failed⟩)
      | some outcomes =>
        some { s.setCall c ⟨request, finishing, request.replyPhase replied⟩ with
          outcomes := outcomes
          labels := s.insertLabel request
          effects := request.key :: s.effects }
  | _ => none

/-- The operation is refused for certain: by a check of its own, or before its transaction. -/
def refuse (s : System) (c : ℕ) : Option System :=
  match s.calls c with
  | some ⟨request, finishing, .admitted⟩ | some ⟨request, finishing, .staged⟩
  | some ⟨request, finishing, .transacting _⟩ => some (s.setCall c ⟨request, finishing, .failed⟩)
  | _ => none

/-- A refusal is recorded under an admission of the same request. The finishing of a candidate
records none. -/
def loadAdmission (s : System) (c : ℕ) : Option System :=
  match s.calls c with
  | some ⟨request, false, .failed⟩ =>
    let owned := (s.loadedAdmission request.key).any fun a =>
      a.tool = request.tool ∧ a.digest = request.digest
    some (s.setCall c ⟨request, false, if owned = true then .owning else .ended⟩)
  | _ => none

def hasPrivateCandidate (s : System) (request : Request) : Bool :=
  (s.loadedCandidate request.key request.digest).any (·.publish = .privateOnly)

/-- A private candidate that is there is left as it is. One that cannot be read is not seen. -/
def loadCandidate (s : System) (c : ℕ) (readable : Bool) : Option System :=
  match s.calls c with
  | some ⟨request, finishing, .owning⟩ =>
    if request.tool = .propose ∧ readable = true ∧ s.hasPrivateCandidate request = true then
      some (s.setCall c ⟨request, finishing, .ended⟩)
    else some (s.setCall c ⟨request, finishing, .unclaimed⟩)
  | _ => none

/-- A refusal is stored unless the key has an outcome. -/
def storeOperationRefusal (s : System) (c : ℕ) : Option System :=
  match s.calls c with
  | some ⟨request, finishing, .recording retain⟩ =>
    if s.outcomes.any (·.key = request.key) = true then
      some (s.setCall c ⟨request, finishing, .ended⟩)
    else match recordOperationOutcome s.outcomes s.now
        (request.outcome .refused (s.now + retain)) with
      | none => some (s.setCall c ⟨request, finishing, .ended⟩)
      | some outcomes => some { s.setCall c ⟨request, finishing, .ended⟩ with
          outcomes := outcomes, refusals := request.key :: s.refusals }
  | _ => none

/-- A candidate's render is asked for again, which goes on from the stored candidate. -/
def finish (s : System) (c : ℕ) (key : OperationKey) (digest : ℕ) : Option System :=
  match s.calls c, s.loadedCandidate key digest with
  | none, some candidate => some (s.setCall c
      ⟨⟨candidate.operation, .propose, candidate.digest, ⟨candidate.publish, false⟩,
        candidate.compile, candidate.expiresAt⟩, true, .staged⟩)
  | _, _ => none

def lookup (s : System) (l : ℕ) (key : OperationKey) (expected : Option ℕ) : Option System :=
  match s.lookups l, s.loadedAdmission key with
  | none, some a =>
    if expected.all (fun d => a.digest = d ∧ a.tool = .propose) = true then
      some (s.setLookup l ⟨key, expected, a, .receipt⟩)
    else some (s.setLookup l ⟨key, expected, a, .ended⟩)
  | _, _ => none

/-- The kept outcome answers if it was recorded for the request that was admitted. -/
def readReceipt (s : System) (l : ℕ) : Option System :=
  match s.lookups l with
  | some ⟨key, expected, a, .receipt⟩ =>
    match s.outcomes.find? (fun row => row.key = key ∧ s.now < row.expiresAt) with
    | some row =>
      if row.digest = a.digest ∧ row.tool = a.tool then
        some { s.setLookup l ⟨key, expected, a, .ended⟩ with
          answers := ⟨key, expected, row.digest, row.tool, row.status⟩ :: s.answers }
      else some (s.setLookup l ⟨key, expected, a, .ended⟩)
    | none =>
      let phase := if a.tool = .propose ∧ a.context.publish = .privateOnly then .candidate
        else .ended
      some (s.setLookup l ⟨key, expected, a, phase⟩)
  | _ => none

/-- A private candidate answers for its operation, once its render is verified if it has one. -/
def mcpRecoverPrivateCandidate (s : System) (l : ℕ) (verified : Bool) : Option System :=
  match s.lookups l with
  | some ⟨key, expected, a, .candidate⟩ =>
    match s.loadedCandidate key a.digest with
    | some candidate =>
      if candidate.compile = true ∧ verified = false then
        some (s.setLookup l ⟨key, expected, a, .ended⟩)
      else some { s.setLookup l ⟨key, expected, a, .ended⟩ with
        answers := ⟨key, expected, candidate.digest, a.tool, .committed⟩ :: s.answers }
    | none => some (s.setLookup l ⟨key, expected, a, .ended⟩)
  | _ => none

def step (s : System) : Op → Option System
  | .call c request => s.call c request
  | .deny c => s.deny c
  | .check c => s.mcpRefuseIfAdmitted c
  | .admission c replied => s.mcpAdmit c replied
  | .stage c => s.stage c
  | .receipt c => s.mcpOperationReceipt c
  | .commit c replied => s.commit c replied
  | .refuse c => s.refuse c
  | .loadAdmission c => s.loadAdmission c
  | .loadCandidate c readable => s.loadCandidate c readable
  | .record c => s.storeOperationRefusal c
  | .finish c key digest => s.finish c key digest
  | .drop c => some { s with calls := Function.update s.calls c none }
  | .lookup l key expected => s.lookup l key expected
  | .readReceipt l => s.readReceipt l
  | .readCandidate l verified => s.mcpRecoverPrivateCandidate l verified
  | .tick => some { s with now := s.now + 1 }
  | .purge => some { s with outcomes := s.outcomes.filter (s.now < ·.expiresAt) }

/-- Before any request. -/
def fresh (now : ℕ) : System where
  now := now
  admissions _ := none
  candidates _ _ := none
  labels := []
  outcomes := []
  calls _ := none
  lookups _ := none
  effects := []
  refusals := []
  answers := []

end System
end LibrePaper.Agents
