import LibrePaper.Library.Runs

/-!
# Creating a project

A project's row is in the catalogue before its files, which one command writes, and a refused
attempt that made the row removes it again. A template save reserves its row and the owner's request
id together, and completes them with the files. Attempts run side by side, a reply can be lost, and
an attempt can stop anywhere.
-/
namespace LibrePaper.Creation
open Library

/-- The files of an attempt, as texts and figures. -/
structure Files (P T D : Type*) where
  texts : List (P × T)
  assets : List (P × D)

structure Project (P T D : Type*) where
  texts : P → Option T
  assets : P → Option D

namespace Project
variable {P T D : Type*}

def empty : Project P T D := ⟨fun _ => none, fun _ => none⟩

variable [DecidableEq P]

def writeEntry {V : Type*} (m : P → Option V) (e : P × V) : P → Option V :=
  Function.update m e.1 (some e.2)

/-- The entries that the new set does not name are removed, and the new set is written. -/
def replaceEntries {V : Type*} (head : P → Option V) (entries : List (P × V)) : P → Option V :=
  entries.foldl writeEntry fun p => if p ∈ entries.map (·.1) then head p else none

def replace (head : Project P T D) (files : Files P T D) : Project P T D :=
  ⟨replaceEntries head.texts files.texts, replaceEntries head.assets files.assets⟩

end Project

def Files.project {P T D : Type*} [DecidableEq P] (files : Files P T D) : Project P T D :=
  Project.empty.replace files

inductive RequestId where
  | client (id : ℕ)
  | minted (id : ℕ)
deriving DecidableEq

/-- A project's row, with the labels of its commands. Nothing reads `abandoned`: the attempt that
made the row stopped, or lost a reply. -/
structure Document (P T D : Type*) where
  id : ℕ
  slug : ℕ
  owner : ℕ
  template : Bool
  project : Project P T D
  updateSequence : ℕ
  labels : List RequestId
  abandoned : Bool

structure TemplateOperation where
  owner : ℕ
  request : ℕ
  source : ℕ
  title : ℕ
  target : ℕ
  complete : Bool
deriving DecidableEq

/-- The request of a template save. -/
structure Save where
  request : ℕ
  source : ℕ
  title : ℕ
deriving DecidableEq

/-- Where an attempt stands: it looks for its slug, with the target of its save if it is one, makes
the row, and writes the files into a document. -/
inductive Phase where
  | begun
  | planned
  | looking (target : Option ℕ)
  | creating
  | writing (document : ℕ) (created : Bool) (request : RequestId)
  | refused (document : ℕ) (created : Bool)
  | ended
deriving DecidableEq

structure Attempt (P T D : Type*) where
  account : ℕ
  policyEdit : Bool
  slug : ℕ
  files : Files P T D
  save : Option Save
  phase : Phase

/-- Nothing reads `given`, the files that were given to each slug. -/
structure Catalog (P T D : Type*) where
  documents : List (Document P T D)
  operations : List TemplateOperation
  nextId : ℕ
  attempts : ℕ → Option (Attempt P T D)
  given : List (ℕ × Files P T D)

inductive Op (P T D : Type*) where
  | start (c account : ℕ) (policyEdit : Bool) (slug : ℕ) (files : Files P T D) (save : Option Save)
  | templateOperation (c : ℕ)
  | beginTemplateOperation (c : ℕ) (replied : Bool)
  | documentBySlug (c : ℕ)
  | createDocument (c : ℕ) (replied : Bool)
  | refuse (c : ℕ)
  | commit (c : ℕ) (batch replied : Bool)
  | discard (c : ℕ)
  | drop (c : ℕ)

namespace Catalog
variable {P T D : Type*}

def setAttempt (s : Catalog P T D) (c : ℕ) (x : Attempt P T D) : Catalog P T D :=
  { s with attempts := Function.update s.attempts c (some x) }

def findSlug (s : Catalog P T D) (slug : ℕ) : Option (Document P T D) :=
  s.documents.find? (·.slug = slug)

def findDocument (s : Catalog P T D) (id : ℕ) : Option (Document P T D) :=
  s.documents.find? (·.id = id)

def findOperation (s : Catalog P T D) (owner request : ℕ) : Option TemplateOperation :=
  s.operations.find? fun o => o.owner = owner ∧ o.request = request

/-- The row of a document is changed. -/
def updateDocument (s : Catalog P T D) (id : ℕ) (f : Document P T D → Document P T D) :
    List (Document P T D) :=
  s.documents.map fun d => if d.id = id then f d else d

/-- An operation that is there is resumed at its target, unless it is complete or belongs to
another request. -/
def resume (s : Catalog P T D) (x : Attempt P T D) (save : Save) (o : TemplateOperation) :
    Attempt P T D :=
  if o.source ≠ save.source ∨ o.title ≠ save.title ∨ o.complete = true then
    { x with phase := .ended }
  else match s.findDocument o.target with
    | none => { x with phase := .ended }
    | some d => { x with slug := d.slug, phase := .looking (some d.id) }

def templateOperation (s : Catalog P T D) (c : ℕ) : Option (Catalog P T D) :=
  match s.attempts c with
  | some ⟨account, policyEdit, slug, files, some save, .begun⟩ =>
    let x : Attempt P T D := ⟨account, policyEdit, slug, files, some save, .planned⟩
    match s.findOperation account save.request with
    | none => some (s.setAttempt c x)
    | some o => some (s.setAttempt c (s.resume x save o))
  | _ => none

/-- The operation and its target's row are inserted together. The loser of two first attempts
resumes the winner's target. -/
def beginTemplateOperation (s : Catalog P T D) (c : ℕ) (replied : Bool) :
    Option (Catalog P T D) :=
  match s.attempts c with
  | some ⟨account, policyEdit, slug, files, some save, .planned⟩ =>
    let x : Attempt P T D := ⟨account, policyEdit, slug, files, some save, .ended⟩
    match s.findOperation account save.request with
    | some o => some (s.setAttempt c (s.resume x save o))
    | none =>
      if (s.findSlug slug).isSome = true then some (s.setAttempt c x)
      else
        let phase := if replied = true then .looking (some s.nextId) else .ended
        some { s.setAttempt c ⟨account, policyEdit, slug, files, some save, phase⟩ with
          documents := s.documents ++ [⟨s.nextId, slug, account, true, .empty, 0, [], false⟩]
          operations := s.operations ++
            [⟨account, save.request, save.source, save.title, s.nextId, false⟩]
          nextId := s.nextId + 1 }
  | _ => none

/-- The id of the command, which a template save takes from its request. -/
def commandRequest (s : Catalog P T D) (save : Option Save) : RequestId :=
  save.elim (.minted s.nextId) fun save => .client save.request

/-- The slug is looked up. Another owner's document is not written. -/
def documentBySlug (s : Catalog P T D) (c : ℕ) : Option (Catalog P T D) :=
  match s.attempts c with
  | some ⟨account, policyEdit, slug, files, save, .looking target⟩ =>
    let ended : Attempt P T D := ⟨account, policyEdit, slug, files, save, .ended⟩
    match s.findSlug slug with
    | some d =>
      if target.any (· ≠ d.id) = true then some (s.setAttempt c ended)
      else if d.owner ≠ account ∧ policyEdit = false then some (s.setAttempt c ended)
      else some { s.setAttempt c ⟨account, policyEdit, slug, files, save,
          .writing d.id false (s.commandRequest save)⟩ with
        nextId := s.nextId + 1
        given := (slug, files) :: s.given }
    | none =>
      if target.isSome = true then some (s.setAttempt c ended)
      else some (s.setAttempt c ⟨account, policyEdit, slug, files, save, .creating⟩)
  | _ => none

/-- The row is inserted, unless its slug is taken by now. -/
def createDocument (s : Catalog P T D) (c : ℕ) (replied : Bool) : Option (Catalog P T D) :=
  match s.attempts c with
  | some ⟨account, policyEdit, slug, files, save, .creating⟩ =>
    if (s.findSlug slug).isSome = true then
      some (s.setAttempt c ⟨account, policyEdit, slug, files, save, .ended⟩)
    else
      let phase :=
        if replied = true then .writing s.nextId true (.minted (s.nextId + 1)) else .ended
      some { s.setAttempt c ⟨account, policyEdit, slug, files, save, phase⟩ with
        documents := s.documents ++ [⟨s.nextId, slug, account, false, .empty, 0, [], !replied⟩]
        nextId := s.nextId + 2
        given := (slug, files) :: s.given }
  | _ => none

/-- The files cannot be staged, or their command is refused. -/
def refuse (s : Catalog P T D) (c : ℕ) : Option (Catalog P T D) :=
  match s.attempts c with
  | some ⟨account, policyEdit, slug, files, save, .writing d created _⟩ =>
    some (s.setAttempt c ⟨account, policyEdit, slug, files, save, .refused d created⟩)
  | _ => none

/-- One operation of the target is completed. -/
def completeTemplateOperation (s : Catalog P T D) (target request : ℕ) :
    Option (List TemplateOperation) :=
  if (s.operations.filter fun o =>
      o.target = target ∧ o.request = request ∧ o.complete = false).length = 1 then
    some (s.operations.map fun o =>
      if o.target = target ∧ o.request = request ∧ o.complete = false then
        { o with complete := true }
      else o)
  else none

/-- The operations once a command's transaction is through. -/
def completed (s : Catalog P T D) (save : Option Save) (d : ℕ) : Option (List TemplateOperation) :=
  save.elim (some s.operations) fun save => s.completeTemplateOperation d save.request

/-- The command replays its label, or replaces the project, inserts the label and completes the
template save in one transaction. A replacement that changes nothing writes no row. -/
def commit [DecidableEq P] (s : Catalog P T D) (c : ℕ) (batch replied : Bool) :
    Option (Catalog P T D) :=
  match s.attempts c with
  | some ⟨account, policyEdit, slug, files, save, .writing id created request⟩ =>
    let refused : Attempt P T D := ⟨account, policyEdit, slug, files, save, .refused id created⟩
    match s.findDocument id with
    | none => some (s.setAttempt c refused)
    | some d =>
      if request ∈ d.labels then
        some (s.setAttempt c ⟨account, policyEdit, slug, files, save, .ended⟩)
      else match s.completed save id with
        | none => some (s.setAttempt c refused)
        | some operations =>
          some { s.setAttempt c ⟨account, policyEdit, slug, files, save,
              if replied = true then .ended else .refused id created⟩ with
            documents := s.updateDocument id fun d => { d with
              project := d.project.replace files
              updateSequence := if batch = true then d.updateSequence + 1 else d.updateSequence
              labels := d.labels ++ [request] }
            operations := operations }
  | _ => none

/-- A row that nothing was committed to. -/
def discardable (d : Document P T D) (id owner : ℕ) : Bool :=
  d.id = id ∧ d.owner = owner ∧ d.updateSequence = 0 ∧ d.labels = []

/-- A refused attempt removes the row that it made. -/
def discardUnwrittenDocument (s : Catalog P T D) (c : ℕ) : Option (Catalog P T D) :=
  match s.attempts c with
  | some ⟨account, policyEdit, slug, files, save, .refused id created⟩ =>
    let ended : Attempt P T D := ⟨account, policyEdit, slug, files, save, .ended⟩
    if created = true then
      some { s.setAttempt c ended with
        documents := s.documents.filter fun d => !discardable d id account }
    else some (s.setAttempt c ended)
  | _ => none

/-- The row that an attempt has made and not yet removed. -/
def Attempt.made (x : Attempt P T D) : Option ℕ :=
  match x.phase with
  | .writing id true _ | .refused id true => some id
  | _ => none

def drop (s : Catalog P T D) (c : ℕ) : Option (Catalog P T D) :=
  (s.attempts c).map fun x => { s with
    attempts := Function.update s.attempts c none
    documents := s.documents.map fun d =>
      if Attempt.made x = some d.id then { d with abandoned := true } else d }

def start (s : Catalog P T D) (c : ℕ) (x : Attempt P T D) : Option (Catalog P T D) :=
  if (s.attempts c).isNone = true then some (s.setAttempt c x) else none

def step [DecidableEq P] (s : Catalog P T D) : Op P T D → Option (Catalog P T D)
  | .start c account policyEdit slug files save => s.start c ⟨account, policyEdit, slug, files,
      save, if save.isSome = true then .begun else .looking none⟩
  | .templateOperation c => s.templateOperation c
  | .beginTemplateOperation c replied => s.beginTemplateOperation c replied
  | .documentBySlug c => s.documentBySlug c
  | .createDocument c replied => s.createDocument c replied
  | .refuse c => s.refuse c
  | .commit c batch replied => s.commit c batch replied
  | .discard c => s.discardUnwrittenDocument c
  | .drop c => s.drop c

def fresh : Catalog P T D := ⟨[], [], 0, fun _ => none, []⟩

/-- A target whose save is not complete is in no list, and a template only where templates are. -/
def visibleDocuments (s : Catalog P T D) (account : ℕ) (includeTemplates : Bool) :
    List (Document P T D) :=
  s.documents.filter fun d => d.owner = account ∧
    ¬s.operations.any (fun o => o.target = d.id ∧ o.complete = false) ∧
    (includeTemplates = true ∨ d.template = false)

end Catalog
end LibrePaper.Creation
