import LibrePaper.Library.Lists
import LibrePaper.Library.Tables
import LibrePaper.Source.Paths

/-!
# The document and its projection

The shared document is three maps: an id to a text, an id to the path of the text, and a path
to the digest of an asset. Anybody may write anything into it. The projection reads it as a
directory: a file that cannot have the path it asks for gets another one, or is dropped.
-/
namespace LibrePaper.Source
open Library

/-- What stands under an id of `files`. -/
inductive Stored where
  | text (body : List Char)
  | other
deriving DecidableEq

/-- A plain value of a map. -/
inductive Value (α : Type*) where
  | string (value : α)
  | other
deriving DecidableEq

structure Document where
  files : Table Stored
  paths : Table (Value Path)
  assets : Table (Value String)
deriving DecidableEq

namespace Document
variable (doc : Document)

/-- The text filed under an id. -/
def textById (id : Path) : Option (List Char) :=
  match doc.files.lookup id with
  | some (.text body) => some body
  | _ => none

/-- The path filed under an id. -/
def pathOf (id : Path) : Option Path :=
  match doc.paths.lookup id with
  | some (.string path) => some path
  | _ => none

/-- The ids that are filed under a path, in order. -/
def holders (path : Path) : List Path :=
  (sortedKeys doc.paths).filter fun id => doc.pathOf id = some path

/-- The first id that is filed under a path. -/
def idByPath (path : Path) : Option Path := (doc.holders path).head?

/-- The digest of the asset at a path, when it is one. -/
def digestAt (path : Path) : Option String :=
  match doc.assets.lookup path with
  | some (.string digest) =>
    if digest.toList.length = 64 ∧ digest.toList.all fun c => c.isDigit ||
        ('a'.toNat ≤ c.toNat && c.toNat ≤ 'f'.toNat) ||
        ('A'.toNat ≤ c.toNat && c.toNat ≤ 'F'.toNat) then some digest else none
  | _ => none

end Document

/-- Why something is not in the projection, or not where it asks to be. -/
inductive Diagnostic where
  | notAText (id : Path)
  | unnamed (id : Path)
  | dangling (id : Path)
  | notADigest (path : Path)
  | invalidPath (id path : Path) (why : String)
  | moved (id start stop : Path)
  | dropped (id path : Path)
deriving DecidableEq

/-- The tag of a diagnostic, as the wire has it. -/
def Diagnostic.tag : Diagnostic → List Char
  | .notAText _ => "not-a-text".toList
  | .unnamed _ => "unnamed".toList
  | .dangling _ => "dangling".toList
  | .notADigest _ => "not-a-digest".toList
  | .invalidPath .. => "invalid-path".toList
  | .moved .. => "moved".toList
  | .dropped .. => "dropped".toList

/-- The order of the diagnostics. -/
def Diagnostic.sortKey (d : Diagnostic) : List Char ×ₗ Path ×ₗ Path :=
  let second : Path × Path := match d with
    | .notAText id | .unnamed id | .dangling id => (id, [])
    | .notADigest path => (path, [])
    | .invalidPath id path _ => (id, path)
    | .moved id start _ => (id, start)
    | .dropped id path => (id, path)
  toLex (d.tag, toLex second)

/-- Something that asks for a path: a text, or an asset with its digest. -/
inductive Candidate where
  | text (id requested : Path) (body : List Char)
  | asset (path : Path) (digest : String)
deriving DecidableEq

namespace Candidate

def requested : Candidate → Path
  | .text _ requested _ => requested
  | .asset path _ => path

/-- The id of a text, or the path of an asset with a mark. -/
def key : Candidate → Path
  | .text id _ _ => id
  | .asset path _ => "asset:".toList ++ path

def kind : Candidate → Kind
  | .text .. => .text
  | .asset .. => .asset

/-- Texts come before assets, each by their keys. -/
def order (c : Candidate) : ℕ ×ₗ Path := toLex ((match c with | .text .. => 0 | .asset .. => 1), c.key)

end Candidate

section Projection
variable (u : Unicode) (rules : Rules) (doc : Document)

/-- The texts with a path. -/
def textCandidates : List Candidate :=
  (sortedKeys doc.files).filterMap fun id =>
    match doc.textById id, doc.pathOf id with
    | some body, some path => some (.text id path body)
    | _, _ => none

def assetCandidates : List Candidate :=
  (sortedKeys doc.assets).filterMap fun path =>
    (doc.digestAt path).map fun digest => .asset path digest

/-- What the maps hold that asks for no path. -/
def strayDiagnostics : List Diagnostic :=
  ((sortedKeys doc.paths).filter fun id => (doc.pathOf id).isNone).map .unnamed ++
  ((sortedKeys doc.files).filterMap fun id =>
    match doc.textById id, doc.pathOf id with
    | none, _ => some (.notAText id)
    | some _, none => some (.unnamed id)
    | some _, some _ => none) ++
  ((sortedKeys doc.paths).filter fun id =>
    (doc.pathOf id).isSome && (doc.textById id).isNone).map .dangling ++
  ((sortedKeys doc.assets).filter fun path => (doc.digestAt path).isNone).map .notADigest

/-- Why the rules refuse a candidate. -/
def refusal (c : Candidate) : Option String :=
  match admission u rules c.requested with
  | .error why => some why
  | .ok kind =>
    if kind = c.kind then none
    else
      let name : Kind → String := fun k => match k with | .text => "text" | .asset => "asset"
      some (String.ofList c.requested ++ ": the extension names a " ++ name kind ++
        " and this is a " ++ name c.kind)

/-- The candidates that the rules accept, in their order. -/
def candidates : List Candidate :=
  sortByKey Candidate.order
    ((textCandidates doc ++ assetCandidates doc).filter fun c => (refusal u rules c).isNone)

def refusalDiagnostics : List Diagnostic :=
  (textCandidates doc ++ assetCandidates doc).filterMap fun c =>
    (refusal u rules c).map fun why => .invalidPath c.key c.requested why

/-- Whether one key is a directory above another. -/
def above (directory key : Path) : Bool := (directory ++ ['/']).isPrefixOf key

/-- Whether two keys can stand in one directory. -/
def apart (a b : Path) : Bool := a ≠ b && !above a b && !above b a

/-- Whether a path may be taken beside the keys that are. -/
def free (taken : List Path) (path : Path) : Bool :=
  taken.all fun key => apart key (collisionKey u path)

/-- The candidates that get the path they ask for, and the others. -/
structure Reserved where
  taken : List Path
  placed : List (Path × Candidate)
  deferred : List Candidate

def Reserved.reserve (r : Reserved) (c : Candidate) : Reserved :=
  let path := normalise u c.requested
  if free u r.taken path then
    { r with taken := r.taken ++ [collisionKey u path], placed := r.placed ++ [(path, c)] }
  else { r with deferred := r.deferred ++ [c] }

def reserve (all : List Candidate) : Reserved := all.foldl (Reserved.reserve u) ⟨[], [], []⟩

/-- The candidates that were put off get a number in their name, or are dropped. -/
def suffix (s : List Path × List (Path × Candidate) × List Diagnostic) (c : Candidate) :
    List Path × List (Path × Candidate) × List Diagnostic :=
  let requested := normalise u c.requested
  match (List.range' 2 9998).find? fun nth => free u s.1 (suffixed requested nth) with
  | some nth =>
    let path := suffixed requested nth
    (s.1 ++ [collisionKey u path], s.2.1 ++ [(path, c)],
      s.2.2 ++ [.moved c.key requested path])
  | none => (s.1, s.2.1, s.2.2 ++ [.dropped c.key requested])

/-- One file of the projected directory. -/
structure Entry where
  kind : Kind
  id : Path
  digest : String
  bytes : ℕ
deriving DecidableEq

/-- The entry of a candidate; `hash` is the digest of a text. -/
def Candidate.entry (hash : List Char → String) : Candidate → Entry
  | .text id _ body => ⟨.text, id, hash body, lenUtf8 body⟩
  | .asset _ digest => ⟨.asset, [], digest, 0⟩

def Candidate.body : Candidate → Option (List Char)
  | .text _ _ body => some body
  | .asset .. => none

/-- The directory, what was noticed, and the texts. -/
structure Projected where
  files : Table Entry
  diagnostics : List Diagnostic
  texts : Table (List Char)

/-- Files each candidate under its path. -/
def fileAll (hash : List Char → String) (placed : List (Path × Candidate)) : Table Entry :=
  insertAll (placed.map fun p => (p.1, p.2.entry hash)) ∅

def textAll (placed : List (Path × Candidate)) : Table (List Char) :=
  insertAll (placed.filterMap fun p => p.2.body.map fun body => (p.1, body)) ∅

/-- The document as a directory. -/
def project (hash : List Char → String) : Projected :=
  let reserved := reserve u (candidates u rules doc)
  let (_, placed, diagnostics) :=
    reserved.deferred.foldl (suffix u) (reserved.taken, reserved.placed, [])
  { files := fileAll hash placed
    diagnostics := sortByKey Diagnostic.sortKey
      (strayDiagnostics doc ++ refusalDiagnostics u rules doc ++ diagnostics)
    texts := textAll placed }

end Projection

end LibrePaper.Source
