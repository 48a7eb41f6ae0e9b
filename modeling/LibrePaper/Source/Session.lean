import LibrePaper.Anchors.Planner
import LibrePaper.Source.Document

/-!
# Edits of the document

Offsets of a text count UTF-16 code units in an edit and bytes in a patch. The operations on
files work with the paths as the document holds them.
-/
namespace LibrePaper.Source
open Library Anchors

/-- Every line ending becomes a line feed. -/
def normaliseEndings : List Char → List Char
  | '\r' :: '\n' :: text => '\n' :: normaliseEndings text
  | '\r' :: text => '\n' :: normaliseEndings text
  | c :: text => c :: normaliseEndings text
  | [] => []

/-- On what the rules for overlapping ranges differ. -/
structure OverlapPolicy where
  touching : Bool
  insertAtBoundary : Bool
  coincidentInserts : Bool
  sortedInput : Bool
deriving DecidableEq

def applySorted : OverlapPolicy := ⟨true, true, true, true⟩

def agentPatch : OverlapPolicy := ⟨true, true, false, false⟩

/-- Whether a range conflicts with the one before it. -/
def conflicts (policy : OverlapPolicy) (a b : ℕ × ℕ) : Bool :=
  if b.1 < a.1 then true
  else if a.1 = a.2 then
    if b.1 = b.2 then a.1 = b.1 && !policy.coincidentInserts
    else a.1 = b.1 && !policy.insertAtBoundary
  else if b.1 = b.2 then
    if b.1 = a.2 then !policy.insertAtBoundary else b.1 < a.2
  else if b.1 = a.2 then !policy.touching
  else b.1 < a.2

/-- Whether a range conflicts with the next one, for some range. -/
def anyConflict (policy : OverlapPolicy) : List (ℕ × ℕ) → Bool
  | a :: b :: ranges => conflicts policy a b || anyConflict policy (b :: ranges)
  | _ => false

/-- Whether ranges overlap, in the order of their starts. -/
def overlapping (policy : OverlapPolicy) (ranges : List (ℕ × ℕ)) : Bool :=
  anyConflict policy (if policy.sortedInput then ranges
    else sortByKey (fun r => toLex r) ranges)

/-- The offset in UTF-16 code units of a byte offset on a character boundary. -/
def utf16Of (text : List Char) (byte : ℕ) : Option ℕ :=
  (boundaryAt Char.utf8Size text byte).map fun i => lenUtf16 (text.take i)

/-- Deletes a range and inserts in its place. -/
def applyEdit (text : List Char) (e : Edit) : Option (List Char) := do
  let first ← boundaryAt charLenUtf16 text e.pos
  let last ← boundaryAt charLenUtf16 text (e.pos + e.delete)
  pure (splice text first last e.insert)

/-- Applies edits from the last to the first, when they fit the text and do not overlap. -/
def applyTextEdits (text : List Char) (edits : List Edit) : Option (List Char) :=
  if (edits.any fun e => decide (lenUtf16 text < e.pos + e.delete)) ||
      overlapping applySorted (edits.map fun e => (e.pos, e.pos + e.delete)) then none
  else edits.foldr (fun e text => text.bind fun text => applyEdit text e) (some text)

/-- The text after an edit that is not tracked. -/
def untrackedText (text : List Char) (edits : List Edit) : Option (List Char) :=
  if edits.all fun e => (boundaryAt charLenUtf16 text e.pos).isSome &&
      (boundaryAt charLenUtf16 text (e.pos + e.delete)).isSome then applyTextEdits text edits
  else none

namespace Document

/-- Puts a text at a path; a new file gets the next of the minted ids. -/
def putText (mint : ℕ → Path) (s : Document × ℕ) (path : Path) (body : List Char) :
    Document × ℕ :=
  let body := normaliseEndings body
  match s.1.idByPath path with
  | some id =>
    (if (s.1.textById id).isSome then { s.1 with files := s.1.files.insert id (.text body) }
      else s.1, s.2)
  | none =>
    ({ s.1 with
        files := s.1.files.insert (mint s.2) (.text body)
        paths := s.1.paths.insert (mint s.2) (.string path) }, s.2 + 1)

/-- Removes the file that is named by a path. -/
def removePath (doc : Document) (path : Path) : Option Document :=
  (doc.idByPath path).map fun id =>
    { doc with paths := doc.paths.erase id, files := doc.files.erase id }

/-- Removes an asset. -/
def removeAsset (doc : Document) (path : Path) : Option Document :=
  if path ∈ doc.assets then some { doc with assets := doc.assets.erase path } else none

/-- Names the digest of the asset at a path. -/
def putAsset (doc : Document) (path : Path) (digest : String) : Document :=
  { doc with assets := doc.assets.insert path (.string digest) }

/-- Edits the text of a file without tracking. -/
def untrackedEdits (doc : Document) (id : Path) (edits : List Edit) : Option Document :=
  ((doc.textById id).bind fun text => untrackedText text edits).map fun text =>
    { doc with files := doc.files.insert id (.text text) }

end Document

end LibrePaper.Source
