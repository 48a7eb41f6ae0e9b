import LibrePaper.Source.Validate

/-!
# Applying a source change

The patches of every file are applied first, each file's in the order of their ranges, and
then the deletions, the new texts and the binaries, each list in its order.
-/
namespace LibrePaper.Source
open Library Anchors

/-- The files and assets of a projection. -/
def treeOf (p : Projected) (revision : String) : SourceTree where
  files := collect (fun path (e : Entry) =>
    if e.kind = .text then (p.texts.lookup path).map fun text => ⟨e.id, text⟩ else none) p.files
  assets := collect (fun _ (e : Entry) => if e.kind = .asset then some e.digest else none) p.files
  revision := revision

/-- A patch in the units of an edit. -/
def patchEdit (path : Path) (text : List Char) (p : Patch) : Except String Edit :=
  match utf16Of text p.start, utf16Of text p.stop with
  | some start, some stop =>
    if start ≤ stop then .ok ⟨start, stop - start, normaliseEndings p.replacement⟩
    else .error ("patch range is inverted in " ++ String.ofList path)
  | none, _ => .error ("patch offset " ++ toString p.start ++
      " is not on a character boundary in " ++ String.ofList path)
  | _, none => .error ("patch offset " ++ toString p.stop ++
      " is not on a character boundary in " ++ String.ofList path)

/-- The patches of a file, in the order of their ranges. -/
def patchesOf (change : SourceChange) (path : Path) : List Patch :=
  sortByKey (fun p : Patch => toLex (p.start, p.stop))
    (change.patches.filter fun p => p.path = path)

/-- The paths that a change patches, in order. -/
def patchedPaths (change : SourceChange) : List Path :=
  sortByKey id (change.patches.map (·.path)).dedup

/-- The edits of one patched file, with its path and its id. -/
def fileEdits (tree : SourceTree) (change : SourceChange) (path : Path) :
    Except String (Path × Path × List Edit) :=
  match tree.files.lookup path with
  | none => .error ("file is absent: " ++ String.ofList path)
  | some file => do
    let edits ← (patchesOf change path).mapM (patchEdit path file.text)
    pure (path, file.fileId, edits)

/-- Edits one file of the document. -/
def editFile (doc : Document) (file : Path × Path × List Edit) : Except String Document :=
  match doc.untrackedEdits file.2.1 file.2.2 with
  | some doc => .ok doc
  | none => .error ("patch edits could not be applied to file: " ++ String.ofList file.1)

/-- Deletes one file. -/
def deleteFile (tree : SourceTree) (doc : Document) (file : DeleteFile) :
    Except String Document :=
  match if file.path ∈ tree.files then doc.removePath file.path else doc.removeAsset file.path with
  | some doc => .ok doc
  | none => .error ("file is absent: " ++ String.ofList file.path)

/-- Applies a change to the document that the tree was read from. -/
def applyPatchEdits (mint : ℕ → Path) (doc : Document) (tree : SourceTree)
    (change : SourceChange) : Except String Document := do
  let files ← (patchedPaths change).mapM (fileEdits tree change)
  let doc ← files.foldlM editFile doc
  let doc ← change.delete.foldlM (deleteFile tree) doc
  let created := change.create.foldl (fun s f => Document.putText mint s f.path f.text) (doc, 0)
  pure (change.putBinary.foldl (fun doc f => doc.putAsset f.path f.hash) created.1)

end LibrePaper.Source
