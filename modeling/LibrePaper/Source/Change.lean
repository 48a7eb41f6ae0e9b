import Mathlib

/-!
# Source changes

A source change edits, creates, deletes and replaces files of a project in one piece. Paths
and texts are lists of characters, and patches count the bytes of the UTF-8 text.
-/
namespace LibrePaper.Source

abbrev Path := List Char

instance : LawfulBEq Path := inferInstanceAs (LawfulBEq (List Char))

/-- A finite map, as the project keeps its files. -/
abbrev Table (α : Type*) := Finmap fun _ : Path => α

/-- A text is edited in place; an asset is named by its digest. -/
inductive Kind where
  | text
  | asset
deriving DecidableEq

/-- A half-open byte range of a file, the text it was captured with and what replaces it. -/
structure Patch where
  path : Path
  fileId : Path
  start : ℕ
  stop : ℕ
  captured : List Char
  replacement : List Char
deriving DecidableEq

/-- A range that the change has read, and the hash of the whole file. -/
structure Dependency where
  path : Path
  fileId : Path
  fileHash : String
  start : ℕ
  stop : ℕ
  captured : List Char
deriving DecidableEq

structure CreateFile where
  path : Path
  text : List Char
deriving DecidableEq

/-- A binary that is deleted names the digest it must still have. -/
structure DeleteFile where
  path : Path
  expect : Option String
deriving DecidableEq

/-- A binary and the digest of the one it replaces; without it the path must be absent. -/
structure PutBinary where
  path : Path
  hash : String
  expect : Option String
deriving DecidableEq

inductive Consistency where
  | exactTree
  | unchangedDependencies
deriving DecidableEq

inductive Origin where
  | agent
  | sync (provider : String)
deriving DecidableEq

structure OperationKey where
  epoch : List Char
  id : List Char
deriving DecidableEq

structure SourceChange where
  operation : OperationKey
  baseTree : String
  consistency : Consistency
  dependencies : List Dependency
  patches : List Patch
  create : List CreateFile
  delete : List DeleteFile
  putBinary : List PutBinary
deriving DecidableEq

/-- Whether the change creates, deletes or replaces a file. -/
def SourceChange.hasFileOperations (change : SourceChange) : Bool :=
  !(change.create.isEmpty && change.delete.isEmpty && change.putBinary.isEmpty)

def SourceChange.isEmpty (change : SourceChange) : Bool :=
  change.patches.isEmpty && !change.hasFileOperations

/-- Why a change is refused. -/
inductive AgentError where
  | invalid (why : String)
  | conflict (why : String)
  | changed (paths : List Path)
  | suggestion (path : Path) (change : String)
deriving DecidableEq

structure SourceFile where
  fileId : Path
  text : List Char
deriving DecidableEq

/-- The files a change is checked against, and the assets with their digests. -/
structure SourceTree where
  files : Table SourceFile
  assets : Table String
  revision : String

end LibrePaper.Source
