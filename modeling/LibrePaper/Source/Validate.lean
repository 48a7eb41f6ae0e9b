import LibrePaper.Source.Session

/-!
# Checking a source change

A change is checked against a tree as a whole: every path that moved under it is collected,
and a malformed change is refused outright.
-/
namespace LibrePaper.Source
open Library

def maxPatches : ℕ := 100

def maxPatchBytes : ℕ := 256 * 1024

def maxOperationPart : ℕ := 128

/-- Whether an operation id has the form `v2.<milliseconds>.<32 hexadecimal digits>`, with
milliseconds that fit. -/
def requestKeyOk (id : List Char) : Bool :=
  match id.splitOn '.' with
  | [version, issued, nonce] =>
    version = ['v', '2'] && issued ≠ [] && !(1 < issued.length && issued.head? = some '0') &&
      issued.all Char.isDigit &&
      decide (issued.foldl (fun n c => 10 * n + (c.toNat - '0'.toNat)) 0 < 2 ^ 63) &&
      nonce.length = 32 && nonce.all fun c => c.isDigit ||
        ('a'.toNat ≤ c.toNat && c.toNat ≤ 'f'.toNat)
  | _ => false

/-- A part of an operation key: short, plain ASCII. -/
def plainPart (part : List Char) : Bool :=
  part.length ≤ maxOperationPart && part.all fun c => 0x20 ≤ c.toNat && c.toNat < 0x7f

def OperationKey.validate (key : OperationKey) : Except AgentError Unit :=
  if key.epoch = [] ∨ plainPart key.epoch = false then
    .error (.invalid ("operation.epoch is missing or malformed: copy operation_epoch " ++
      "verbatim from your most recent document_read response"))
  else if requestKeyOk key.id = false ∨ plainPart key.id = false then
    .error (.invalid ("operation.id is malformed: use v2.<current Unix milliseconds>." ++
      "<32 lowercase hexadecimal characters>, minted once per mutation and reused unchanged " ++
      "on retry"))
  else .ok ()

/-- Whether a range of a text is on character boundaries and reads as it was captured. -/
def rangeMatches (text : List Char) (start stop : ℕ) (captured : List Char) : Bool :=
  match boundaryAt Char.utf8Size text start, boundaryAt Char.utf8Size text stop with
  | some i, some j => start ≤ stop && (text.take j).drop i = captured
  | _, _ => false

section Unicode
variable (u : Unicode)

/-- What is wrong with the path of a patch or of a dependency. -/
def validatePath (path : Path) : Except AgentError Unit :=
  if path = [] ∨ path.head? = some '/' ∨ '\\' ∈ path ∨ '\x00' ∈ path ∨
      (path.splitOn '/').any fun part => part = [] || part = ['.'] || part = ['.', '.'] then
    .error (.invalid ("invalid source path: " ++ u.debug path))
  else .ok ()

/-- A path as the rules store it, with the kind of file that an operation needs. -/
def requireKind (rules : Rules) (path : Path) (want : Kind) : Except AgentError Unit :=
  if normalise u path ≠ path then
    .error (.invalid ("invalid source path: " ++ u.debug path))
  else match admission u rules path with
    | .ok kind =>
      if kind = want then .ok ()
      else .error (.invalid (String.ofList path ++
        ": this operation does not apply to that kind of file"))
    | .error why => .error (.invalid why)

/-- The size and number of an agent's operations, and the policy of a sync. -/
def checkOrigin (change : SourceChange) : Origin → Except AgentError Unit
  | .agent =>
    let operations := change.create.length + change.delete.length + change.putBinary.length
    let bytes := (change.patches.map fun p => lenUtf8 p.captured + lenUtf8 p.replacement).sum +
      (change.create.map fun f => lenUtf8 f.text).sum
    if change.baseTree = "" then .error (.invalid "invalid base tree digest")
    else if change.isEmpty ∨ maxPatches < change.patches.length ∨ maxPatches < operations then
      .error (.invalid "patch count is outside the limit")
    else if maxPatchBytes < bytes then .error (.invalid "patch payload is too large")
    else .ok ()
  | .sync _ =>
    if change.consistency ≠ .unchangedDependencies then
      .error (.invalid "a sync change must use unchanged_dependencies")
    else .ok ()

/-- Whether a file no longer is what a patch or a dependency has read of it. -/
def rangeChanged (tree : SourceTree) (path fileId : Path) (start stop : ℕ)
    (captured : List Char) : Bool :=
  match tree.files.lookup path with
  | none => true
  | some file =>
    (fileId ≠ [] && fileId ≠ file.fileId) || !rangeMatches file.text start stop captured

/-- Whether a file no longer has the hash of a dependency. -/
def rewritten (hash : List Char → String) (tree : SourceTree) (d : Dependency) : Bool :=
  match tree.files.lookup d.path with
  | none => true
  | some file => d.fileHash ≠ "" && d.fileHash ≠ hash file.text

/-- The patched paths that changed. -/
def changedPatches (tree : SourceTree) (change : SourceChange) : List Path :=
  (change.patches.filter fun p =>
    rangeChanged tree p.path p.fileId p.start p.stop p.captured).map (·.path)

/-- The paths of dependencies that changed. -/
def changedDependencies (hash : List Char → String) (tree : SourceTree)
    (change : SourceChange) : List Path :=
  if change.consistency = .unchangedDependencies then
    (change.dependencies.filter fun d =>
      rewritten hash tree d || rangeChanged tree d.path d.fileId d.start d.stop d.captured).map
        (·.path)
  else []

/-- The files that a change patches or deletes without a hash of their text. -/
def unhashed (tree : SourceTree) (change : SourceChange) : List Path :=
  (change.patches.map (·.path) ++
    (change.delete.map (·.path)).filter fun path => path ∈ tree.files).filter fun path =>
      !change.dependencies.any fun d => d.path = path && d.fileHash ≠ ""

/-- What a deletion finds: whether its path changed. -/
def checkDelete (tree : SourceTree) (change : SourceChange) (file : DeleteFile) :
    Except AgentError Bool :=
  if change.patches.any fun p => p.path = file.path then
    .error (.invalid ("a file cannot be patched and deleted: " ++ String.ofList file.path))
  else if file.path ∈ tree.files then .ok false
  else match tree.assets.lookup file.path with
    | some sha =>
      match file.expect with
      | some expected => .ok (expected ≠ sha)
      | none => .error (.invalid ("deleting a binary file needs the digest it must still have: " ++
          String.ofList file.path))
    | none => .ok true

/-- What a new or replaced file finds: its path changed, or is added, or stays. -/
inductive Found where
  | changed
  | added
  | replaced
deriving DecidableEq

def checkCreate (rules : Rules) (tree : SourceTree) (file : CreateFile) :
    Except AgentError Found := do
  requireKind u rules file.path .text
  pure (if file.path ∈ tree.files ∨ file.path ∈ tree.assets then .changed else .added)

def digestOk (hash : String) : Bool :=
  hash.toList.length = 64 && hash.toList.all fun c => c.isDigit ||
    ('a'.toNat ≤ c.toNat && c.toNat ≤ 'f'.toNat)

def checkPut (rules : Rules) (tree : SourceTree) (file : PutBinary) :
    Except AgentError Found := do
  requireKind u rules file.path .asset
  if digestOk file.hash = false then
    throw (.invalid ("the digest of " ++ String.ofList file.path ++
      " is not 64 lowercase hexadecimal characters"))
  if file.path ∈ tree.files then pure .changed
  else match tree.assets.lookup file.path, file.expect with
    | some current, some expected => pure (if current = expected then .replaced else .changed)
    | some _, none | none, some _ => pure .changed
    | none, none => pure .added

/-- The paths that are there after the deletions, by their keys. -/
def keptKeys (tree : SourceTree) (change : SourceChange) : List Path :=
  ((sortedKeys tree.files ++ sortedKeys tree.assets).filter fun path =>
    !change.delete.any fun f => f.path = path).map (collisionKey u)

/-- Every added path takes a key that is free. -/
def takeKeys : List Path → List Path → Except AgentError Unit
  | _, [] => .ok ()
  | taken, path :: added =>
    if collisionKey u path ∈ taken then
      .error (.invalid (String.ofList path ++ " collides with another file name"))
    else takeKeys (collisionKey u path :: taken) added

/-- How many files of the tree a change deletes. -/
def removedCount (tree : SourceTree) (change : SourceChange) : ℕ :=
  ((change.delete.map (·.path)).dedup.filter fun path =>
    path ∈ tree.files ∨ path ∈ tree.assets).length

/-- Checks the file operations, and collects the paths that changed. -/
def validateFileOperations (rules : Rules) (maxFiles : ℕ) (tree : SourceTree)
    (change : SourceChange) : Except AgentError (List Path) :=
  if change.hasFileOperations = false then .ok []
  else do
    let deletes ← change.delete.mapM fun f => do pure (f.path, ← checkDelete tree change f)
    let creates ← change.create.mapM fun f => do pure (f.path, ← checkCreate u rules tree f)
    let puts ← change.putBinary.mapM fun f => do pure (f.path, ← checkPut u rules tree f)
    let added := ((creates ++ puts).filter fun f => f.2 = Found.added).map (·.1)
    takeKeys u (keptKeys u tree change) added
    let after := tree.files.keys.card + tree.assets.keys.card - removedCount tree change +
      added.length
    if added ≠ [] ∧ maxFiles < after then
      throw (.invalid ("a document may hold " ++ toString maxFiles ++ " files"))
    pure (((deletes.filter (·.2)).map (·.1)) ++
      ((creates ++ puts).filter fun f => f.2 = Found.changed).map (·.1))

/-- Whether the patches of one file overlap, for some file. -/
def rejectOverlaps (change : SourceChange) : Except AgentError Unit :=
  if (change.patches.map (·.path)).any fun path =>
      overlapping agentPatch ((change.patches.filter fun p => p.path = path).map fun p =>
        (p.start, p.stop)) then
    .error (.conflict "patch ranges overlap")
  else .ok ()

/-- Everything a change has to satisfy against the tree it names. -/
def validateSourceChange (hash : List Char → String) (rules : Rules) (maxFiles : ℕ)
    (tree : SourceTree) (change : SourceChange) (origin : Origin) : Except AgentError Unit := do
  change.operation.validate
  if 128 < change.baseTree.utf8ByteSize then throw (.invalid "invalid base tree digest")
  checkOrigin change origin
  if change.consistency = .exactTree ∧ change.baseTree ≠ tree.revision then
    throw (.conflict "source tree changed")
  change.patches.forM fun p => validatePath u p.path
  if change.consistency = .unchangedDependencies then
    change.dependencies.forM fun d => validatePath u d.path
  if origin ≠ .agent ∧ unhashed tree change ≠ [] then
    throw (.invalid ("a file hash is required for: " ++ ", ".intercalate
      ((sortByKey id (unhashed tree change).dedup).map String.ofList)))
  let operations ← validateFileOperations u rules maxFiles tree change
  let changed := changedPatches tree change ++ changedDependencies hash tree change ++ operations
  if changed ≠ [] then throw (.changed (sortByKey id changed.dedup))
  rejectOverlaps change

end Unicode

end LibrePaper.Source
