import LibrePaper.Library.Fallible
import LibrePaper.Library.Forests
import LibrePaper.Library.Tables
import LibrePaper.Sync.State

/-!
# Web versions as commits

Each web version becomes one commit, chained on the one before. Its tree is the tree it starts
from with the project's files replaced by the files of the version, so that files the project
does not hold stay.
-/
namespace LibrePaper.Sync
open Library Source

/-- A name in a git tree: any bytes, with slashes between the folders. -/
abbrev Name := List (Fin 256)

/-- The name of a path of the project. -/
def nameOf (path : Path) : Name := (utf8 path).map UInt8.toFin

/-- A name as it is read from a listing. -/
def readName (name : Name) : Path := (fromUtf8Lossy (name.map UInt8.ofFin)).toList

def slash : Fin 256 := 47

inductive Mode where
  /-- `100644` -/
  | file
  /-- `100755` -/
  | executable
  /-- `120000` -/
  | link
  /-- `160000` -/
  | submodule
deriving DecidableEq

/-- What a git tree holds under a name. -/
structure TreeEntry (ω : Type) where
  mode : Mode
  object : ω
deriving DecidableEq

abbrev GitTree (ω : Type) := Forest slash (TreeEntry ω)

/-- A line of `update-index --index-info`. -/
inductive IndexInfo (ω : Type) where
  | remove (name : Name)
  | put (mode : Mode) (object : ω) (name : Name)

/-- Files that are in the way of an added one are replaced by it. -/
def updateIndex {ω : Type} (index : GitTree ω) : IndexInfo ω → GitTree ω
  | .remove name => index.drop name
  | .put mode object name => index.put name ⟨mode, object⟩

/-- What git answers while a version is committed. A commit made by `commit-tree` has the tree
it was made for. -/
structure Repo {ω γ : Type} (treeOf : γ → GitTree ω) where
  hasCommit : γ → Bool
  isAncestor : γ → γ → Bool
  commitTree : GitTree ω → List γ → γ
  treeOf_commitTree : ∀ tree parents, treeOf (commitTree tree parents) = tree

variable {ω γ : Type}

/-- The mode of the last entry that a listing shows under a path. -/
def modeAt (index : GitTree ω) (path : Path) : Option Mode :=
  (index.entries.reverse.find? fun e => readName e.1 = path).map fun e => e.2.mode

/-- The tree of `base` with `entries` written over it and `removals` taken out. A file that was
executable stays executable. -/
def overlay (base : Option (GitTree ω)) (entries : List (Path × ω)) (removals : List Path) :
    GitTree ω :=
  let index := base.getD ∅
  let info := removals.map (fun path => IndexInfo.remove (nameOf path)) ++
    entries.map fun (path, blob) =>
      let mode := if modeAt index path = some .executable then Mode.executable else .file
      .put mode blob (nameOf path)
  info.foldl updateIndex index

/-- A fetched version and what the chain is asked to make of it. The texts and the assets have
the digests of their records, and no file of the version lies below another. -/
structure Version (digest : Bytes → String) (γ : Type) where
  files : Table FileRecord
  texts : Table (List Char)
  assets : Finmap fun _ : String => Bytes
  skipIfUnchanged : Bool
  pushed : Option γ
  excluded : Finset Path
  texts_verified : ∀ path record text, files.lookup path = some record → record.kind = .text →
    texts.lookup path = some text → digest (utf8 text) = record.sha
  assets_verified : ∀ sha bytes, assets.lookup sha = some bytes → digest bytes = sha
  apart : ∀ p ∈ files, ∀ q ∈ files, ¬Below '/' p q

/-- The commit the chain has reached, the paths that it knows, and the blob of each content that
is already written. -/
structure Chain (ω γ : Type) where
  tip : Option γ
  known : Finset Path
  blobs : Finmap fun _ : String => ω

def Chain.new (tip : Option γ) (known : Finset Path) : Chain ω γ := ⟨tip, known, ∅⟩

section Commit
variable {digest : Bytes → String} (hashObject : Bytes → ω) {treeOf : γ → GitTree ω}

/-- The bytes of a file of a version. -/
def Version.bytes (version : Version digest γ) (path : Path) (record : FileRecord) :
    Except String Bytes :=
  match record.kind with
  | .text => match version.texts.lookup path with
    | some text => .ok (utf8 text)
    | none => .error s!"the version has no text for {String.ofList path}"
  | .asset => match version.assets.lookup record.sha with
    | some bytes => .ok bytes
    | none => .error s!"the version has no bytes for {String.ofList path}"

/-- The blob for a file's content, written once however many versions and paths hold it. -/
def Chain.blob (version : Version digest γ) (path : Path) (record : FileRecord)
    (chain : Chain ω γ) : Except String (ω × Chain ω γ) :=
  match chain.blobs.lookup record.sha with
  | some id => .ok (id, chain)
  | none => do
    let bytes ← version.bytes path record
    let id := hashObject bytes
    .ok (id, { chain with blobs := chain.blobs.insert record.sha id })

/-- The blobs of the files that are not excluded. -/
def Chain.gather (version : Version digest γ) :
    List (Path × FileRecord) → Chain ω γ → Except String (List (Path × ω) × Chain ω γ)
  | [], chain => .ok ([], chain)
  | (path, record) :: files, chain =>
    if path ∈ version.excluded then Chain.gather version files chain
    else do
      let (blob, chain) ← chain.blob hashObject version path record
      let (entries, chain) ← Chain.gather version files chain
      .ok ((path, blob) :: entries, chain)

/-- The known paths that the version has dropped and that are not excluded. -/
def Chain.removals (version : Version digest γ) (chain : Chain ω γ) : List Path :=
  (chain.known.sort (· ≤ ·)).filter fun path => path ∉ version.files ∧ path ∉ version.excluded

/-- The commit to start from and the parents of the new commit. -/
def Repo.start (repo : Repo treeOf) (tip pushed : Option γ) : Option γ × List γ :=
  match tip, pushed with
  | tip, none => (tip, tip.toList)
  | none, some own => (some own, [own])
  | some tip, some own =>
    if repo.isAncestor own tip then (some tip, [tip])
    else if repo.isAncestor tip own then (some own, [own])
    else (some own, [tip, own])

/-- The tree of the commit for a version, with the parents of a new one. -/
def Chain.written (repo : Repo treeOf) (version : Version digest γ) (chain : Chain ω γ) :
    Except String (Chain ω γ × List γ × GitTree ω) := do
  let (entries, gathered) ← chain.gather hashObject version (listed version.files)
  let (base, parents) := repo.start chain.tip (version.pushed.filter repo.hasCommit)
  .ok (gathered, parents, overlay (base.map treeOf) entries (chain.removals version))

variable [DecidableEq ω] [DecidableEq γ]

/-- Adds the commit for one version and moves the tip to it. A commit that was pushed is taken
when it is the only parent and already holds exactly the version. -/
def Chain.commit (repo : Repo treeOf) (version : Version digest γ) (chain : Chain ω γ) :
    Except String (Chain ω γ × γ) := do
  let (gathered, parents, tree) ← chain.written hashObject repo version
  match (if version.skipIfUnchanged then chain.tip else none).filter (treeOf · = tree) with
  | some tip => .ok (gathered, tip)
  | none =>
    let adopted := (version.pushed.filter repo.hasCommit).filter fun own =>
      parents = [own] ∧ treeOf own = tree
    let commit := adopted.getD (repo.commitTree tree parents)
    .ok ({ gathered with
      tip := some commit
      known := gathered.known ∪ (version.files.keys \ version.excluded) }, commit)

/-- Commits versions one after the other. -/
def Chain.run : List (Repo treeOf × Version digest γ) → Chain ω γ → Except String (Chain ω γ)
  | [], chain => .ok chain
  | (repo, version) :: steps, chain => do
    let (chain, _) ← chain.commit hashObject repo version
    Chain.run steps chain

end Commit
end LibrePaper.Sync
