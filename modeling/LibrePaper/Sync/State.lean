import LibrePaper.Source.Change

/-!
# The sync state

What a directory remembers about its project: the files as the directory last agreed on them
with the project, a fetched version that is not merged yet, and a push that is posted and not
settled yet.
-/
namespace LibrePaper.Sync
open Source Finmap

/-- One synced file as last pulled or pushed. -/
structure FileRecord where
  kind : Kind
  sha : String
deriving DecidableEq

/-- A version that the directory pushed, and the commit that held it. -/
structure Pushed where
  label : String
  commit : Option String
deriving DecidableEq

/-- A web version that is fetched and not yet merged into the branch. -/
structure Fetched where
  commit : String
  files : Table FileRecord
deriving DecidableEq

/-- A push saved before it is posted, with what it does to the files once it is accepted. -/
structure PendingPush where
  requestKey : String
  actor : String
  request : SourceChange
  upsertFiles : Table FileRecord
  deletedPaths : List Path
  commit : Option String
deriving DecidableEq

structure State where
  pulled : Option ℤ
  head : Option String
  files : Table FileRecord
  pushed : List Pushed
  fetched : Option Fetched
  synced : Finset Path
  webHead : Option String
  pending : Option PendingPush
deriving DecidableEq

/-- A directory just linked. -/
def State.new : State where
  pulled := none
  head := none
  files := ∅
  pushed := []
  fetched := none
  synced := ∅
  webHead := none
  pending := none

/-- A version of the project's history. -/
structure LabelRow where
  sha : String
  sequence : ℤ
deriving DecidableEq

/-- What there is to take from the project. -/
structure Discovery where
  versions : List LabelRow
  fromHead : Bool
  head : Option String
deriving DecidableEq

/-- What a fetch made: the commits it added to its branch and the tip, the files of the
project, and the paths of every snapshot it took. -/
structure Taken where
  commits : List String
  tip : Option String
  held : Table FileRecord
  paths : Finset Path
deriving DecidableEq

/-- Records a fetch. One that made no commit leaves what was fetched before. -/
def State.fetch (state : State) (found : Discovery) (taken : Taken) : State :=
  let state := { state with
    synced := state.synced ∪ taken.paths
    webHead := if found.head.isSome then found.head else state.webHead }
  match taken.tip, taken.commits with
  | some tip, _ :: _ =>
    { state with
      pulled := if found.fromHead then none
        else match found.versions.getLast? with
          | some label => some label.sequence
          | none => state.pulled
      fetched := some ⟨tip, taken.held⟩
      pushed := state.pushed.filter fun p => !found.versions.any fun v => v.sha = p.label }
  | _, _ => state

section Git
variable (isAncestor : String → String → Bool)

/-- Makes the fetched version the one the directory is based on. -/
def promote (state : State) : State :=
  match state.fetched with
  | none => state
  | some fetched =>
    let newer := match state.head with
      | none => true
      | some head => isAncestor head fetched.commit
    { state with
      fetched := none
      head := if newer then some fetched.commit else state.head
      files := fetched.files }

/-- Whether the fetched version is merged into the branch. -/
def merged (rev : Option String) (state : State) : Bool :=
  match state.fetched, rev with
  | some fetched, some rev => isAncestor fetched.commit rev
  | _, _ => false

/-- Promotes a fetched version that is merged by now. -/
def settle (rev : Option String) (state : State) : State × Bool :=
  if merged isAncestor rev state then (promote isAncestor state, true) else (state, false)

end Git

inductive PushOutcome where
  | nothing
  | pushed (labelSha : String) (sequence : ℤ) (files : ℕ)
  | refused (paths : List Path)
  | suggestion (path : Path)
deriving DecidableEq

/-- The server's answer to a source change. -/
inductive Sent where
  | accepted (sha : String) (sequence : ℤ)
  | refused (outcome : PushOutcome)
deriving DecidableEq

/-- How many pushed versions a state remembers. -/
def maxPushed : ℕ := 200

/-- The files once a pending push is accepted. -/
def PendingPush.settled (pending : PendingPush) (files : Table FileRecord) : Table FileRecord :=
  pending.deletedPaths.foldl (fun files path => files.erase path) (pending.upsertFiles ∪ files)

/-- Settles a pending push by the server's answer. -/
def settlePending (state : State) (pending : PendingPush) : Sent → State × PushOutcome
  | .refused outcome => ({ state with pending := none }, outcome)
  | .accepted sha sequence =>
    let pushed := state.pushed ++ [⟨sha, pending.commit⟩]
    ({ state with
        files := pending.settled state.files
        synced := state.synced ∪ pending.upsertFiles.keys ∪ pending.deletedPaths.toFinset
        pushed := pushed.drop (pushed.length - maxPushed)
        head := if pending.commit.isSome then pending.commit else state.head
        webHead := none
        pending := none },
      .pushed sha sequence (pending.upsertFiles.keys.card + pending.deletedPaths.length))

lemma fetch_files (state : State) (found : Discovery) (taken : Taken) :
    (state.fetch found taken).files = state.files := by
  unfold State.fetch
  dsimp only
  split <;> rfl

lemma fetch_pending (state : State) (found : Discovery) (taken : Taken) :
    (state.fetch found taken).pending = state.pending := by
  unfold State.fetch
  dsimp only
  split <;> rfl

lemma promote_fetched (isAncestor : String → String → Bool) {state : State} {fetched : Fetched}
    (h : state.fetched = some fetched) :
    (promote isAncestor state).files = fetched.files ∧
      (promote isAncestor state).fetched = none ∧
      (promote isAncestor state).pending = state.pending := by
  unfold promote
  rw [h]
  exact ⟨rfl, rfl, rfl⟩

lemma lookup_eraseAll (paths : List Path) (files : Table FileRecord) (p : Path) :
    (paths.foldl (fun files path => files.erase path) files).lookup p =
      if p ∈ paths then none else files.lookup p := by
  induction paths generalizing files with
  | nil => simp
  | cons path paths ih =>
    rw [List.foldl_cons, ih]
    by_cases hp : p = path
    · subst hp
      simp [lookup_erase]
    · simp [hp, lookup_erase_ne hp]

lemma lookup_settled (pending : PendingPush) (files : Table FileRecord) (p : Path) :
    (pending.settled files).lookup p = if p ∈ pending.deletedPaths then none
      else (pending.upsertFiles.lookup p).or (files.lookup p) := by
  unfold PendingPush.settled
  rw [lookup_eraseAll]
  congr 1
  by_cases hp : p ∈ pending.upsertFiles
  · obtain ⟨r, hr⟩ := mem_iff.1 hp
    rw [lookup_union_left hp, hr, Option.some_or]
  · rw [lookup_union_right hp, lookup_eq_none.2 hp, Option.none_or]

end LibrePaper.Sync
