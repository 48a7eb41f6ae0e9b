import LibrePaper.Sync.State

/-!
# The agreed baseline

A repository and the project agree on files in two ways: the server applies a push, and git
merges a version that was read from the project. Every agreement is about one state of the
project, and the files of the sync state are compared with the newest agreement of each path.
-/
namespace LibrePaper.Sync
open Source List

/-- An agreement on the files as they stood when the project had changed `time` times; it
says nothing of the paths without a record. -/
structure Agreement where
  time : ℕ
  records : Path → Option (Option FileRecord)

/-- A record and the time of the agreement it is from. -/
structure Stamped where
  time : ℕ
  record : Option FileRecord
deriving DecidableEq

/-- The newer of two records. -/
def Stamped.put (s : Stamped) (time : ℕ) (record : Option FileRecord) : Stamped :=
  if s.time ≤ time then ⟨time, record⟩ else s

/-- What an agreement makes of the newest record of a path. -/
def Agreement.update (p : Path) (s : Stamped) (a : Agreement) : Stamped :=
  match a.records p with
  | some record => s.put a.time record
  | none => s

/-- The newest record of a path, from the agreements in the order they were made in and the
files of the start. -/
def newest (start : Table FileRecord) (agreements : List Agreement) (p : Path) : Stamped :=
  agreements.foldl (Agreement.update p) ⟨0, start.lookup p⟩

lemma newest_snoc (start : Table FileRecord) (agreements : List Agreement) (a : Agreement)
    (p : Path) : newest start (agreements ++ [a]) p = a.update p (newest start agreements p) := by
  unfold newest
  rw [foldl_append]
  rfl

/-- The agreement on a whole version of the project. -/
def onVersion (time : ℕ) (files : Table FileRecord) : Agreement where
  time := time
  records := fun p => some (files.lookup p)

/-- The agreement on the paths of a push. -/
def onPush (time : ℕ) (pending : PendingPush) : Agreement where
  time := time
  records := fun p =>
    if p ∈ pending.deletedPaths then some none else (pending.upsertFiles.lookup p).map some

/-- A linked repository. `rev` is its checked out commit, `web` the files of the project with
the number of changes to them so far, and `applied` the requests that the server has applied
with the change they made. `readAt` and `agreements` only record what happened: when the
fetched version was read, and what was agreed. -/
structure Repository where
  web : Table FileRecord
  clock : ℕ
  applied : List (String × ℕ)
  rev : Option String
  state : State
  readAt : ℕ
  agreements : List Agreement

/-- The change that a request made. -/
def Repository.appliedAt (r : Repository) (key : String) : Option ℕ :=
  (r.applied.find? fun change => change.1 = key).map (·.2)

/-- What happens to a repository, one step at a time. -/
inductive Action where
  /-- Somebody changes the project. -/
  | edit (web : Table FileRecord)
  /-- The person commits, merges or checks out. -/
  | checkout (rev : Option String)
  /-- A pull reads the project. -/
  | fetch (found : Discovery) (taken : Taken)
  /-- A push saves what it is about to post. -/
  | post (pending : PendingPush)
  /-- The server applies what is posted; the answer may get lost. -/
  | serve
  /-- The answer, perhaps to the request posted again, is that it was applied. -/
  | accept (sha : String) (sequence : ℤ)
  /-- The answer is that it was refused. -/
  | refuse (outcome : PushOutcome)
  /-- A fetched version that git has merged becomes the base. -/
  | promote

/-- A fetch holds files of the project, less those that the rules leave out. -/
def Taken.readFrom (taken : Taken) (web : Table FileRecord) : Bool :=
  decide (∀ p ∈ taken.held.keys, taken.held.lookup p = web.lookup p)

/-- A step; `isAncestor` is what git says of two commits. A pull and a promotion wait until no
push is pending. -/
def step (isAncestor : String → String → Bool) (r : Repository) : Action → Option Repository
  | .edit web => some { r with web := web, clock := r.clock + 1 }
  | .checkout rev => some { r with rev := rev }
  | .fetch found taken =>
    if r.state.pending.isNone && taken.readFrom r.web then
      some { r with
        state := r.state.fetch found taken
        readAt := if taken.tip.isSome && !taken.commits.isEmpty then r.clock else r.readAt }
    else none
  | .post pending =>
    if r.state.pending.isNone && (r.appliedAt pending.requestKey).isNone then
      some { r with state := { r.state with pending := some pending } }
    else none
  | .serve =>
    match r.state.pending with
    | none => none
    | some pending =>
      match r.appliedAt pending.requestKey with
      | some _ => none
      | none => some { r with
          web := pending.settled r.web
          clock := r.clock + 1
          applied := r.applied ++ [(pending.requestKey, r.clock + 1)] }
  | .accept sha sequence =>
    match r.state.pending with
    | none => none
    | some pending =>
      match r.appliedAt pending.requestKey with
      | none => none
      | some time => some { r with
          state := (settlePending r.state pending (.accepted sha sequence)).1
          agreements := r.agreements ++ [onPush time pending] }
  | .refuse outcome =>
    match r.state.pending with
    | none => none
    | some pending =>
      match r.appliedAt pending.requestKey with
      | some _ => none
      | none => some { r with
          state := (settlePending r.state pending (.refused outcome)).1 }
  | .promote =>
    match r.state.pending, r.state.fetched with
    | none, some fetched =>
      if merged isAncestor r.rev r.state then
        some { r with
          state := promote isAncestor r.state
          agreements := r.agreements ++ [onVersion r.readAt fetched.files] }
      else none
    | _, _ => none

/-- A repository at its start: the files it is linked with are agreed on. -/
structure Starts (r : Repository) : Prop where
  fetched : r.state.fetched = none
  pending : r.state.pending = none
  applied : r.applied = []
  readAt : r.readAt ≤ r.clock
  agreements : r.agreements = []

/-- The files of the state are the newest that were agreed on, path by path. -/
def Current (start : Table FileRecord) (r : Repository) : Prop :=
  ∀ p, r.state.files.lookup p = (newest start r.agreements p).record

/-- The fetched version has, on every path, the record of the pushes since it was read. -/
def Fresh (start : Table FileRecord) (r : Repository) : Prop :=
  ∀ fetched, r.state.fetched = some fetched → ∀ p,
    r.readAt < (newest start r.agreements p).time →
      fetched.files.lookup p = (newest start r.agreements p).record

/-- A run that promotes a fetched version only when it is fresh. -/
inductive FreshRun (isAncestor : String → String → Bool) (start : Repository) :
    Repository → Prop where
  | start : FreshRun isAncestor start start
  | step {r r' : Repository} (action : Action) : FreshRun isAncestor start r →
      (action = .promote → Fresh start.state.files r) →
      Sync.step isAncestor r action = some r' → FreshRun isAncestor start r'

lemma time_put (s : Stamped) (time : ℕ) (record : Option FileRecord) :
    (s.put time record).time = max s.time time := by
  unfold Stamped.put
  split_ifs with h
  · exact (max_eq_right h).symm
  · exact (max_eq_left (le_of_not_ge h)).symm

variable {p : Path} {s : Stamped} {a : Agreement} {n time : ℕ} {r r' : Repository} {key : String}
  {start : Table FileRecord} {isAncestor : String → String → Bool}

lemma time_update_le (hs : s.time ≤ n) (ha : a.time ≤ n) : (a.update p s).time ≤ n := by
  unfold Agreement.update
  split
  · rw [time_put]
    exact max_le hs ha
  · exact hs

lemma update_newer (record : Option FileRecord) (hr : a.records p = some record)
    (h : s.time ≤ a.time) : (a.update p s).record = record := by
  unfold Agreement.update Stamped.put
  rw [hr]
  dsimp only
  rw [if_pos h]

lemma update_older (h : a.time < s.time) : a.update p s = s := by
  unfold Agreement.update Stamped.put
  split
  · rw [if_neg (not_le.2 h)]
  · rfl

lemma update_silent (h : a.records p = none) : a.update p s = s := by
  unfold Agreement.update
  rw [h]

/-- What holds along a fresh run: no agreement is about a later state of the project, and the
one on a pending push will be the newest. -/
structure Agreed (start : Table FileRecord) (r : Repository) : Prop where
  current : Current start r
  past : ∀ p, (newest start r.agreements p).time ≤ r.clock
  applied : ∀ change ∈ r.applied, change.2 ≤ r.clock
  readAt : r.readAt ≤ r.clock
  pending : ∀ push, r.state.pending = some push → ∀ time,
    r.appliedAt push.requestKey = some time → ∀ p, (newest start r.agreements p).time ≤ time

lemma appliedAt_mem (h : r.appliedAt key = some time) : (key, time) ∈ r.applied := by
  obtain ⟨change, hfind, rfl⟩ := Option.map_eq_some_iff.1 h
  have hkey : change.1 = key := by simpa using find?_some hfind
  subst hkey
  exact mem_of_find?_eq_some hfind

lemma appliedAt_snoc {applied : List (String × ℕ)} (hnone : r.appliedAt key = none)
    (happlied : applied = r.applied ++ [(key, n)])
    (h : (applied.find? fun change => change.1 = key).map (·.2) = some time) : time = n := by
  have hfind : r.applied.find? (fun change => change.1 = key) = none := Option.map_eq_none_iff.1 hnone
  rw [happlied, find?_append, hfind, Option.none_or] at h
  simpa using h.symm

/-- The files of the state after a push is accepted at a time that no agreement is newer
than. -/
lemma Current.push {files : Table FileRecord} {agreements : List Agreement} {push : PendingPush}
    (h : ∀ p, files.lookup p = (newest start agreements p).record)
    (htime : ∀ p, (newest start agreements p).time ≤ time) (p : Path) :
    (push.settled files).lookup p = (newest start (agreements ++ [onPush time push]) p).record := by
  rw [newest_snoc, lookup_settled]
  by_cases hdel : p ∈ push.deletedPaths
  · rw [if_pos hdel]
    refine (update_newer none ?_ (htime p)).symm
    exact if_pos hdel
  · rw [if_neg hdel]
    cases hup : push.upsertFiles.lookup p with
    | some record =>
      refine (update_newer (some record) ?_ (htime p)).symm
      exact (if_neg hdel).trans (by rw [hup]; rfl)
    | none =>
      rw [update_silent, Option.none_or]
      · exact h p
      · exact (if_neg hdel).trans (by rw [hup]; rfl)

/-- One fresh step. -/
lemma Agreed.step {action : Action} (h : Agreed start r)
    (hfresh : action = .promote → Fresh start r) (hstep : Sync.step isAncestor r action = some r') :
    Agreed start r' := by
  have hlater : ∀ p, (newest start r.agreements p).time ≤ r.clock + 1 :=
    fun p => Nat.le_succ_of_le (h.past p)
  have happlied : ∀ change ∈ r.applied, change.2 ≤ r.clock + 1 :=
    fun change hc => Nat.le_succ_of_le (h.applied change hc)
  cases action with
  | edit web =>
    cases hstep
    exact ⟨h.current, hlater, happlied, Nat.le_succ_of_le h.readAt, h.pending⟩
  | checkout rev =>
    cases hstep
    exact ⟨h.current, h.past, h.applied, h.readAt, h.pending⟩
  | fetch found taken =>
    unfold Sync.step at hstep
    dsimp only at hstep
    split_ifs at hstep with hif hmade
    all_goals
      cases hstep
      have hnone : r.state.pending = none := by simp_all
      refine ⟨fun p => ?_, h.past, h.applied, ?_, fun push hpush => ?_⟩
      · exact (congrArg (·.lookup p) (fetch_files _ _ _)).trans (h.current p)
    · exact le_rfl
    · exact absurd ((fetch_pending _ _ _).symm.trans hpush) (by rw [hnone]; exact nofun)
    · exact h.readAt
    · exact absurd ((fetch_pending _ _ _).symm.trans hpush) (by rw [hnone]; exact nofun)
  | post pending =>
    unfold Sync.step at hstep
    dsimp only at hstep
    split_ifs at hstep with hif
    cases hstep
    have hnone : r.appliedAt pending.requestKey = none := by simp_all
    refine ⟨h.current, h.past, h.applied, h.readAt, fun push hpush time htime => ?_⟩
    cases hpush
    exact absurd (hnone.symm.trans htime) nofun
  | serve =>
    unfold Sync.step at hstep
    dsimp only at hstep
    split at hstep
    · cases hstep
    · rename_i pending hpending
      split at hstep
      · cases hstep
      · rename_i hnone
        cases hstep
        refine ⟨h.current, hlater, fun change hc => ?_, Nat.le_succ_of_le h.readAt,
          fun push hpush time htime p => ?_⟩
        · rcases mem_append.1 hc with hc | hc
          · exact happlied change hc
          · obtain rfl := mem_singleton.1 hc
            exact le_rfl
        · obtain rfl := Option.some_inj.1 (hpending.symm.trans hpush)
          obtain rfl := appliedAt_snoc hnone rfl htime
          exact hlater p
  | accept sha sequence =>
    unfold Sync.step at hstep
    dsimp only at hstep
    split at hstep
    · cases hstep
    · rename_i pending hpending
      split at hstep
      · cases hstep
      · rename_i time htime
        cases hstep
        have hle : time ≤ r.clock := h.applied _ (appliedAt_mem htime)
        refine ⟨Current.push h.current (h.pending pending hpending time htime), fun p => ?_,
          h.applied, h.readAt, nofun⟩
        rw [newest_snoc]
        exact time_update_le (h.past p) hle
  | refuse outcome =>
    unfold Sync.step at hstep
    dsimp only at hstep
    split at hstep
    · cases hstep
    · split at hstep
      · cases hstep
      · cases hstep
        exact ⟨h.current, h.past, h.applied, h.readAt, nofun⟩
  | promote =>
    unfold Sync.step at hstep
    dsimp only at hstep
    split at hstep
    · rename_i fetched hpending hfetched
      split_ifs at hstep
      cases hstep
      obtain ⟨hfiles, -, hkept⟩ := promote_fetched isAncestor hfetched
      refine ⟨fun p => ?_, fun p => ?_, h.applied, h.readAt, fun push hpush => ?_⟩
      · dsimp only
        rw [hfiles, newest_snoc]
        rcases le_or_gt (newest start r.agreements p).time r.readAt with hle | hlt
        · exact (update_newer _ rfl hle).symm
        · rw [update_older hlt]
          exact hfresh rfl fetched hfetched p hlt
      · rw [newest_snoc]
        exact time_update_le (h.past p) h.readAt
      · exact absurd (hkept.symm.trans hpush) (by rw [hpending]; exact nofun)
    · cases hstep

/-- A promotion of a version that is not fresh leaves the files behind an agreement. -/
lemma not_current_promote (hfresh : ¬ Fresh start r)
    (hstep : Sync.step isAncestor r .promote = some r') : ¬ Current start r' := by
  intro hcurrent
  unfold Sync.step at hstep
  dsimp only at hstep
  split at hstep
  · rename_i fetched hpending hfetched
    split_ifs at hstep
    cases hstep
    refine hfresh fun other hother p hlt => ?_
    obtain rfl := Option.some_inj.1 (hfetched.symm.trans hother)
    have hp := hcurrent p
    dsimp only at hp
    rwa [(promote_fetched isAncestor hfetched).1, newest_snoc, update_older hlt] at hp
  · cases hstep

lemma FreshRun.agreed {start : Repository} (hstart : Starts start)
    (h : FreshRun isAncestor start r) : Agreed start.state.files r := by
  induction h with
  | start =>
    have hnew : ∀ p, newest start.state.files start.agreements p =
        ⟨0, start.state.files.lookup p⟩ := by
      intro p
      rw [hstart.agreements]
      rfl
    refine ⟨fun p => by rw [hnew], fun p => by rw [hnew]; exact Nat.zero_le _, ?_, ?_, ?_⟩
    · rw [hstart.applied]
      exact nofun
    · exact hstart.readAt
    · rw [hstart.pending]
      exact nofun
  | step action _ hfresh hstep ih => exact ih.step hfresh hstep

/-- In a run that promotes a fetched version only when it has the records of the pushes since
it was read, the files of the state are in every state reached the newest that were agreed
on; a promotion that does not meet this ends with older ones. -/
theorem baseline_current (isAncestor : String → String → Bool) {start : Repository}
    (hstart : Starts start) :
    (∀ r, FreshRun isAncestor start r → Current start.state.files r) ∧
      ∀ r r', FreshRun isAncestor start r → ¬ Fresh start.state.files r →
        Sync.step isAncestor r .promote = some r' → ¬ Current start.state.files r' :=
  ⟨fun _ h => (h.agreed hstart).current, fun _ _ _ hfresh hstep =>
    not_current_promote hfresh hstep⟩

/-- A repository with one file, checked out where it was linked. -/
def linked : Repository where
  web := Finmap.singleton ['a'] ⟨.text, "one"⟩
  clock := 0
  applied := []
  rev := some "linked"
  state := { State.new with
    head := some "linked"
    files := Finmap.singleton ['a'] ⟨.text, "one"⟩
    synced := {['a']} }
  readAt := 0
  agreements := []

/-- The commits of the person are `linked`, `edited` and `merged`, and the one of the fetch is
`fetched`. -/
def commitGraph (older newer : String) : Bool :=
  older == newer || older == "linked" || newer == "merged"

/-- The project gets a second file. -/
def grown : Table FileRecord :=
  (Finmap.singleton ['a'] ⟨.text, "one"⟩ : Table FileRecord).insert ['b'] ⟨.text, "new"⟩

/-- The person edits the first file and pushes it. -/
def edited : PendingPush where
  requestKey := "key"
  actor := "actor"
  request := {
    operation := ⟨['s', 'y', 'n', 'c'], ['k', 'e', 'y']⟩
    baseTree := ""
    consistency := .unchangedDependencies
    dependencies := [⟨['a'], [], "one", 0, 0, []⟩]
    patches := [⟨['a'], [], 0, 3, ['o', 'n', 'e'], ['t', 'w', 'o']⟩]
    create := []
    delete := []
    putBinary := [] }
  upsertFiles := Finmap.singleton ['a'] ⟨.text, "two"⟩
  deletedPaths := []
  commit := some "edited"

/-- The project is fetched, a push of the other file is accepted, and the fetched version is
merged by hand and promoted. -/
def fetchPushMerge : List Action :=
  [.edit grown, .fetch ⟨[], false, some "head"⟩ ⟨["fetched"], some "fetched", grown, {['a'], ['b']}⟩,
    .checkout (some "edited"), .post edited, .serve, .accept "version" 1,
    .checkout (some "merged"), .promote]

/-- The record from before the push is back. -/
theorem baseline_moves_back :
    (fetchPushMerge.foldlM (step commitGraph) linked).map (fun r =>
      (r.state.files.lookup ['a'], newest linked.state.files r.agreements ['a'])) =
        some (some ⟨.text, "one"⟩, ⟨2, some ⟨.text, "two"⟩⟩) := by
  decide

/-- The files after a fetch that is merged and promoted at once. -/
theorem baseline_current_fetched : ∃ r, FreshRun commitGraph linked r ∧
    r.state.files.lookup ['b'] = some ⟨.text, "new"⟩ ∧ Current linked.state.files r := by
  have hrun : FreshRun commitGraph linked _ :=
    (((FreshRun.start.step (.edit grown) nofun rfl).step
      (.fetch ⟨[], false, some "head"⟩ ⟨["fetched"], some "fetched", grown, {['a'], ['b']}⟩)
        nofun rfl).step (.checkout (some "merged")) nofun rfl).step .promote
          (fun _ _ _ p h => absurd h (Nat.not_lt_zero _)) rfl
  exact ⟨_, hrun, rfl, (baseline_current commitGraph ⟨rfl, rfl, rfl, le_rfl, rfl⟩).1 _ hrun⟩

end LibrePaper.Sync
