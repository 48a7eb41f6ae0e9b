import LibrePaper.Log.Bookkeeping
import LibrePaper.Log.Shown

/-!
# Compaction

A base is activated from a snapshot at a log vector while rows keep arriving. A step
leaves the base and the rows alone, adds one row, or moves the base onto a snapshot and
deletes the rows that it covers.
-/
namespace LibrePaper.Log
open Library List Option

set_option linter.unusedSectionVars false

variable {V K D : Type} [SemilatticeSup V] [OrderBot V] {P : Platform V K D}

/-- The updates that the holder of the gate may still write or reply with satisfy `ok`. -/
def Gate.Carries (ok : List UInt8 → Prop) : Gate P → Prop
  | .flushing f => ∀ b ∈ f.attempt.row.batches, ok b.bytes
  | .joined r => ∀ bytes ∈ r.buffer, ok bytes
  | .idle => True
  | .resolving _ => True
  | .written _ _ => True
  | .joining _ => True

/-- Every update of the rows, the buffer, an unanswered attempt and the gate satisfies
`ok`. -/
structure Sys.Carries (s : Sys P) (ok : List UInt8 → Prop) : Prop where
  rows : ∀ r ∈ s.durable.rows, ∀ b ∈ r.batches, ok b.bytes
  buffer : ∀ p ∈ s.inner.buffer, ok p.bytes
  lost : ∀ a ∈ s.lost, ∀ b ∈ a.row.batches, ok b.bytes
  gate : s.gate.Carries ok

/-- The updates that a step brings in from outside. -/
def Op.brings : Op V → List (List UInt8)
  | .ingest _ _ _ _ bytes => [bytes]
  | .command edit _ _ _ => edit.toList.map Prod.snd
  | .otherRow batches => batches.map Batch.bytes
  | _ => []

section Carries

variable {s : Sys P} {ok : List UInt8 → Prop}

lemma Sys.Carries.inner (h : s.Carries ok) {inner : Inner P}
    (hb : ∀ p ∈ inner.buffer, ok p.bytes) : ({ s with inner := inner } : Sys P).Carries ok :=
  ⟨h.rows, hb, h.lost, h.gate⟩

lemma Sys.Carries.regate (h : s.Carries ok) (gate : Gate P) (hg : gate.Carries ok) :
    ({ s with gate := gate } : Sys P).Carries ok :=
  ⟨h.rows, h.buffer, h.lost, hg⟩

lemma Sys.Carries.lose (h : s.Carries ok) {a : Attempt P}
    (ha : ∀ b ∈ a.row.batches, ok b.bytes) :
    ({ s with lost := s.lost ++ [a] } : Sys P).Carries ok := by
  refine ⟨h.rows, h.buffer, fun x hx => ?_, h.gate⟩
  rcases mem_append.1 hx with hx | hx
  · exact h.lost x hx
  · exact mem_singleton.1 hx ▸ ha

lemma Sys.Carries.push (h : s.Carries ok) {batches : List Batch} {vector : V}
    {left : List (Reservation K D)} (hb : ∀ b ∈ batches, ok b.bytes) :
    ({ s with durable := s.durable.push batches vector left } : Sys P).Carries ok := by
  refine ⟨fun r hr => ?_, h.buffer, h.lost, h.gate⟩
  rcases mem_append.1 hr with hr | hr
  · exact h.rows r hr
  · exact mem_singleton.1 hr ▸ hb

lemma Sys.Carries.rebase (h : s.Carries ok) (through : ℕ) (vector : V) (bytes : ℕ) :
    ({ s with durable := s.durable.rebase through vector bytes } : Sys P).Carries ok :=
  ⟨fun r hr => h.rows r (mem_of_mem_filter hr), h.buffer, h.lost, h.gate⟩

lemma Sys.Carries.commit [DecidableEq K] (h : s.Carries ok) {a : Attempt P} {u : Sys P}
    (ha : ∀ b ∈ a.row.batches, ok b.bytes) (hs : s.commit a = some u) : u.Carries ok := by
  obtain ⟨d, hd, rfl⟩ := map_eq_some_iff.1 hs
  obtain ⟨-, left, rfl⟩ := Attempt.write_spec hd
  exact ⟨(h.push ha).rows, h.buffer, h.lost, h.gate⟩

lemma Sys.Carries.attemptOf (h : s.Carries ok) (take : ℕ) :
    ∀ b ∈ (s.inner.attemptOf take).row.batches, ok b.bytes := by
  intro b hb
  rw [Attempt.row, Inner.attemptOf, append_nil] at hb
  obtain ⟨p, hp, rfl⟩ := mem_map.1 hb
  exact h.buffer p (mem_of_mem_take hp)

/-- A command carries what is in the buffer, and its own update. -/
lemma Sys.Carries.commandAttempt {c : Config} (h : s.Carries ok)
    {prepared : Option (Prepared P)} (hp : ∀ p ∈ prepared, ok p.bytes) :
    ∀ b ∈ (s.inner.commandAttempt c prepared).row.batches, ok b.bytes := by
  intro b hb
  rcases mem_append.1 hb with hb | hb
  · obtain ⟨p, hmem, rfl⟩ := mem_map.1 hb
    exact h.buffer p (mem_of_mem_take hmem)
  · obtain ⟨p, hmem, rfl⟩ := mem_map.1 hb
    exact hp p (mem_toList.1 hmem)

end Carries

/-- Whether a request to activate a base reaches storage. -/
def Activation.reaches : Activation → Bool
  | .replied _ => true
  | .failed committed _ => committed

/-- The snapshot that a step makes the base. -/
structure Activated (V : Type) where
  index : ℕ
  snapshot : Snapshot V
  snapshotBytes : ℕ
  shallow : Bool

def Sys.activated (s : Sys P) : Op V → Option (Activated V)
  | .activate i snapshotBytes shallow outcome =>
    match s.gate, s.snapshots[i]? with
    | .idle, some n =>
      if outcome.reaches then
        match s.durable.activateLogBase n.through n.logVector snapshotBytes shallow with
        | .ok (some _) => some ⟨i, n, snapshotBytes, shallow⟩
        | _ => none
      else none
    | _, _ => none
  | _ => none

lemma Sys.activated_spec {s : Sys P} {op : Op V} {a : Activated V}
    (h : s.activated op = some a) : s.gate = .idle ∧ s.snapshots[a.index]? = some a.snapshot ∧
      s.durable.baseThrough ≤ a.snapshot.through := by
  unfold Sys.activated at h
  split at h
  · split at h
    · rename_i n hgate hget
      split_ifs at h
      split at h
      · rename_i d hact
        cases h
        exact ⟨hgate, hget, (Durable.activateLogBase_spec hact).2.1⟩
      · cases h
    · cases h
  · cases h

/-- What a step does to the log. -/
inductive LogStep (s : Sys P) (op : Op V) (t : Sys P) : Prop
  | kept (left : List (Reservation K D)) (hop : s.activated op = none)
      (hlog : t.durable = { s.durable with reservations := left })
  | pushed (batches : List Batch) (vector : V) (left : List (Reservation K D))
      (hop : s.activated op = none) (hlog : t.durable = s.durable.push batches vector left)
  | rebased (a : Activated V) (hop : s.activated op = some a)
      (hlog : t.durable =
        s.durable.rebase a.snapshot.through a.snapshot.logVector a.snapshotBytes)

section Steps

variable [DecidableEq V] [DecidableLE V] [DecidableEq K] [DecidableEq D] {c : Config}
  {s t : Sys P} {op : Op V} {shown : List (Event V)}

/-- Whether a step reads the document from storage. -/
def Op.builds : Op V → Bool
  | .build _ => true
  | _ => false

/-- What a step does to the log; and it carries nothing new but what it brings, has no new
document unless it reads one, and is fenced for good. -/
structure Logs (s : Sys P) (op : Op V) (t : Sys P) : Prop where
  log : LogStep s op t
  carries : ∀ ok : List UInt8 → Prop, s.Carries ok → (∀ bytes ∈ op.brings, ok bytes) →
    t.Carries ok
  cache : op.builds = false → t.inner.cache ≠ none → s.inner.cache ≠ none
  fenced : t.inner.fenced = none → s.inner.fenced = none

lemma Logs.quiet {inner : Inner P} {gate : Gate P} (hop : s.activated op = none)
    (hg : ∀ ok, gate.Carries ok) (hb : inner.buffer = s.inner.buffer)
    (hc : inner.cache = s.inner.cache) (hf : inner.fenced = none → s.inner.fenced = none) :
    Logs s op { s with inner := inner, gate := gate } where
  log := .kept _ hop rfl
  carries := fun ok h _ => (h.inner (hb ▸ h.buffer)).regate gate (hg ok)
  cache := fun _ hcache => hc ▸ hcache
  fenced := hf

omit [DecidableEq V] [DecidableEq K] [DecidableEq D] in
lemma importInto_cache {cache : Option V} {bytes : List UInt8} {kept : Bool}
    (h : importInto P cache bytes kept ≠ none) : cache ≠ none := by
  rintro rfl
  cases kept <;> exact h rfl

lemma Sys.ingest_logs {o : Outside} {socket : ℕ} {peerKey : String} {clientSeq : ℤ}
    {bytes : List UInt8} (hs : s.ingest c o socket peerKey clientSeq bytes = some (t, shown)) :
    Logs s (.ingest o socket peerKey clientSeq bytes) t := by
  have hcases := ingest_cases c o s.durable s.inner socket peerKey clientSeq bytes
  unfold Sys.ingest at hs
  generalize Log.ingest c o s.durable s.inner socket peerKey clientSeq bytes = r at hcases hs
  cases hs
  cases hcases with
  | refused answer left =>
    exact ⟨.kept left rfl rfl, fun _ h _ => ⟨h.rows, h.buffer, h.lost, h.gate⟩, fun _ h => h, id⟩
  | duplicate =>
    exact ⟨.kept _ rfl rfl, fun _ h _ => ⟨h.rows, h.buffer, h.lost, h.gate⟩, fun _ h => h, id⟩
  | empty =>
    exact ⟨.kept _ rfl rfl, fun _ h _ => ⟨h.rows, h.buffer, h.lost, h.gate⟩, fun _ h => h, id⟩
  | appended header hdecode left =>
    refine ⟨.kept left rfl rfl, fun ok h hbrings => ⟨h.rows, fun p hp => ?_, h.lost, h.gate⟩,
      fun _ => importInto_cache, id⟩
    rcases mem_append.1 hp with hp | hp
    · exact h.buffer p hp
    · obtain rfl := mem_singleton.1 hp
      exact hbrings bytes (mem_singleton_self _)

lemma Sys.fence_logs (hop : s.activated op = none) (why : String) :
    Logs s op (s.fence why).1 :=
  .quiet hop (fun _ => trivial) rfl rfl fun h => by cases h

lemma Sys.flush_logs (hs : s.flush = some (t, shown)) : Logs s .flush t := by
  unfold Sys.flush at hs
  split at hs
  · rename_i f hgate hsnap
    cases hs
    unfold Inner.snapshotBuffer at hsnap
    split_ifs at hsnap
    cases hsnap
    exact ⟨.kept _ rfl rfl, fun ok h _ => h.regate _ (h.attemptOf _), fun _ h => h, id⟩
  · cases hs

lemma Sys.flushWritten_logs (hs : s.flushWritten = some (t, shown)) :
    Logs s .flushWritten t := by
  unfold Sys.flushWritten at hs
  split at hs
  · rename_i f hgate
    obtain ⟨u, hu, hst⟩ := map_eq_some_iff.1 hs
    cases hst
    obtain ⟨hinner, -, left, hrow, -⟩ := Sys.commit_spec hu
    refine ⟨.pushed _ _ left rfl hrow, fun ok h _ => ?_, fun _ h => hinner ▸ h, fun h => hinner ▸ h⟩
    have hg := h.gate
    rw [hgate] at hg
    exact (h.commit hg hu).regate _ trivial
  · cases hs

/-- A flush that is given up leaves its attempt behind, when it was sent. -/
lemma Sys.Carries.loseFlight {ok : List UInt8 → Prop} {f : Flight P} (h : s.Carries ok)
    (hgate : s.gate = .flushing f) (sent : Bool) :
    ({ s with lost := if sent then s.lost ++ [f.attempt] else s.lost } : Sys P).Carries ok := by
  cases sent
  · exact h
  · refine h.lose ?_
    have hg := h.gate
    rwa [hgate] at hg

lemma Sys.flushFailed_logs {sent : Bool} (hs : s.flushFailed sent = some (t, shown)) :
    Logs s (.flushFailed sent) t := by
  unfold Sys.flushFailed at hs
  split at hs
  · rename_i f hgate
    cases hs
    exact ⟨.kept _ rfl rfl, fun ok h _ => (h.loseFlight hgate sent).regate _ trivial,
      fun _ h => h, id⟩
  · cases hs

lemma Sys.resolve_logs {sequenceRead rowsRead : Bool}
    (hs : s.resolve sequenceRead rowsRead = some (t, shown)) :
    Logs s (.resolve sequenceRead rowsRead) t := by
  unfold Sys.resolve at hs
  split at hs
  · split at hs
    · cases hs
      exact .quiet rfl (fun _ => trivial) rfl rfl id
    · cases hs
      exact .quiet rfl (fun _ => trivial) rfl rfl id
    · rename_i why _
      cases hs
      exact Sys.fence_logs rfl why
  · cases hs

lemma Sys.flushRetired_logs {full : List ℕ} (hs : s.flushRetired full = some (t, shown)) :
    Logs s (.flushRetired full) t := by
  unfold Sys.flushRetired at hs
  split at hs
  · cases hs
    refine ⟨.kept _ rfl rfl, fun ok h _ => ⟨h.rows, fun p hp => ?_, h.lost, trivial⟩,
      fun _ h => h, id⟩
    exact h.buffer p (mem_of_mem_drop hp)
  · cases hs

lemma Sys.cancel_logs {sent : Bool} (hs : s.cancel sent = some (t, shown)) :
    Logs s (.cancel sent) t := by
  unfold Sys.cancel at hs
  split at hs
  · cases hs
  · rename_i f hgate
    cases hs
    exact ⟨.kept _ rfl rfl, fun ok h _ => (h.loseFlight hgate sent).regate _ trivial,
      fun _ h => h, id⟩
  · cases hs
    exact .quiet rfl (fun _ => trivial) rfl rfl id

lemma Sys.land_logs {i : ℕ} (hs : s.land i = some (t, shown)) : Logs s (.land i) t := by
  unfold Sys.land at hs
  split at hs
  · rename_i a ha
    obtain ⟨u, hu, hst⟩ := map_eq_some_iff.1 hs
    cases hst
    obtain ⟨hinner, -, left, hrow, -⟩ := Sys.commit_spec hu
    refine ⟨.pushed _ _ left rfl hrow, fun ok h _ => ?_, fun _ h => hinner ▸ h, fun h => hinner ▸ h⟩
    obtain ⟨hrows, hbuffer, -, hgate⟩ := h.commit (h.lost a (mem_of_getElem? ha)) hu
    exact ⟨hrows, hbuffer, fun x hx => h.lost x (mem_of_mem_eraseIdx hx), hgate⟩
  · cases hs

lemma Sys.otherRow_logs {batches : List Batch} (hs : s.otherRow batches = some (t, shown)) :
    Logs s (.otherRow batches) t := by
  unfold Sys.otherRow at hs
  split at hs
  · cases hs
    refine ⟨.pushed _ _ _ rfl rfl, fun ok h hbrings => h.push fun b hb => ?_, fun _ h => h, id⟩
    exact hbrings b.bytes (mem_map_of_mem hb)
  · cases hs

lemma Inner.finishCommand_keeps_buffer (inner : Inner P) (full : List ℕ) (imported : Bool)
    (prepared : Option (Prepared P)) (n : ℕ) :
    (inner.finishCommand c full imported prepared n).1.buffer ⊆ inner.buffer := by
  unfold Inner.finishCommand
  dsimp only
  split_ifs
  · exact Subset.refl _
  · cases prepared <;> exact drop_subset _ _

lemma Inner.finishCommand_cache {inner : Inner P} {full : List ℕ} {imported : Bool}
    {prepared : Option (Prepared P)} {n : ℕ}
    (h : (inner.finishCommand c full imported prepared n).1.cache ≠ none) :
    inner.cache ≠ none := by
  unfold Inner.finishCommand at h
  dsimp only at h
  split_ifs at h
  · exact h
  · cases prepared with
    | none => exact h
    | some p => exact importInto_cache h

lemma Inner.finishCommand_fenced {inner : Inner P} {full : List ℕ} {imported : Bool}
    {prepared : Option (Prepared P)} {n : ℕ}
    (h : (inner.finishCommand c full imported prepared n).1.fenced = none) :
    inner.fenced = none := by
  unfold Inner.finishCommand at h
  dsimp only at h
  split_ifs at h
  · exact h
  · cases prepared <;> exact h

lemma Sys.command_logs {edit : Option (ℤ × List UInt8)} {outcome : CommandOutcome}
    {imported : Bool} {full : List ℕ}
    (hs : s.command c edit outcome imported full = some (t, shown)) :
    Logs s (.command edit outcome imported full) t := by
  unfold Sys.command at hs
  split at hs
  · split at hs
    · cases hs
    split at hs
    · cases hs
    split at hs
    · cases hs
    rename_i prepared hprep
    have hok : ∀ ok : List UInt8 → Prop,
        (∀ bytes ∈ (Op.command edit outcome imported full : Op V).brings, ok bytes) →
          ∀ p ∈ prepared, ok p.bytes := by
      intro ok hbrings p hp
      cases edit with
      | none =>
        cases hprep
        cases hp
      | some e => exact prepare_spec hprep p hp ▸ hbrings e.2 (mem_singleton_self _)
    split at hs
    · cases hs
      exact ⟨.kept _ rfl rfl, fun _ h _ => h, fun _ h => h, id⟩
    · cases hs
      refine ⟨.kept _ rfl rfl, fun ok h hbrings => ?_, fun _ h => h, id⟩
      split_ifs
      · exact h.lose (h.commandAttempt (hok ok hbrings))
      · exact h
    · obtain ⟨u, hu, hst⟩ := map_eq_some_iff.1 hs
      cases hst
      split_ifs at hu with hwrote
      · obtain ⟨-, -, left, hrow, -⟩ := Sys.commit_spec hu
        refine ⟨.pushed _ _ left rfl hrow, fun ok h hbrings => ?_,
          fun _ => Inner.finishCommand_cache, Inner.finishCommand_fenced⟩
        refine (h.commit (h.commandAttempt (hok ok hbrings)) hu).inner fun p hp => ?_
        exact h.buffer p (s.inner.finishCommand_keeps_buffer full imported prepared _ hp)
      · cases hu
        refine ⟨.kept _ rfl rfl, fun ok h _ => h.inner fun p hp => ?_,
          fun _ => Inner.finishCommand_cache, Inner.finishCommand_fenced⟩
        exact h.buffer p (s.inner.finishCommand_keeps_buffer full imported prepared _ hp)
  · cases hs

lemma Sys.joinRead_logs {client : V} (hs : s.joinRead client = some (t, shown)) :
    Logs s (.joinRead client) t := by
  unfold Sys.joinRead at hs
  split at hs
  · cases hs
    exact .quiet rfl (fun _ => trivial) rfl rfl id
  · cases hs

lemma Sys.joinRegister_logs {socket : ℕ} {subscriber : Subscriber}
    (hs : s.joinRegister socket subscriber = some (t, shown)) :
    Logs s (.joinRegister socket subscriber) t := by
  unfold Sys.joinRegister at hs
  split at hs
  · rename_i j _
    split_ifs at hs
    · cases hs
      exact .quiet rfl (fun _ => trivial) rfl rfl id
    · cases hs
      refine ⟨.kept _ rfl rfl, fun ok h _ => ⟨h.rows, h.buffer, h.lost, fun bytes hb => ?_⟩,
        fun _ h => h, id⟩
      obtain ⟨p, hp, rfl⟩ := mem_map.1 hb
      exact h.buffer p hp
  · cases hs

lemma Sys.joinReply_logs (hs : s.joinReply = some (t, shown)) : Logs s .joinReply t := by
  unfold Sys.joinReply at hs
  split at hs
  · cases hs
    exact .quiet rfl (fun _ => trivial) rfl rfl id
  · cases hs

lemma Logs.inner {inner : Inner P} (hop : s.activated op = none)
    (hb : inner.buffer = s.inner.buffer)
    (hc : op.builds = false → inner.cache ≠ none → s.inner.cache ≠ none)
    (hf : inner.fenced = none → s.inner.fenced = none) : Logs s op { s with inner := inner } where
  log := .kept _ hop rfl
  carries := fun _ h _ => h.inner (hb ▸ h.buffer)
  cache := hc
  fenced := hf

lemma Sys.build_logs {readable : Bool} (hs : s.build readable = some (t, shown)) :
    Logs s (.build readable) t := by
  unfold Sys.build at hs
  split at hs
  · cases hs
    cases readable <;> exact .inner rfl rfl nofun id
  · cases hs

lemma Sys.snapshot_logs (hs : s.snapshot = some (t, shown)) : Logs s .snapshot t := by
  obtain ⟨n, -, hst⟩ := map_eq_some_iff.1 hs
  cases hst
  exact ⟨.kept _ rfl rfl, fun _ h _ => ⟨h.rows, h.buffer, h.lost, h.gate⟩, fun _ h => h, id⟩

/-- The reads that settle an activation leave the log as storage has it. -/
lemma Sys.reconcile_spec (s : Sys P) (d : Durable V K D) (reread : Bool)
    (isWanted : LogBase V → Bool) :
    let t := (s.reconcile d reread isWanted).1
    t.durable = d ∧ (∀ ok, ({ s with durable := d } : Sys P).Carries ok → t.Carries ok) ∧
      t.inner.cache = s.inner.cache ∧ (t.inner.fenced = none → s.inner.fenced = none) := by
  unfold Sys.reconcile
  dsimp only
  split
  · split
    · split
      · exact ⟨rfl, fun _ h => h.inner h.buffer, rfl, id⟩
      · exact ⟨rfl, fun _ h => h, rfl, id⟩
    · exact ⟨rfl, fun _ h => h, rfl, id⟩
  · exact ⟨rfl, fun _ h => ⟨h.rows, h.buffer, h.lost, trivial⟩, rfl, nofun⟩

lemma Logs.reconcile {reread : Bool} {isWanted : LogBase V → Bool}
    (hop : s.activated op = none) : Logs s op (s.reconcile s.durable reread isWanted).1 :=
  have hspec := s.reconcile_spec s.durable reread isWanted
  ⟨.kept _ hop hspec.1, fun ok h _ => hspec.2.1 ok h, fun _ h => hspec.2.2.1 ▸ h, hspec.2.2.2⟩

/-- Whether a base is the one that holds a snapshot. -/
def Snapshot.isBase (n : Snapshot V) (b : LogBase V) : Bool :=
  decide (b.throughUpdateSequence = n.through ∧ b.vector = n.logVector)

/-- The log under a snapshot. -/
def Sys.based (s : Sys P) (n : Snapshot V) (bytes : ℕ) : Sys P :=
  { s with durable := s.durable.rebase n.through n.logVector bytes }

/-- How an activation ends: noted at once, or settled by reading storage again, which has
the base or has it not. -/
inductive ActivateCases (s : Sys P) (i bytes : ℕ) (shallow : Bool) (n : Snapshot V) (t : Sys P) :
    Activation → Prop
  | noted (reread : Bool)
      (hop : s.activated (.activate i bytes shallow (.replied reread)) =
        some ⟨i, n, bytes, shallow⟩)
      (ht : t = { s.based n bytes with
        inner := { s.inner.noteCompacted ⟨n.through, n.logVector, bytes⟩
            (s.based n bytes).durable with
          cache := if shallow then none else s.inner.cache
          subscribers := if shallow then [] else s.inner.subscribers } }) :
      ActivateCases s i bytes shallow n t (.replied reread)
  | stale (reread : Bool) (b : LogBase V) (hb : s.durable.base = some b)
      (hle : n.through ≤ b.throughUpdateSequence)
      (hop : s.activated (.activate i bytes shallow (.replied reread)) = none)
      (ht : t = (s.reconcile s.durable reread fun b =>
        decide (b.throughUpdateSequence ≥ n.through)).1) :
      ActivateCases s i bytes shallow n t (.replied reread)
  | ahead (reread : Bool) (hahead : s.durable.updateSequence < n.through) :
      ActivateCases s i bytes shallow n t (.replied reread)
  | committed (reread : Bool)
      (hop : s.activated (.activate i bytes shallow (.failed true reread)) =
        some ⟨i, n, bytes, shallow⟩)
      (ht : t = (s.reconcile (s.based n bytes).durable reread n.isBase).1) :
      ActivateCases s i bytes shallow n t (.failed true reread)
  | uncommitted (sent reread : Bool)
      (hop : s.activated (.activate i bytes shallow (.failed sent reread)) = none)
      (ht : t = (s.reconcile s.durable reread n.isBase).1) :
      ActivateCases s i bytes shallow n t (.failed sent reread)

lemma Sys.activate_cases {i bytes : ℕ} {shallow : Bool} {outcome : Activation}
    (hs : s.activate i bytes shallow outcome = some (t, shown)) :
    ∃ n, s.gate = .idle ∧ s.snapshots[i]? = some n ∧
      ActivateCases s i bytes shallow n t outcome := by
  unfold Sys.activate at hs
  split at hs
  · rename_i n hgate hget
    refine ⟨n, hgate, hget, ?_⟩
    split at hs
    · rename_i reread d hact
      obtain ⟨-, -, rfl⟩ := Durable.activateLogBase_spec hact
      refine .noted reread ?_ ((congrArg Prod.fst (some.inj hs)).symm.trans ?_)
      · simp [Sys.activated, hgate, hget, hact, Activation.reaches]
      · cases shallow <;> rfl
    · rename_i reread hact
      obtain ⟨b, hb, hle⟩ := Durable.activateLogBase_stale hact
      exact .stale reread b hb hle (by simp [Sys.activated, hgate, hget, hact])
        (congrArg Prod.fst (some.inj hs)).symm
    · rename_i reread e hact
      refine .ahead reread ?_
      unfold Durable.activateLogBase at hact
      split_ifs at hact
      assumption
    · rename_i reread d hact
      obtain ⟨-, -, rfl⟩ := Durable.activateLogBase_spec hact
      exact .committed reread (by simp [Sys.activated, hgate, hget, hact, Activation.reaches])
        (congrArg Prod.fst (some.inj hs)).symm
    · rename_i sent reread hnot
      refine .uncommitted sent reread ?_ (congrArg Prod.fst (some.inj hs)).symm
      cases sent
      · simp [Sys.activated, hgate, hget, Activation.reaches]
      · simp only [Sys.activated, hgate, hget, Activation.reaches, if_true]
        split
        · rename_i d hact
          exact (hnot d hact rfl).elim
        · rfl
  · cases hs

lemma Sys.activate_logs {i bytes : ℕ} {shallow : Bool} {outcome : Activation} (h : Inv s)
    (hs : s.activate i bytes shallow outcome = some (t, shown)) :
    Logs s (.activate i bytes shallow outcome) t := by
  obtain ⟨n, -, hget, hcases⟩ := Sys.activate_cases hs
  cases hcases with
  | noted reread hop ht =>
    refine ht ▸ ⟨.rebased _ hop rfl, fun _ hc _ => (hc.rebase _ _ _).inner hc.buffer,
      fun _ hcache => ?_, id⟩
    cases shallow
    · exact hcache
    · exact absurd rfl hcache
  | stale reread b hb hle hop ht => exact ht ▸ .reconcile hop
  | ahead reread hahead =>
    have hn := (h.snapshots n (mem_of_getElem? hget)).1
    have hbehind := h.tracks.behind
    omega
  | committed reread hop ht =>
    obtain ⟨hlog, hcarries, hcache, hfenced⟩ :=
      s.reconcile_spec (s.based n bytes).durable reread n.isBase
    exact ht ▸ ⟨.rebased _ hop hlog, fun ok hc _ => hcarries ok (hc.rebase _ _ _),
      fun _ h => hcache ▸ h, hfenced⟩
  | uncommitted sent reread hop ht => exact ht ▸ .reconcile hop

/-- What any step does to the log and to the updates that are carried. -/
lemma step_logs (h : Inv s) (hs : step c s op = some (t, shown)) : Logs s op t := by
  cases op with
  | ingest o socket peerKey clientSeq bytes => exact Sys.ingest_logs hs
  | flush => exact Sys.flush_logs hs
  | flushWritten => exact Sys.flushWritten_logs hs
  | flushFailed sent => exact Sys.flushFailed_logs hs
  | resolve sequenceRead rowsRead => exact Sys.resolve_logs hs
  | flushRetired full => exact Sys.flushRetired_logs hs
  | cancel sent => exact Sys.cancel_logs hs
  | land i => exact Sys.land_logs hs
  | otherRow batches => exact Sys.otherRow_logs hs
  | command edit outcome imported full => exact Sys.command_logs hs
  | joinRead client => exact Sys.joinRead_logs hs
  | joinRegister socket subscriber => exact Sys.joinRegister_logs hs
  | joinReply => exact Sys.joinReply_logs hs
  | unsubscribe socket =>
    cases hs
    exact .inner rfl rfl (fun _ h => h) id
  | broadcast full =>
    cases hs
    exact .inner rfl rfl (fun _ h => h) id
  | build readable => exact Sys.build_logs hs
  | dropCache =>
    cases hs
    exact .inner rfl rfl (fun _ => absurd rfl) id
  | recover =>
    cases hs
    exact .inner rfl rfl (fun _ h => h) id
  | snapshot => exact Sys.snapshot_logs hs
  | activate i bytes shallow outcome => exact Sys.activate_logs h hs

/-- The base does not move backwards and nothing that was covered is dropped. -/
structure Durable.Extends (P : Platform V K D) (d e : Durable V K D) : Prop where
  baseThrough : d.baseThrough ≤ e.baseThrough
  coverage : d.coverage P ≤ e.coverage P

lemma Durable.Extends.trans {d e f : Durable V K D} (h : d.Extends P e)
    (h' : e.Extends P f) : d.Extends P f :=
  ⟨h.baseThrough.trans h'.baseThrough, h.coverage.trans h'.coverage⟩

lemma Inv.activated {a : Activated V} (h : Inv s) (ha : s.activated op = some a) :
    s.durable.baseThrough ≤ a.snapshot.through ∧
      a.snapshot.through ≤ s.durable.updateSequence ∧
      a.snapshot.logVector = s.durable.vectorAt a.snapshot.through := by
  obtain ⟨-, hget, hbase⟩ := Sys.activated_spec ha
  obtain ⟨hthrough, hvec⟩ := h.snapshots _ (mem_of_getElem? hget)
  have hbehind := h.tracks.behind
  exact ⟨hbase, by omega, hvec hbase⟩

lemma LogStep.extends (h : Inv s) (hl : LogStep s op t) : s.durable.Extends P t.durable := by
  cases hl with
  | kept left _ hlog => rw [hlog]; exact ⟨le_rfl, le_rfl⟩
  | pushed batches vector left _ hlog =>
    rw [hlog]
    refine ⟨le_rfl, ?_⟩
    rw [Durable.coverage_push]
    exact le_reach _ _
  | rebased a hop hlog =>
    obtain ⟨hbase, hhead, hvec⟩ := h.activated hop
    rw [hlog]
    exact ⟨hbase, (h.durable.coverage_rebase hbase hhead hvec).ge⟩

lemma Run.extends (h : Inv s) (hrun : Run c s shown t) : s.durable.Extends P t.durable ∧
    Inv t := by
  induction hrun with
  | refl => exact ⟨⟨le_rfl, le_rfl⟩, h⟩
  | step op _ hstep ih =>
    exact ⟨ih.1.trans ((step_logs ih.2 hstep).log.extends ih.2), ih.2.step hstep⟩

/-- The counters of the sequencer are those of the log. -/
structure Counts (inner : Inner P) (d : Durable V K D) : Prop where
  rowBytes : inner.rowBytes = d.uncompactedBytes
  uncompactedCount : inner.uncompactedCount = d.rows.length

lemma Sys.reconcile_counts (s : Sys P) (d : Durable V K D) (reread : Bool)
    (isWanted : LogBase V → Bool) :
    let r := (s.reconcile d reread isWanted).1
    r.inner.fenced.isSome ∨ Counts r.inner r.durable ∨
      reread = true ∧ (∀ b ∈ d.base, isWanted b = false) ∧ r = { s with durable := d } := by
  unfold Sys.reconcile
  dsimp only
  split
  · rename_i hread
    split
    · rename_i b hb
      split
      · exact .inr (.inl ⟨rfl, rfl⟩)
      · rename_i hwanted
        refine .inr (.inr ⟨hread, fun b' hb' => ?_, rfl⟩)
        obtain rfl := some.inj (hb.symm.trans hb')
        exact Bool.eq_false_iff.2 hwanted
    · rename_i hnone
      refine .inr (.inr ⟨hread, fun b hb => ?_, rfl⟩)
      cases hnone.symm.trans hb
  · exact .inl rfl

/-- After an activation the counters agree, the sequencer is fenced, or nothing at all
has happened. -/
lemma Sys.activate_counts {i bytes : ℕ} {shallow : Bool} {outcome : Activation}
    (h : Inv s) (hs : s.activate i bytes shallow outcome = some (t, shown)) :
    t.inner.fenced.isSome ∨ Counts t.inner t.durable ∨
      s.activated (.activate i bytes shallow outcome) = none ∧
        (∃ sent, outcome = .failed sent true) ∧ t = s := by
  obtain ⟨n, -, hget, hcases⟩ := Sys.activate_cases hs
  cases hcases with
  | noted reread hop ht => exact .inr (.inl (ht ▸ ⟨rfl, rfl⟩))
  | stale reread b hb hle hop ht =>
    subst ht
    rcases s.reconcile_counts s.durable reread _ with hf | hc | ⟨-, hwanted, -⟩
    · exact .inl hf
    · exact .inr (.inl hc)
    · simpa [hle] using hwanted b hb
  | ahead reread hahead =>
    have hn := (h.snapshots n (mem_of_getElem? hget)).1
    have hbehind := h.tracks.behind
    omega
  | committed reread hop ht =>
    subst ht
    rcases s.reconcile_counts (s.based n bytes).durable reread n.isBase
      with hf | hc | ⟨-, hwanted, -⟩
    · exact .inl hf
    · exact .inr (.inl hc)
    · simpa [Snapshot.isBase] using hwanted _ rfl
  | uncommitted sent reread hop ht =>
    subst ht
    rcases s.reconcile_counts s.durable reread n.isBase with hf | hc | ⟨hread, -, heq⟩
    · exact .inl hf
    · exact .inr (.inl hc)
    · exact .inr (.inr ⟨hop, ⟨sent, by rw [hread]⟩, heq⟩)

/-- An activation leaves the log alone or moves its base. -/
lemma Sys.activate_durable {i bytes : ℕ} {shallow : Bool} {outcome : Activation} (h : Inv s)
    (hs : s.activate i bytes shallow outcome = some (t, shown)) :
    t.durable = s.durable ∨ ∃ n : Snapshot V, s.durable.baseThrough ≤ n.through ∧
      n.through ≤ s.durable.updateSequence ∧ n.logVector = s.durable.vectorAt n.through ∧
        t.durable = s.durable.rebase n.through n.logVector bytes := by
  obtain ⟨n, -, hget, hcases⟩ := Sys.activate_cases hs
  cases hcases with
  | noted reread hop ht =>
    obtain ⟨hbase, hhead, hvec⟩ := h.activated hop
    exact .inr ⟨n, hbase, hhead, hvec, ht ▸ rfl⟩
  | stale reread b hb hle hop ht => exact .inl (ht ▸ (s.reconcile_spec _ _ _).1)
  | ahead reread hahead =>
    have hn := (h.snapshots n (mem_of_getElem? hget)).1
    have hbehind := h.tracks.behind
    omega
  | committed reread hop ht =>
    obtain ⟨hbase, hhead, hvec⟩ := h.activated hop
    exact .inr ⟨n, hbase, hhead, hvec, ht ▸ (s.reconcile_spec _ _ _).1⟩
  | uncommitted sent reread hop ht => exact .inl (ht ▸ (s.reconcile_spec _ _ _).1)

/-- An activation leaves what the log covers as it was, with the rows that the base does
not cover. -/
lemma Sys.activate_preserves {i bytes : ℕ} {shallow : Bool} {outcome : Activation}
    (h : Inv s) (hs : s.activate i bytes shallow outcome = some (t, shown)) :
    t.durable.coverage P = s.durable.coverage P ∧
      t.durable.rows = s.durable.logRows t.durable.baseThrough none ∧
      t.durable.baseVector = s.durable.vectorAt t.durable.baseThrough := by
  rcases Sys.activate_durable h hs with hlog | ⟨n, hbase, hhead, hvec, hlog⟩
  · rw [hlog]
    refine ⟨rfl, ?_, ?_⟩
    · rw [h.durable.logRows _ (by simp), Nat.sub_self, drop_zero]
    · rw [Durable.vectorAt, Nat.sub_self, take_zero, endVector]
  · rw [hlog]
    refine ⟨h.durable.coverage_rebase hbase hhead hvec, ?_, hvec⟩
    exact h.durable.rebase_rows.trans (h.durable.logRows _ (by simp)).symm

/-- In every run the base does not move backwards and nothing that the log covers is
dropped. An activation, whatever storage answers, leaves what the log covers as it was,
in a base and the rows after it; and the sequencer then knows of the base, and of the row
bytes and the row count unless nothing was activated and nothing noted, or is fenced. -/
theorem compaction_preserves (h : Reachable c s) :
    (∀ shown t, Run c s shown t → s.durable.Extends P t.durable) ∧
    ∀ i bytes shallow outcome t shown,
      step c s (.activate i bytes shallow outcome) = some (t, shown) →
        (t.durable.coverage P = s.durable.coverage P ∧
          t.durable.rows = s.durable.logRows t.durable.baseThrough none ∧
          t.durable.baseVector = s.durable.vectorAt t.durable.baseThrough) ∧
        (t.inner.fenced.isSome ∨
          (t.inner.hasBase = t.durable.base.isSome ∧ t.inner.baseVector = t.durable.baseVector) ∧
          (Counts t.inner t.durable ∨
            s.activated (.activate i bytes shallow outcome) = none ∧
              (∃ sent, outcome = .failed sent true) ∧ t = s)) := by
  refine ⟨fun shown t hrun => (hrun.extends h.inv).1, fun i bytes shallow outcome t shown hs => ?_⟩
  refine ⟨Sys.activate_preserves h.inv hs, ?_⟩
  cases hf : t.inner.fenced with
  | some why => exact .inl rfl
  | none =>
    obtain ⟨hvec, hhas⟩ := (h.inv.step hs).tracks.base hf
    rcases Sys.activate_counts h.inv hs with hfenced | hcounts
    · rw [hf] at hfenced
      cases hfenced
    · exact .inr ⟨⟨hhas, hvec⟩, hcounts⟩

/-- A row is written without an answer between a snapshot and its activation. -/
def sampleSnapshot : List (Op ℕ) :=
  [.ingest sampleOutside 7 "7" 1 [0, 1], .flush, .flushWritten, .flushRetired [], .build true,
    .snapshot, .ingest sampleOutside 7 "7" 2 [1, 2], .flush, .flushFailed true, .land 0,
    .resolve false false]

/-- The snapshot becomes the base without an answer. -/
def sampleActivated : Op ℕ := .activate 0 9 false (.failed true true)

theorem compaction_preserves_snapshot :
    ((step sampleConfig ((sampleAfter sampleSnapshot).get rfl) sampleActivated).get
      rfl).1.durable.coverage samplePlatform = 2 :=
  ((compaction_preserves (sampleAfter_reachable sampleSnapshot rfl)).2 0 9 false
    (.failed true true) _ _ rfl).1.1

/-- An activation that did not happen leaves the counters behind a row that the sequencer
does not know of. -/
theorem uncommitted_behind : ∃ s t : Sys samplePlatform, ∃ shown, Reachable sampleConfig s ∧
    step sampleConfig s (.activate 0 9 false (.failed false true)) = some (t, shown) ∧
      t.inner.fenced = none ∧ t.inner.uncompactedCount ≠ t.durable.rows.length :=
  ⟨_, _, _, sampleAfter_reachable sampleSnapshot rfl, rfl, rfl, by decide⟩

end Steps

end LibrePaper.Log
