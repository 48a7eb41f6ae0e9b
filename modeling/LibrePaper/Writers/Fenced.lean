import LibrePaper.Writers.Epochs
import LibrePaper.Writers.Logged

/-!
# Only the current writer changes a log

What each step keeps of the lease, of the log and of the buffers, and where a stale epoch or a torn
read of the head would break it.
-/
namespace LibrePaper.Writers
open Library List Option

namespace Deployment

section Lease
variable {V : Type*} {s s' : Deployment V} {x i a : ℕ} {t : Transaction V}

/-- A step of a sequencer or of an admission. -/
structure Aside (s s' : Deployment V) : Prop where
  database : s'.database = s.database
  processes : s'.processes = s.processes
  claims : s'.claims = s.claims
  transactions : s'.transactions = s.transactions
  sharing : s'.sharing = s.sharing

lemma Epochs.aside (h : s.Epochs) (ha : s.Aside s') : s'.Epochs :=
  h.of_eq (congrArg (·.epoch) ha.database) ha.processes ha.claims ha.transactions ha.sharing

variable {process : ℕ} {matching command : Bool} {body : Body V} {source : Option V} {op : Op V}

lemma aside_readSequence {document : ℕ} (hs : s.readSequence a process document = some s') :
    s.Aside s' := by
  rw [readSequence] at hs
  split at hs <;> cases hs
  exact ⟨rfl, rfl, rfl, rfl, rfl⟩

lemma aside_readLastRow (hs : s.readLastRow a = some s') : s.Aside s' := by
  rw [readLastRow] at hs
  split at hs <;> cases hs
  exact ⟨rfl, rfl, rfl, rfl, rfl⟩

lemma aside_readBase [LE V] [OrderBot V] (hs : s.readBase a i = some s') : s.Aside s' := by
  rw [readBase] at hs
  split at hs <;> cases hs
  exact ⟨rfl, rfl, rfl, rfl, rfl⟩

lemma aside_reply (hs : s.reply i = some s') : s.Aside s' := by
  rw [reply] at hs
  repeat' split at hs
  all_goals cases hs
  exact ⟨rfl, rfl, rfl, rfl, rfl⟩

lemma aside_fail (hs : s.fail i = some s') : s.Aside s' := by
  rw [fail] at hs
  split at hs
  · split at hs <;> cases hs
    exact ⟨rfl, rfl, rfl, rfl, rfl⟩
  · cases hs

lemma aside_map {f : Sequencer V → Sequencer V}
    (hs : ((s.sequencers i).map fun q => s.setSequencer i (f q)) = some s') : s.Aside s' := by
  obtain ⟨q, -, rfl⟩ := map_eq_some_iff.1 hs
  exact ⟨rfl, rfl, rfl, rfl, rfl⟩

lemma aside_readHead (hs : s.readHead i = some s') : s.Aside s' := by
  rw [readHead] at hs
  split at hs
  · split at hs <;> cases hs
    exact ⟨rfl, rfl, rfl, rfl, rfl⟩
  · cases hs

lemma aside_readRow [DecidableEq V] (hs : s.readRow i = some s') : s.Aside s' := by
  rw [readRow] at hs
  split at hs
  · split at hs <;> cases hs
    exact ⟨rfl, rfl, rfl, rfl, rfl⟩
  · cases hs

/-- A batch enters the buffer, by its transaction's outcome or by a reservation that is found. -/
lemma accept_eq (hs : s.accept x matching = some s') :
    ∃ i batch q t e, s.ingests x = some (i, batch) ∧ s.sequencers i = some q ∧
      s.transactions x = some t ∧ (t.phase = .writing e ∨ ∃ done, t.phase = .over e done) ∧
      s' = s.push x i q batch e := by
  rw [accept] at hs
  split at hs
  · next i batch hingest =>
    split at hs
    · next q process body e done hq ht =>
      split at hs <;> cases hs
      exact ⟨i, batch, q, _, e, hingest, hq, ht, .inr ⟨done, rfl⟩, rfl⟩
    · next q process body e hq ht =>
      split at hs <;> cases hs
      exact ⟨i, batch, q, _, e, hingest, hq, ht, .inl rfl, rfl⟩
    · cases hs
  · cases hs

lemma aside_accept (hs : s.accept x matching = some s') : s.Aside s' := by
  obtain ⟨i, batch, q, t, e, -, -, -, -, rfl⟩ := accept_eq hs
  exact ⟨rfl, rfl, rfl, rfl, rfl⟩

lemma Epochs.commit (h : s.Epochs) (hs : s.commit x = some s') : s'.Epochs := by
  rw [Deployment.commit] at hs
  split at hs
  · next process body epoch hx =>
    have hover : ∀ done, (s.finish x ⟨process, body, .writing epoch⟩ (.over epoch done)).Epochs :=
      fun done => h.finish (fun hno => hno.elim) fun _ hno => by cases hno
    split at hs
    · next db hdb =>
      cases hs
      exact (hover true).of_eq (Database.epoch_apply hdb) rfl rfl rfl rfl
    · cases hs
      exact hover false
  · cases hs

lemma Epochs.commits (h : s.Epochs) (hs : s.commit x = some s') :
    ∃ t, s.transactions x = some t ∧ (s.processes t.process).claimed = s.database.epoch := by
  rw [Deployment.commit] at hs
  split at hs
  · next process body epoch hx => exact ⟨_, hx, h.fenced x _ hx trivial⟩
  · cases hs

lemma start_eq (hs : s.start x process body = some s') :
    s' = s.setTransaction x ⟨process, body, .begun⟩ := by
  rw [start] at hs
  split at hs <;> cases hs
  rfl

lemma Epochs.transact [SemilatticeSup V] (h : s.Epochs)
    (hs : s.transact i x command source = some s') : s'.Epochs := by
  rw [Deployment.transact] at hs
  split at hs
  · split at hs
    · obtain ⟨s₁, hstart, rfl⟩ := map_eq_some_iff.1 hs
      exact (h.start hstart).of_eq rfl rfl rfl rfl rfl
    · cases hs
  · cases hs

lemma Epochs.ingest (h : s.Epochs) {batch : Pending V} (hs : s.ingest i x batch = some s') :
    s'.Epochs := by
  rw [Deployment.ingest] at hs
  split at hs
  · split at hs
    · obtain ⟨s₁, hstart, rfl⟩ := map_eq_some_iff.1 hs
      exact (h.start hstart).of_eq rfl rfl rfl rfl rfl
    · cases hs
  · cases hs

lemma Epochs.compact (h : s.Epochs) {replaceEqual : Bool}
    (hs : s.compact i x replaceEqual = some s') : s'.Epochs := by
  rw [Deployment.compact] at hs
  split at hs
  · split at hs
    · exact h.start hs
    · cases hs
  · cases hs

lemma Epochs.clear (h : s.Epochs) (hs : s.clear process x = some s') : s'.Epochs := by
  rw [Deployment.clear] at hs
  split at hs
  · cases hs
  · exact h.start hs

lemma Epochs.step [DecidableEq V] [SemilatticeSup V] [OrderBot V] (h : s.Epochs)
    (hs : s.step op = some s') : s'.Epochs := by
  cases op with
  | tryLock c p => exact h.tryLock hs
  | updateEpoch c => exact h.updateEpoch hs
  | storeEpoch c => exact h.storeEpoch hs
  | loseSession =>
    cases hs
    exact h.of_eq rfl rfl rfl rfl rfl
  | expect x => exact h.expect hs
  | fence x => exact h.fence hs
  | readEpoch x => exact h.readEpoch hs
  | commit x => exact h.commit hs
  | abort x => exact h.abort hs
  | readSequence a p d => exact h.aside (aside_readSequence hs)
  | readLastRow a => exact h.aside (aside_readLastRow hs)
  | readBase a i => exact h.aside (aside_readBase hs)
  | flush i x => exact h.transact hs
  | command i x source => exact h.transact hs
  | reply i => exact h.aside (aside_reply hs)
  | fail i => exact h.aside (aside_fail hs)
  | cancel i => exact h.aside (aside_map hs)
  | readHead i => exact h.aside (aside_readHead hs)
  | readRow i => exact h.aside (aside_readRow hs)
  | closeFenced i => exact h.aside (aside_map hs)
  | ingest i x batch => exact h.ingest hs
  | accept x matching => exact h.aside (aside_accept hs)
  | compact i x replaceEqual => exact h.compact hs
  | clear p x => exact h.clear hs

/-- A step that leaves the tables and the sequencers. -/
structure Steady (s s' : Deployment V) : Prop where
  documents : s'.database.documents = s.database.documents
  reservations : s'.database.reservations = s.database.reservations
  sequencers : s'.sequencers = s.sequencers

/-- A step of the lease, of an open transaction or of an admission, and one that only begins a
transaction. -/
def Lone : Op V → Prop
  | .tryLock .. | .updateEpoch _ | .storeEpoch _ | .loseSession | .expect _ | .fence _
  | .readEpoch _ | .abort _ | .readSequence .. | .readLastRow _ | .ingest .. | .compact ..
  | .clear .. => True
  | _ => False

lemma steady_start (hs : s.start x process body = some s') : s.Steady s' := by
  rw [start_eq hs]
  exact ⟨rfl, rfl, rfl⟩

lemma steady_step [DecidableEq V] [SemilatticeSup V] [OrderBot V] (hs : s.step op = some s')
    (hop : Lone op) : s.Steady s' := by
  cases op with
  | tryLock c p =>
    have hs : s.tryLock c p = some s' := hs
    rw [tryLock] at hs
    split at hs <;> cases hs
    exact ⟨rfl, rfl, rfl⟩
  | updateEpoch c =>
    have hs : s.updateEpoch c = some s' := hs
    rw [updateEpoch] at hs
    repeat' split at hs
    all_goals cases hs
    exact ⟨rfl, rfl, rfl⟩
  | storeEpoch c =>
    have hs : s.storeEpoch c = some s' := hs
    rw [storeEpoch] at hs
    split at hs <;> cases hs
    exact ⟨rfl, rfl, rfl⟩
  | loseSession =>
    cases hs
    exact ⟨rfl, rfl, rfl⟩
  | expect x =>
    have hs : s.expect x = some s' := hs
    rw [expect] at hs
    split at hs <;> cases hs
    exact ⟨rfl, rfl, rfl⟩
  | fence x =>
    have hs : s.fence x = some s' := hs
    rw [fence] at hs
    repeat' split at hs
    all_goals cases hs
    all_goals exact ⟨rfl, rfl, rfl⟩
  | readEpoch x =>
    have hs : s.readEpoch x = some s' := hs
    rw [readEpoch] at hs
    split at hs <;> cases hs
    exact ⟨rfl, rfl, rfl⟩
  | abort x =>
    have hs : s.abort x = some s' := hs
    rw [abort] at hs
    split at hs <;> cases hs
    all_goals exact ⟨rfl, rfl, rfl⟩
  | readSequence a p d =>
    have hs : s.readSequence a p d = some s' := hs
    rw [readSequence] at hs
    split at hs <;> cases hs
    exact ⟨rfl, rfl, rfl⟩
  | readLastRow a =>
    have hs : s.readLastRow a = some s' := hs
    rw [readLastRow] at hs
    split at hs <;> cases hs
    exact ⟨rfl, rfl, rfl⟩
  | ingest i x batch =>
    have hs : s.ingest i x batch = some s' := hs
    rw [ingest] at hs
    split at hs
    · split at hs
      · obtain ⟨s₁, hstart, rfl⟩ := map_eq_some_iff.1 hs
        have hsteady := steady_start hstart
        exact ⟨hsteady.documents, hsteady.reservations, hsteady.sequencers⟩
      · cases hs
    · cases hs
  | compact i x replaceEqual =>
    have hs : s.compact i x replaceEqual = some s' := hs
    rw [compact] at hs
    split at hs
    · split at hs
      · exact steady_start hs
      · cases hs
    · cases hs
  | clear p x =>
    have hs : s.clear p x = some s' := hs
    rw [clear] at hs
    split at hs
    · cases hs
    · exact steady_start hs
  | commit | readBase | flush | command | reply | fail | cancel | readHead | readRow
  | closeFenced | accept => exact hop.elim

lemma database_transact [SemilatticeSup V] (hs : s.transact i x command source = some s') :
    s'.database = s.database := by
  rw [transact] at hs
  split at hs
  · split at hs
    · obtain ⟨s₁, hstart, rfl⟩ := map_eq_some_iff.1 hs
      rw [start_eq hstart]
      rfl
    · cases hs
  · cases hs

/-- Nothing but a commit writes to the tables. -/
lemma tables_step [DecidableEq V] [SemilatticeSup V] [OrderBot V] (hs : s.step op = some s')
    (hop : ∀ x, op ≠ .commit x) :
    s'.database.documents = s.database.documents ∧
      s'.database.reservations = s.database.reservations := by
  have hlone : Lone op → s'.database.documents = s.database.documents ∧
      s'.database.reservations = s.database.reservations := fun h =>
    ⟨(steady_step hs h).documents, (steady_step hs h).reservations⟩
  have hsame : s'.database = s.database → s'.database.documents = s.database.documents ∧
      s'.database.reservations = s.database.reservations := fun h => by
    rw [h]
    exact ⟨rfl, rfl⟩
  cases op with
  | commit x => exact absurd rfl (hop x)
  | readBase a i => exact hsame (aside_readBase hs).database
  | flush i x => exact hsame (database_transact hs)
  | command i x source => exact hsame (database_transact hs)
  | reply i => exact hsame (aside_reply hs).database
  | fail i => exact hsame (aside_fail hs).database
  | cancel i => exact hsame (aside_map hs).database
  | readHead i => exact hsame (aside_readHead hs).database
  | readRow i => exact hsame (aside_readRow hs).database
  | closeFenced i => exact hsame (aside_map hs).database
  | accept x matching => exact hsame (aside_accept hs).database
  | _ => exact hlone trivial

end Lease

section Log
variable {V : Type*} [DecidableEq V] [SemilatticeSup V] [OrderBot V] {s s' : Deployment V}
  {x i a : ℕ}

/-- A step that no stale epoch and no torn read of a head is in. -/
def Spared (s : Deployment V) : Op V → Prop
  | .commit x => ∀ t epoch, s.transactions x = some t → t.body = .clear epoch →
      epoch = s.database.epoch
  | .accept x _ => ∀ t i batch q e, s.transactions x = some t → s.ingests x = some (i, batch) →
      s.sequencers i = some q → (t.phase = .writing e ∨ ∃ done, t.phase = .over e done) →
      e = (s.processes q.process).claimed
  | .readLastRow a => ∀ p d n, s.admissions a = some (.sequence p d n) →
      (s.database.documents d).updateSequence ≤ n + 1
  | .readBase a _ => ∀ p d n, s.admissions a = some (.lastRow p d n none) →
      (s.database.documents d).updateSequence ≤ n + 1
  | _ => True

lemma Logged.step (h : s.Logged) {op : Op V} (hspared : s.Spared op)
    (hs : s.step op = some s') : s'.Logged := by
  cases op with
  | tryLock c p =>
    have hs : s.tryLock c p = some s' := hs
    rw [tryLock] at hs
    split at hs <;> cases hs
    exact h.of_eq rfl rfl rfl rfl
  | updateEpoch c =>
    have hs : s.updateEpoch c = some s' := hs
    rw [updateEpoch] at hs
    repeat' split at hs
    all_goals cases hs
    exact h.of_eq rfl rfl rfl rfl
  | storeEpoch c =>
    have hs : s.storeEpoch c = some s' := hs
    rw [storeEpoch] at hs
    split at hs <;> cases hs
    exact h.of_eq rfl rfl rfl rfl
  | loseSession =>
    cases hs
    exact h.of_eq rfl rfl rfl rfl
  | expect x => exact h.expect hs
  | fence x => exact h.fence hs
  | readEpoch x => exact h.readEpoch hs
  | commit x => exact (h.commit hs).1
  | abort x => exact h.abort hs
  | readSequence a p d => exact h.readSequence hs
  | readLastRow a => exact h.readLastRow hspared hs
  | readBase a i => exact h.readBase hspared hs
  | flush i x => exact h.transact hs
  | command i x source => exact h.transact hs
  | reply i => exact h.reply hs
  | fail i => exact h.fail hs
  | cancel i =>
    obtain ⟨q, hq, rfl⟩ := map_eq_some_iff.1 hs
    exact h.setSequencer (Knows.setCall (h.sequencers i q hq) fun _ hc => by cases hc)
  | readHead i => exact h.readHead hs
  | readRow i => exact h.readRow hs
  | closeFenced i =>
    obtain ⟨q, hq, rfl⟩ := map_eq_some_iff.1 hs
    exact h.setSequencer (Knows.setCall (h.sequencers i q hq) fun _ hc => by cases hc)
  | ingest i x batch => exact h.ingest hs
  | accept x matching => exact h.accept hs
  | compact i x replaceEqual => exact h.compact hs
  | clear p x => exact h.clear hs

/-- A batch's reservation was made under the claim that the batch was buffered under. -/
def Buffers (s : Deployment V) : Prop :=
  ∀ i q, s.sequencers i = some q → ∀ p ∈ q.buffer, p.reservedUnder = p.bufferedUnder

omit [DecidableEq V] [SemilatticeSup V] [OrderBot V] in
lemma Buffers.of_eq (h : s.Buffers) (hs : s'.sequencers = s.sequencers) : s'.Buffers :=
  fun i q hq => h i q (hs ▸ hq)

omit [DecidableEq V] [SemilatticeSup V] [OrderBot V] in
lemma Buffers.setSequencer (h : s.Buffers) {q : Sequencer V}
    (hq : ∀ p ∈ q.buffer, p.reservedUnder = p.bufferedUnder) : (s.setSequencer i q).Buffers := by
  intro j r hr
  have hr := (Function.update_apply ..).symm.trans hr
  split at hr
  · cases hr
    exact hq
  · exact h j r hr

omit [DecidableEq V] [SemilatticeSup V] [OrderBot V] in
lemma Buffers.start (h : s.Buffers) {process : ℕ} {body : Body V}
    (hs : s.start x process body = some s') : s'.Buffers := by
  rw [start_eq hs]
  exact h.of_eq rfl

omit [DecidableEq V] [OrderBot V] in
lemma Buffers.transact (h : s.Buffers) {command : Bool} {source : Option V}
    (hs : s.transact i x command source = some s') : s'.Buffers := by
  rw [Deployment.transact] at hs
  split at hs
  · next q hq =>
    split at hs
    · obtain ⟨s₁, hstart, rfl⟩ := map_eq_some_iff.1 hs
      exact (h.start hstart).setSequencer (h i q hq)
    · cases hs
  · cases hs

omit [DecidableEq V] [SemilatticeSup V] [OrderBot V] in
lemma Buffers.reply (h : s.Buffers) (hs : s.reply i = some s') : s'.Buffers := by
  rw [Deployment.reply] at hs
  split at hs
  · next q hq =>
    repeat' split at hs
    all_goals cases hs
    exact h.setSequencer fun p hp => h i q hq p (mem_of_mem_drop hp)
  · cases hs

omit [DecidableEq V] [SemilatticeSup V] [OrderBot V] in
lemma Buffers.fail (h : s.Buffers) (hs : s.fail i = some s') : s'.Buffers := by
  rw [Deployment.fail] at hs
  split at hs
  · next q hq =>
    split at hs <;> cases hs
    exact h.setSequencer (h i q hq)
  · cases hs

omit [DecidableEq V] [SemilatticeSup V] [OrderBot V] in
lemma Buffers.readHead (h : s.Buffers) (hs : s.readHead i = some s') : s'.Buffers := by
  rw [Deployment.readHead] at hs
  split at hs
  · next q hq =>
    split at hs <;> cases hs
    refine h.setSequencer ?_
    repeat' split
    all_goals exact h i q hq
  · cases hs

omit [SemilatticeSup V] [OrderBot V] in
lemma Buffers.readRow (h : s.Buffers) (hs : s.readRow i = some s') : s'.Buffers := by
  rw [Deployment.readRow] at hs
  split at hs
  · next q hq =>
    split at hs <;> cases hs
    refine h.setSequencer ?_
    repeat' split
    · exact h i q hq
    · exact fun p hp => h i q hq p (mem_of_mem_drop hp)
    · exact h i q hq
  · cases hs

omit [DecidableEq V] [SemilatticeSup V] in
lemma Buffers.readBase [LE V] [OrderBot V] (h : s.Buffers) (hs : s.readBase a i = some s') :
    s'.Buffers := by
  rw [Deployment.readBase] at hs
  split at hs <;> cases hs
  exact (h.setSequencer fun _ hp => absurd hp not_mem_nil).of_eq rfl

omit [DecidableEq V] [SemilatticeSup V] [OrderBot V] in
/-- A batch whose reservation was made under its process's last claim. -/
lemma Buffers.push (h : s.Buffers) {q : Sequencer V} (hq : s.sequencers i = some q)
    (batch : Pending V) : (s.push x i q batch (s.processes q.process).claimed).Buffers := by
  refine Buffers.of_eq (s := s.setSequencer i _) (h.setSequencer fun p hp => ?_) rfl
  rcases mem_append.1 hp with hp | hp
  · exact h i q hq p hp
  · cases mem_singleton.1 hp
    rfl

lemma Buffers.step (h : s.Buffers) {op : Op V} (hspared : s.Spared op)
    (hs : s.step op = some s') : s'.Buffers := by
  cases op with
  | commit x =>
    have hs : s.commit x = some s' := hs
    rw [commit] at hs
    repeat' split at hs
    all_goals cases hs
    all_goals exact h.of_eq rfl
  | readBase a i => exact h.readBase hs
  | flush i x => exact h.transact hs
  | command i x source => exact h.transact hs
  | reply i => exact h.reply hs
  | fail i => exact h.fail hs
  | cancel i =>
    obtain ⟨q, hq, rfl⟩ := map_eq_some_iff.1 hs
    exact h.setSequencer (h i q hq)
  | readHead i => exact h.readHead hs
  | readRow i => exact h.readRow hs
  | closeFenced i =>
    obtain ⟨q, hq, rfl⟩ := map_eq_some_iff.1 hs
    exact h.setSequencer (h i q hq)
  | accept x matching =>
    obtain ⟨i, batch, q, t, e, hingest, hq, ht, hphase, rfl⟩ := accept_eq hs
    cases hspared t i batch q e ht hingest hq hphase
    exact h.push hq batch
  | _ => exact h.of_eq (steady_step hs trivial).sequencers

/-- What every step keeps. -/
structure Kept (s : Deployment V) : Prop where
  epochs : s.Epochs
  logged : s.Logged
  buffers : s.Buffers

omit [DecidableEq V] in
lemma kept_fresh : (fresh : Deployment V).Kept := by
  refine ⟨⟨fun _ => le_rfl, fun _ => le_rfl, ?_, ?_, ?_, ?_⟩,
    ⟨fun d => ⟨rfl, fun n hn => absurd hn (Nat.not_lt_zero n), le_rfl, rfl, ?_, ?_⟩, ?_, ?_, ?_, ?_⟩,
    ?_⟩
  · nofun
  · nofun
  · nofun
  · nofun
  · exact fun _ hr => absurd hr not_mem_nil
  · nofun
  · nofun
  · nofun
  · nofun
  · nofun
  · nofun

lemma Kept.step (h : s.Kept) {op : Op V} (hspared : s.Spared op) (hs : s.step op = some s') :
    s'.Kept :=
  ⟨h.epochs.step hs, h.logged.step hspared hs, h.buffers.step hspared hs⟩

lemma kept_run {ops : List (Op V)} (h : Run step Spared (fresh : Deployment V) ops s) : s.Kept :=
  h.invariant (fun _ _ _ hk hspared => hk.step hspared) kept_fresh

end Log
end Deployment

namespace Document
variable {V : Type*} [SemilatticeSup V] [OrderBot V] {d : Document V}

/-- The rows above the base are numbered without a gap, and each covers what is before it. -/
structure InOrder (d : Document V) : Prop where
  through : d.through ≤ d.updateSequence
  sequences : d.updates.map (·.sequence) =
    List.range' (d.through + 1) (d.updateSequence - d.through)
  rows : ∀ r ∈ d.updates, ∀ r' ∈ d.updates, r'.sequence = r.sequence + 1 → r.vector ≤ r'.vector
  base : ∀ b, d.base = some b → ∀ r ∈ d.updates, r.sequence = b.through + 1 → b.vector ≤ r.vector

lemma Sound.inOrder (h : d.Sound) : d.InOrder := by
  refine ⟨h.through, h.sequences, fun r hr r' hr' hnext => ?_, fun b hb r hr hnext => ?_⟩
  · have hhead := (h.mem_updates hr').2
    rw [h.vectors r hr, h.vectors r' hr', hnext]
    exact h.mono r.sequence (hnext.symm.trans_le hhead)
  · obtain ⟨j, -, hj, -, hvector⟩ := h.base b hb
    rw [hvector, h.vectors r hr]
    exact h.history_le (hj.trans_eq hnext.symm) (h.mem_updates hr).2

end Document

namespace Deployment
variable {V : Type*} [DecidableEq V] [SemilatticeSup V] [OrderBot V] {s s' : Deployment V}

/-- A batch that was buffered under the durable epoch counts on the reservation. -/
def Relies (s : Deployment V) (r : Reservation) : Prop :=
  ∃ i q p, s.sequencers i = some q ∧ p ∈ q.buffer ∧ p.bufferedUnder = s.database.epoch ∧
    r.key = p.durableKey ∧ r.document = q.document ∧ r.epoch = p.reservedUnder

omit [DecidableEq V] in
/-- A clear under the durable epoch keeps what a batch of that epoch relies on. -/
lemma Kept.clear_keeps (h : s.Kept) {x : ℕ} {t : Transaction V} {stale : ℕ}
    (hspared : s.Spared (.commit x)) (hs : s.commit x = some s') (ht : s.transactions x = some t)
    (hbody : t.body = .clear stale) {r : Reservation} (hr : s.Relies r)
    (hmem : r ∈ s.database.reservations) : r ∈ s'.database.reservations := by
  have hstale := hspared t stale ht hbody
  obtain ⟨i, q, p, hq, hp, hunder, -, -, hepoch⟩ := hr
  have hrepoch : r.epoch = stale := by rw [hepoch, h.buffers i q hq p hp, hunder, hstale]
  rw [Deployment.commit, ht] at hs
  obtain ⟨process, body, phase⟩ := t
  cases hbody
  split at hs
  · next heq =>
    cases heq
    cases hs
    exact mem_filter.2 ⟨hmem, decide_eq_true hrepoch⟩
  · cases hs

/-- In every run without a stale clear, a late buffering or a torn read of a head, the tables
change only under the writer's own epoch, every log is in order, and no reservation that is relied
on is cleared. -/
theorem writes_are_fenced {ops : List (Op V)} {op : Op V}
    (hrun : Run step Spared (fresh : Deployment V) ops s) (hspared : s.Spared op)
    (hs : s.step op = some s') :
    (∀ d, (s'.database.documents d).InOrder) ∧
    (s'.database.documents = s.database.documents ∧
        s'.database.reservations = s.database.reservations ∨
      ∃ x t, op = .commit x ∧ s.transactions x = some t ∧
        (s.processes t.process).claimed = s.database.epoch) ∧
    ∀ x t stale, op = .commit x → s.transactions x = some t → t.body = .clear stale →
      ∀ r, s.Relies r → r ∈ s.database.reservations → r ∈ s'.database.reservations := by
  have hkept := kept_run hrun
  refine ⟨fun d => ((hkept.step hspared hs).logged.documents d).inOrder, ?_, ?_⟩
  · by_cases hop : ∃ x, op = .commit x
    · obtain ⟨x, rfl⟩ := hop
      obtain ⟨t, ht, hclaimed⟩ := hkept.epochs.commits hs
      exact .inr ⟨x, t, rfl, ht, hclaimed⟩
    · exact .inl (tables_step hs fun x hx => hop ⟨x, hx⟩)
  · rintro x t stale rfl ht hbody r hr hmem
    exact hkept.clear_keeps hspared hs ht hbody hr hmem

/-- A process claims the lease and writes a row. -/
theorem row_is_fenced : ∃ s s' : Deployment ℕ,
    Run step Spared fresh [.tryLock 0 1, .updateEpoch 0, .storeEpoch 0, .readSequence 0 1 5,
      .readLastRow 0, .readBase 0 0, .command 0 0 (some 3), .expect 0, .fence 0, .readEpoch 0] s ∧
    s.step (.commit 0) = some s' ∧ (s'.database.documents 5).updates = [⟨1, 3⟩] ∧
    (s'.database.documents 5).InOrder := by
  obtain ⟨s, s', hrun, hspared, hs, hrow⟩ : ∃ s s' : Deployment ℕ,
      Run step Spared fresh [.tryLock 0 1, .updateEpoch 0, .storeEpoch 0, .readSequence 0 1 5,
        .readLastRow 0, .readBase 0 0, .command 0 0 (some 3), .expect 0, .fence 0,
        .readEpoch 0] s ∧
      s.Spared (.commit 0) ∧ s.step (.commit 0) = some s' ∧
      (s'.database.documents 5).updates = [⟨1, 3⟩] := by
    refine ⟨_, _, .cons trivial rfl (.cons trivial rfl (.cons trivial rfl (.cons trivial rfl
      (.cons (fun _ _ _ _ => Nat.zero_le _) rfl (.cons (fun _ _ _ _ => Nat.zero_le _) rfl
        (.cons trivial rfl (.cons trivial rfl (.cons trivial rfl (.cons trivial rfl
          (.nil _)))))))))), ?_, rfl, rfl⟩
    rintro t epoch ht hbody
    cases ht
    cases hbody
  exact ⟨s, s', hrun, hs, hrow, (writes_are_fenced hrun hspared hs).1 5⟩

/-- A clear that read its epoch before the process claimed again deletes the reservation of a batch
that was buffered since. -/
theorem stale_clear_deletes_reservation : ∃ s s' : Deployment ℕ,
    Run step anyStep fresh [.tryLock 0 1, .updateEpoch 0, .storeEpoch 0, .clear 1 0, .loseSession,
      .tryLock 1 1, .updateEpoch 1, .storeEpoch 1, .readSequence 0 1 5, .readLastRow 0,
      .readBase 0 0, .ingest 0 1 ⟨3, 7, 10, 9, 0, 0⟩, .expect 1, .fence 1, .readEpoch 1, .commit 1,
      .accept 1 false, .expect 0, .fence 0, .readEpoch 0] s ∧
    s.step (.commit 0) = some s' ∧ s.Relies ⟨7, 5, 2, 10, 9⟩ ∧
    s.database.reservations = [⟨7, 5, 2, 10, 9⟩] ∧ s'.database.reservations = [] := by
  refine ⟨_, _, .cons trivial rfl (.cons trivial rfl (.cons trivial rfl (.cons trivial rfl
    (.cons trivial rfl (.cons trivial rfl (.cons trivial rfl (.cons trivial rfl (.cons trivial rfl
      (.cons trivial rfl (.cons trivial rfl (.cons trivial rfl (.cons trivial rfl
        (.cons trivial rfl (.cons trivial rfl (.cons trivial rfl (.cons trivial rfl
          (.cons trivial rfl (.cons trivial rfl (.cons trivial rfl (.nil _)))))))))))))))))))),
    rfl, ⟨0, _, _, rfl, mem_singleton_self _, rfl, rfl, rfl, rfl⟩, rfl, rfl⟩

/-- A step leaves the epoch and every claim, or one process claims the next epoch. -/
lemma claims_step {op : Op V} (hs : s.step op = some s') :
    (s'.database.epoch = s.database.epoch ∧
      ∀ p, (s'.processes p).claimed = (s.processes p).claimed) ∨
    ∃ p, s'.database.epoch = s.database.epoch + 1 ∧
      ∀ q ≠ p, (s'.processes q).claimed = (s.processes q).claimed := by
  have haside : s.Aside s' → s'.database.epoch = s.database.epoch ∧
      ∀ p, (s'.processes p).claimed = (s.processes p).claimed := fun ha =>
    ⟨by rw [ha.database], fun p => by rw [ha.processes]⟩
  cases op with
  | updateEpoch c =>
    simp only [step, updateEpoch] at hs
    repeat' split at hs
    all_goals cases hs
    exact .inr ⟨_, rfl, fun q hq => congrArg Process.claimed (Function.update_of_ne hq _ _)⟩
  | storeEpoch c =>
    simp only [step, storeEpoch] at hs
    split at hs <;> cases hs
    refine .inl ⟨rfl, fun q => ?_⟩
    dsimp only
    rw [Function.update_apply]
    split
    · next hq => rw [hq]
    · rfl
  | commit x =>
    simp only [step, commit] at hs
    repeat' split at hs
    all_goals cases hs
    · next hdb => exact .inl ⟨Database.epoch_apply hdb, fun _ => rfl⟩
    · exact .inl ⟨rfl, fun _ => rfl⟩
  | readSequence a p d => exact .inl (haside (aside_readSequence hs))
  | readLastRow a => exact .inl (haside (aside_readLastRow hs))
  | readBase a i => exact .inl (haside (aside_readBase hs))
  | reply i => exact .inl (haside (aside_reply hs))
  | fail i => exact .inl (haside (aside_fail hs))
  | cancel i | closeFenced i => exact .inl (haside (aside_map hs))
  | readHead i => exact .inl (haside (aside_readHead hs))
  | readRow i => exact .inl (haside (aside_readRow hs))
  | accept x matching => exact .inl (haside (aside_accept hs))
  | _ =>
    simp only [step, tryLock, expect, fence, readEpoch, abort, transact, ingest, compact,
      clear] at hs
    repeat' split at hs
    all_goals first
      | (cases hs; exact .inl ⟨rfl, fun _ => rfl⟩)
      | (obtain rfl := start_eq hs; exact .inl ⟨rfl, fun _ => rfl⟩)
      | (obtain ⟨s₁, h₁, rfl⟩ := map_eq_some_iff.1 hs
         obtain rfl := start_eq h₁
         exact .inl ⟨rfl, fun _ => rfl⟩)
      | cases hs

/-- The durable epoch was claimed by one process. -/
structure Sole (s : Deployment V) : Prop extends Epochs s where
  sole : ∀ p q, (s.processes p).claimed = s.database.epoch →
    (s.processes q).claimed = s.database.epoch → p = q ∨ s.database.epoch = 0

lemma Sole.step {op : Op V} (h : s.Sole) (hs : s.step op = some s') : s'.Sole := by
  refine ⟨h.toEpochs.step hs, fun p q hp hq => ?_⟩
  rcases claims_step hs with ⟨hepoch, hclaimed⟩ | ⟨c, hepoch, hclaimed⟩
  · rw [hclaimed, hepoch] at hp hq
    exact hepoch ▸ h.sole p q hp hq
  · have honly : ∀ p, (s'.processes p).claimed = s'.database.epoch → p = c := by
      intro p hp
      by_contra hne
      have hle := h.claimed p
      rw [hclaimed p hne, hepoch] at hp
      omega
    exact .inl ((honly p hp).trans (honly q hq).symm)

/-- In every run, whatever its processes do: the durable epoch does not go back, transactions that
have passed the fence are of one process, and one that commits is of a process that has claimed
the lease since any moment at which the epoch was not its own. -/
theorem sole_writer {ops more : List (Op V)} (hrun : Run step anyStep (fresh : Deployment V) ops s)
    (hmore : Run step anyStep s more s') :
    s.database.epoch ≤ s'.database.epoch ∧
    (∀ x y t u, s'.transactions x = some t → s'.transactions y = some u → t.phase.Shares →
      u.phase.Shares → t.process = u.process ∨ s'.database.epoch = 0) ∧
    ∀ x t u, s'.transactions x = some t → s'.step (.commit x) = some u →
      s.database.epoch ≤ (s'.processes t.process).claimed := by
  have hstep : ∀ (s : Deployment V) op s', s.Sole → anyStep s op → s.step op = some s' → s'.Sole :=
    fun s op s' h _ hs => h.step hs
  have hsole : s.Sole := hrun.invariant hstep ⟨kept_fresh.epochs, fun _ _ _ _ => .inr rfl⟩
  have hthen := hmore.invariant hstep hsole
  have hle : s.database.epoch ≤ s'.database.epoch := by
    refine hmore.related (R := fun s s' => s.database.epoch ≤ s'.database.epoch) hstep
      (fun _ => le_rfl) (fun _ _ _ => le_trans) (fun s op s' _ _ hs => ?_) hsole
    rcases claims_step hs with ⟨hepoch, -⟩ | ⟨p, hepoch, -⟩ <;> omega
  refine ⟨hle, fun x y t u hx hy ht hu => ?_, fun x t u hx hu => ?_⟩
  · exact hthen.sole _ _ (hthen.fenced x t hx ht) (hthen.fenced y u hy hu)
  · obtain ⟨w, hw, hclaimed⟩ := hthen.toEpochs.commits hu
    obtain rfl := some_inj.1 (hx.symm.trans hw)
    exact hclaimed ▸ hle

/-- A process clears under the epoch that it has claimed. -/
theorem sole_writer_clear : ∃ s s' : Deployment ℕ,
    Run step anyStep fresh [.tryLock 0 1, .updateEpoch 0] s ∧
    Run step anyStep s [.storeEpoch 0, .clear 1 0, .expect 0, .fence 0, .readEpoch 0] s' ∧
    s.database.epoch = 1 ∧ s.database.epoch ≤ (s'.processes 1).claimed := by
  obtain ⟨s, s', hrun, hmore, hepoch, t, u, ht, hp, hu⟩ : ∃ s s' : Deployment ℕ,
      Run step anyStep fresh [.tryLock 0 1, .updateEpoch 0] s ∧
      Run step anyStep s [.storeEpoch 0, .clear 1 0, .expect 0, .fence 0, .readEpoch 0] s' ∧
      s.database.epoch = 1 ∧ ∃ t u, s'.transactions 0 = some t ∧ t.process = 1 ∧
        s'.step (.commit 0) = some u :=
    ⟨_, _, .cons trivial rfl (.cons trivial rfl (.nil _)),
      .cons trivial rfl (.cons trivial rfl (.cons trivial rfl (.cons trivial rfl
        (.cons trivial rfl (.nil _))))), rfl, _, _, rfl, rfl, rfl⟩
  exact ⟨s, s', hrun, hmore, hepoch, hp ▸ (sole_writer hrun hmore).2.2 0 t u ht hu⟩

end Deployment
end LibrePaper.Writers
