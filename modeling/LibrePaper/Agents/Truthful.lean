import LibrePaper.Agents.Kept

/-!
# Operations run at most once and are reported truthfully

In every run in which refusals are recorded in time, an effect is committed once, with the outcome
that says so, and no effect follows a recorded refusal.
-/
namespace LibrePaper.Agents
open Library List

namespace System
variable {s s' : System}

/-- A step at which no refusal comes late: it is recorded while nobody runs its operation, with the
private candidate in sight, before the epoch expires, and is kept as long as a finishing goes on. -/
def Spared (s : System) : Op → Prop
  | .loadAdmission c => ∀ x, s.calls c = some x → ∀ d y, s.calls d = some y →
      y.request.key = x.request.key → ¬y.Runs
  | .loadCandidate c readable => ∀ x candidate, s.calls c = some x →
      s.candidates x.request.key x.request.digest = some candidate →
      candidate.publish = .privateOnly → readable = true ∧ s.now < candidate.expiresAt
  | .record c => ∀ x, s.calls c = some x → s.now < x.request.key.expiry
  | .commit c _ => ∀ x, s.calls c = some x → x.finishing = true → x.request.key ∈ s.refusals →
      ∃ row ∈ s.outcomes, row.key = x.request.key ∧ s.now < row.expiresAt
  | _ => True

lemma Inv.step (h : s.Inv) {op : Op} (hspared : s.Spared op) (hs : s.step op = some s') :
    s'.Inv := by
  cases op with
  | call c request => exact h.call hs
  | deny c => exact h.deny hs
  | check c => exact h.mcpRefuseIfAdmitted hs
  | admission c replied => exact h.mcpAdmit hs
  | stage c => exact h.stage hs
  | receipt c => exact h.mcpOperationReceipt hs
  | commit c replied => exact h.commit hspared hs
  | refuse c => exact h.refuse hs
  | loadAdmission c => exact h.loadAdmission hspared hs
  | loadCandidate c readable => exact h.loadCandidate hspared hs
  | record c => exact h.storeOperationRefusal hspared hs
  | finish c key digest => exact h.finish hs
  | drop c =>
    cases hs
    exact h.drop
  | lookup l key expected => exact h.lookup hs
  | readReceipt l => exact h.readReceipt hs
  | readCandidate l verified => exact h.mcpRecoverPrivateCandidate hs
  | tick =>
    cases hs
    exact h.tick
  | purge =>
    cases hs
    exact h.purge

lemma Inv.run {ops : List Op} (h : s.Inv) (hrun : Run System.step Spared s ops s') : s'.Inv :=
  hrun.invariant (fun _ _ _ hinv hspared => hinv.step hspared) h

/-- A commit adds the outcome of the effect that it commits. -/
lemma outcomes_commit {c : ℕ} {replied : Bool} (hs : s.commit c replied = some s')
    {row : Outcome} (hrow : row ∈ s'.outcomes) (hnew : row ∉ s.outcomes) :
    s'.effects = row.key :: s.effects := by
  rw [commit] at hs
  split at hs
  · split at hs
    · cases hs
      exact absurd hrow hnew
    · split at hs
      · cases hs
        exact absurd hrow hnew
      · next hrecord =>
        cases hs
        rcases mem_recordOperationOutcome hrecord hrow with hold | rfl
        · exact absurd hold hnew
        · rfl
  · cases hs

/-- A refusal adds its own row, and none where the key has an outcome. -/
lemma outcomes_storeOperationRefusal {c : ℕ} (hs : s.storeOperationRefusal c = some s') :
    (∀ row ∈ s'.outcomes, row ∉ s.outcomes → row.status = .refused) ∧
    ∀ x, s.calls c = some x → (∃ row ∈ s.outcomes, row.key = x.request.key) →
      s'.outcomes = s.outcomes := by
  rw [storeOperationRefusal] at hs
  split at hs
  · next request finishing retain hx =>
    split at hs
    · cases hs
      exact ⟨fun _ hrow => absurd hrow, fun _ _ _ => rfl⟩
    · next hnone =>
      split at hs
      · cases hs
        exact ⟨fun _ hrow => absurd hrow, fun _ _ _ => rfl⟩
      · next hrecord =>
        cases hs
        refine ⟨fun row hrow hnew => ?_, fun x hx' hrow => ?_⟩
        · rcases mem_recordOperationOutcome hrecord hrow with hold | rfl
          · exact absurd hold hnew
          · rfl
        · cases hx.symm.trans hx'
          obtain ⟨row, hrow, hkey⟩ := hrow
          exact absurd (any_eq_true.2 ⟨row, hrow, decide_eq_true hkey⟩) hnone
  · cases hs

/-- No other step adds an outcome, or a refusal. -/
lemma outcomes_step {op : Op} (hs : s.step op = some s')
    (hcommit : ∀ c replied, op ≠ .commit c replied) (hrecord : ∀ c, op ≠ .record c) :
    (∀ row ∈ s'.outcomes, row ∈ s.outcomes) ∧ s'.refusals = s.refusals := by
  cases op with
  | commit c replied => exact absurd rfl (hcommit c replied)
  | record c => exact absurd rfl (hrecord c)
  | purge =>
    cases hs
    exact ⟨fun _ hrow => (mem_filter.1 hrow).1, rfl⟩
  | drop c =>
    cases hs
    exact ⟨fun _ => id, rfl⟩
  | tick =>
    cases hs
    exact ⟨fun _ => id, rfl⟩
  | call c request =>
    have hs : s.call c request = some s' := hs
    rw [call] at hs
    split at hs <;> cases hs
    exact ⟨fun _ => id, rfl⟩
  | deny c =>
    have hs : s.deny c = some s' := hs
    rw [deny] at hs
    split at hs <;> cases hs
    exact ⟨fun _ => id, rfl⟩
  | check c =>
    have hs : s.mcpRefuseIfAdmitted c = some s' := hs
    rw [mcpRefuseIfAdmitted] at hs
    split at hs <;> cases hs
    exact ⟨fun _ => id, rfl⟩
  | admission c replied =>
    have hs : s.mcpAdmit c replied = some s' := hs
    rw [mcpAdmit] at hs
    split at hs
    · split at hs <;> cases hs <;> exact ⟨fun _ => id, rfl⟩
    · cases hs
  | stage c =>
    have hs : s.stage c = some s' := hs
    rw [stage] at hs
    split at hs
    · split at hs
      · split at hs <;> cases hs <;> exact ⟨fun _ => id, rfl⟩
      · cases hs
    · cases hs
  | receipt c =>
    have hs : s.mcpOperationReceipt c = some s' := hs
    rw [mcpOperationReceipt] at hs
    repeat' split at hs
    all_goals cases hs
    all_goals exact ⟨fun _ => id, rfl⟩
  | refuse c =>
    have hs : s.refuse c = some s' := hs
    rw [refuse] at hs
    split at hs <;> cases hs <;> exact ⟨fun _ => id, rfl⟩
  | loadAdmission c =>
    have hs : s.loadAdmission c = some s' := hs
    rw [loadAdmission] at hs
    split at hs <;> cases hs
    exact ⟨fun _ => id, rfl⟩
  | loadCandidate c readable =>
    have hs : s.loadCandidate c readable = some s' := hs
    rw [loadCandidate] at hs
    repeat' split at hs
    all_goals cases hs
    all_goals exact ⟨fun _ => id, rfl⟩
  | finish c key digest =>
    have hs : s.finish c key digest = some s' := hs
    rw [finish] at hs
    split at hs <;> cases hs
    exact ⟨fun _ => id, rfl⟩
  | lookup l key expected =>
    have hs : s.lookup l key expected = some s' := hs
    rw [lookup] at hs
    repeat' split at hs
    all_goals cases hs
    all_goals exact ⟨fun _ => id, rfl⟩
  | readReceipt l =>
    have hs : s.readReceipt l = some s' := hs
    rw [readReceipt] at hs
    split at hs
    · split at hs
      · split at hs <;> cases hs <;> exact ⟨fun _ => id, rfl⟩
      · cases hs
        exact ⟨fun _ => id, rfl⟩
    · cases hs
  | readCandidate l verified =>
    have hs : s.mcpRecoverPrivateCandidate l verified = some s' := hs
    rw [mcpRecoverPrivateCandidate] at hs
    repeat' split at hs
    all_goals cases hs
    all_goals exact ⟨fun _ => id, rfl⟩

/-- A committed outcome is added with its effect. -/
lemma effects_of_committed {op : Op} (hs : s.step op = some s') {row : Outcome}
    (hrow : row ∈ s'.outcomes) (hnew : row ∉ s.outcomes) (hstatus : row.status = .committed) :
    s'.effects = row.key :: s.effects := by
  by_cases hcommit : ∃ c replied, op = .commit c replied
  · obtain ⟨c, replied, rfl⟩ := hcommit
    exact outcomes_commit hs hrow hnew
  · by_cases hrecord : ∃ c, op = .record c
    · obtain ⟨c, rfl⟩ := hrecord
      cases ((outcomes_storeOperationRefusal hs).1 row hrow hnew).symm.trans hstatus
    · exact absurd ((outcomes_step hs (fun c replied h => hcommit ⟨c, replied, h⟩)
        fun c h => hrecord ⟨c, h⟩).1 row hrow) hnew

/-- A refusal that was recorded stays so. -/
lemma refusals_step {op : Op} (hs : s.step op = some s') {key : OperationKey}
    (hk : key ∈ s.refusals) : key ∈ s'.refusals := by
  by_cases hcommit : ∃ c replied, op = .commit c replied
  · obtain ⟨c, replied, rfl⟩ := hcommit
    have hs : s.commit c replied = some s' := hs
    rw [commit] at hs
    repeat' split at hs
    all_goals cases hs
    all_goals exact hk
  · by_cases hrecord : ∃ c, op = .record c
    · obtain ⟨c, rfl⟩ := hrecord
      have hs : s.storeOperationRefusal c = some s' := hs
      rw [storeOperationRefusal] at hs
      split at hs
      · split at hs
        · cases hs
          exact hk
        · split at hs <;> cases hs
          · exact hk
          · exact mem_cons_of_mem _ hk
      · cases hs
    · have hsame := (outcomes_step hs (fun c replied h => hcommit ⟨c, replied, h⟩)
        fun c h => hrecord ⟨c, h⟩).2
      rwa [hsame]

/-- In every run without a late refusal, an effect is committed once and with its outcome, none
follows a refusal that is kept, a refusal replaces no outcome, a lookup answers for the request that
was admitted, and the outcomes that are kept are bounded. -/
theorem outcomes_are_truthful {now : ℕ} {ops : List Op} {op : Op}
    (hrun : Run step Spared (fresh now) ops s) (hspared : s.Spared op)
    (hs : s.step op = some s') :
    s'.effects.Nodup ∧
    (∀ row ∈ s'.outcomes, row ∉ s.outcomes → row.status = .committed →
      s'.effects = row.key :: s.effects) ∧
    (∀ row ∈ s.outcomes, row.status = .refused → ∀ l u, Run step Spared s l u →
      row.key ∉ u.effects) ∧
    (∀ c x, op = .record c → s.calls c = some x →
      (∃ row ∈ s.outcomes, row.key = x.request.key) → s'.outcomes = s.outcomes) ∧
    (∀ answer ∈ s'.answers, (∃ a, s'.admissions answer.key = some a ∧ a.digest = answer.digest ∧
      a.tool = answer.tool) ∧ ∀ d, answer.expected = some d → answer.digest = d) ∧
    s'.outcomes.length ≤ recoveryCapacity := by
  have hinv := (inv_fresh now).run hrun
  have hnext := hinv.step hspared hs
  refine ⟨hnext.nodup, fun row => effects_of_committed hs, fun row hrow hstatus l u hafter => ?_,
    fun c x hop hx hrow => ?_, fun answer hanswer => (hnext.answers answer hanswer).1,
    hnext.bounded⟩
  · obtain ⟨-, -, htells⟩ := hinv.outcomes row hrow
    rw [hstatus] at htells
    have hkept : row.key ∈ u.refusals :=
      hafter.invariant (I := fun v => row.key ∈ v.refusals)
        (fun _ _ _ hk _ hs => refusals_step hs hk) htells
    exact ((hinv.run hafter).refusals row.key hkept).1
  · subst hop
    exact (outcomes_storeOperationRefusal hs).2 x hx hrow

/-- A comment is committed with its outcome. -/
theorem comment_is_committed : ∃ s s', Run step Spared (fresh 0)
      [.call 0 ⟨⟨9, 1⟩, .comment, 7, ⟨.suggestions, false⟩, false, 9⟩, .check 0, .admission 0 true,
        .receipt 0] s ∧ s.step (.commit 0 false) = some s' ∧
    s'.outcomes = [⟨⟨9, 1⟩, 7, .comment, .committed, 9⟩] ∧ s'.effects = ⟨9, 1⟩ :: s.effects := by
  obtain ⟨s, s', hrun, hspared, hs, hfresh, houtcomes⟩ : ∃ s s', Run step Spared (fresh 0)
      [.call 0 ⟨⟨9, 1⟩, .comment, 7, ⟨.suggestions, false⟩, false, 9⟩, .check 0, .admission 0 true,
        .receipt 0] s ∧ s.Spared (.commit 0 false) ∧ s.step (.commit 0 false) = some s' ∧
      s.outcomes = [] ∧ s'.outcomes = [⟨⟨9, 1⟩, 7, .comment, .committed, 9⟩] := by
    refine ⟨_, _, .cons trivial rfl (.cons trivial rfl (.cons trivial rfl (.cons trivial rfl
      (.nil _)))), ?_, rfl, rfl, rfl⟩
    rintro x hx hfinishing
    cases hx
    cases hfinishing
  refine ⟨s, s', hrun, hs, houtcomes, ?_⟩
  refine (outcomes_are_truthful hrun hspared hs).2.1 _ (houtcomes ▸ mem_singleton_self _) ?_ rfl
  rw [hfresh]
  exact not_mem_nil

/-- A proposal is refused, the refusal is recorded and looked up, and once it has expired the render
of its candidate is asked for, which commits the effect. -/
theorem refused_proposal_is_committed : ∃ s u row,
    Run step anyStep (fresh 0) [.call 0 ⟨⟨2, 1⟩, .propose, 7, ⟨.suggestions, false⟩, false, 5⟩,
      .check 0, .admission 0 true, .stage 0, .receipt 0, .refuse 0, .loadAdmission 0,
      .loadCandidate 0 true, .receipt 0, .record 0, .lookup 0 ⟨2, 1⟩ none, .readReceipt 0] s ∧
    s.outcomes = [row] ∧ row.status = .refused ∧
    s.answers = [⟨⟨2, 1⟩, none, 7, .propose, .refused⟩] ∧
    Run step anyStep s [.tick, .tick, .finish 1 ⟨2, 1⟩ 7, .receipt 1, .commit 1 true] u ∧
    row.key ∈ u.effects := by
  refine ⟨_, _, _, .cons trivial rfl (.cons trivial rfl (.cons trivial rfl (.cons trivial rfl
    (.cons trivial rfl (.cons trivial rfl (.cons trivial rfl (.cons trivial rfl (.cons trivial rfl
      (.cons trivial rfl (.cons trivial rfl (.cons trivial rfl (.nil _)))))))))))), rfl, rfl, rfl,
    .cons trivial rfl (.cons trivial rfl (.cons trivial rfl (.cons trivial rfl (.cons trivial rfl
      (.nil _))))), mem_cons_self⟩

end System
end LibrePaper.Agents
