import LibrePaper.Writers.Lease

/-!
# A transaction writes under the durable epoch

A transaction that has passed the fence holds the writer's row, so no claim moves the epoch before
it is over, and the epoch is the one that its process claimed last.
-/
namespace LibrePaper.Writers
open Library List Function

/-- The transaction holds the writer's row. -/
def Phase.Shares : Phase → Prop
  | .fenced | .writing _ => True
  | _ => False

namespace Deployment
variable {V : Type*} {s s' : Deployment V} {x : ℕ} {t : Transaction V}

/-- No process holds an epoch that it did not claim, and who shares the writer's row claimed it
last. -/
structure Epochs (s : Deployment V) : Prop where
  claimed : ∀ p, (s.processes p).claimed ≤ s.database.epoch
  stored : ∀ p, (s.processes p).writerEpoch ≤ (s.processes p).claimed
  updated : ∀ c p e, s.claims c = some ⟨p, .updated e⟩ → e ≤ (s.processes p).claimed
  expecting : ∀ x t e, s.transactions x = some t → t.phase = .expecting e →
    e ≤ (s.processes t.process).claimed
  sharing : ∀ x t, s.transactions x = some t → t.phase.Shares → x ∈ s.sharing
  fenced : ∀ x t, s.transactions x = some t → t.phase.Shares →
    (s.processes t.process).claimed = s.database.epoch

/-- A step that neither claims nor runs a transaction. -/
lemma Epochs.of_eq (h : s.Epochs) (hepoch : s'.database.epoch = s.database.epoch)
    (hprocesses : s'.processes = s.processes) (hclaims : s'.claims = s.claims)
    (htransactions : s'.transactions = s.transactions) (hsharing : s'.sharing = s.sharing) :
    s'.Epochs := by
  refine ⟨?_, ?_, ?_, ?_, ?_, ?_⟩
  · rw [hprocesses, hepoch]
    exact h.claimed
  · rw [hprocesses]
    exact h.stored
  · rw [hclaims, hprocesses]
    exact h.updated
  · rw [htransactions, hprocesses]
    exact h.expecting
  · rw [htransactions, hsharing]
    exact h.sharing
  · rw [htransactions, hprocesses, hepoch]
    exact h.fenced

lemma setTransaction_eq (y : ℕ) : (s.setTransaction x t).transactions y =
    if y = x then some t else s.transactions y := update_apply ..

/-- A transaction begins or goes on. -/
lemma Epochs.setTransaction (h : s.Epochs)
    (hexpecting : ∀ e, t.phase = .expecting e → e ≤ (s.processes t.process).claimed)
    (hsharing : t.phase.Shares → x ∈ s.sharing)
    (hfenced : t.phase.Shares → (s.processes t.process).claimed = s.database.epoch) :
    (s.setTransaction x t).Epochs := by
  refine ⟨h.claimed, h.stored, h.updated, fun y u e hy hu => ?_, fun y u hy hu => ?_,
    fun y u hy hu => ?_⟩
  all_goals
    rw [setTransaction_eq] at hy
    split at hy
  · cases hy
    exact hexpecting e hu
  · exact h.expecting y u e hy hu
  · next hyx =>
    cases hy
    exact hyx ▸ hsharing hu
  · exact h.sharing y u hy hu
  · cases hy
    exact hfenced hu
  · exact h.fenced y u hy hu

lemma Epochs.start (h : s.Epochs) {process : ℕ} {body : Body V}
    (hs : s.start x process body = some s') : s'.Epochs := by
  rw [Deployment.start] at hs
  split at hs <;> cases hs
  exact h.setTransaction nofun (fun hno => hno.elim) fun hno => hno.elim

/-- A transaction is over. -/
lemma Epochs.finish (h : s.Epochs) {phase : Phase} (hnot : ¬phase.Shares)
    (hexpecting : ∀ e, phase ≠ .expecting e) : (s.finish x t phase).Epochs := by
  have hset : (s.setTransaction x { t with phase := phase }).Epochs :=
    h.setTransaction (fun e he => absurd he (hexpecting e)) (fun hno => absurd hno hnot)
      fun hno => absurd hno hnot
  refine ⟨hset.claimed, hset.stored, hset.updated, hset.expecting, fun y u hy hu => ?_, hset.fenced⟩
  refine mem_filter.2 ⟨hset.sharing y u hy hu, decide_eq_true ?_⟩
  rintro rfl
  have hy := (setTransaction_eq y).symm.trans hy
  rw [if_pos rfl] at hy
  cases hy
  exact hnot hu

lemma Epochs.tryLock (h : s.Epochs) {c p : ℕ} (hs : s.tryLock c p = some s') : s'.Epochs := by
  rw [Deployment.tryLock] at hs
  split at hs <;> cases hs
  refine ⟨h.claimed, h.stored, fun d q e hd => ?_, h.expecting, h.sharing, h.fenced⟩
  have hd := (update_apply ..).symm.trans hd
  split at hd
  · cases hd
  · exact h.updated d q e hd

/-- A claim moves the epoch while nobody shares the writer's row. -/
lemma Epochs.updateEpoch (h : s.Epochs) {c : ℕ} (hs : s.updateEpoch c = some s') :
    s'.Epochs := by
  rw [Deployment.updateEpoch] at hs
  split at hs
  · next p hclaim =>
    split at hs
    · next hfree =>
      cases hs
      have hnone : ∀ x t, s.transactions x = some t → ¬t.phase.Shares := fun x t hx ht =>
        not_mem_nil (hfree.2 ▸ h.sharing x t hx ht)
      have hprocess : ∀ q, (s.processes q).claimed ≤ (update s.processes p
            { s.processes p with claimed := s.database.epoch + 1 } q).claimed ∧
          (update s.processes p
            { s.processes p with claimed := s.database.epoch + 1 } q).claimed ≤
              s.database.epoch + 1 ∧
          (update s.processes p
            { s.processes p with claimed := s.database.epoch + 1 } q).writerEpoch =
              (s.processes q).writerEpoch := by
        intro q
        rw [update_apply]
        split
        · next hq => exact hq ▸ ⟨(h.claimed q).trans (Nat.le_succ _), le_rfl, rfl⟩
        · exact ⟨le_rfl, (h.claimed q).trans (Nat.le_succ _), rfl⟩
      refine ⟨fun q => (hprocess q).2.1,
        fun q => (hprocess q).2.2.le.trans ((h.stored q).trans (hprocess q).1), fun d q e hd => ?_,
        fun x t e hx ht => (h.expecting x t e hx ht).trans (hprocess _).1, h.sharing,
        fun x t hx ht => absurd ht (hnone x t hx)⟩
      have hd := (update_apply ..).symm.trans hd
      split at hd
      · cases hd
        have hself : (update s.processes p
            { s.processes p with claimed := s.database.epoch + 1 } p).claimed =
              s.database.epoch + 1 := by rw [update_self]
        exact hself.ge
      · exact (h.updated d q e hd).trans (hprocess q).1
    · cases hs
  · cases hs

lemma Epochs.storeEpoch (h : s.Epochs) {c : ℕ} (hs : s.storeEpoch c = some s') :
    s'.Epochs := by
  rw [Deployment.storeEpoch] at hs
  split at hs
  · next p e hclaim =>
    cases hs
    have hprocess : ∀ q, (update s.processes p
          { s.processes p with writerEpoch := e } q).claimed = (s.processes q).claimed ∧
        (update s.processes p
          { s.processes p with writerEpoch := e } q).writerEpoch ≤ (s.processes q).claimed := by
      intro q
      rw [update_apply]
      split
      · next hq =>
        subst hq
        exact ⟨rfl, h.updated c q e hclaim⟩
      · exact ⟨rfl, h.stored q⟩
    refine ⟨fun q => (hprocess q).1.le.trans (h.claimed q),
      fun q => (hprocess q).2.trans (hprocess q).1.ge, fun d q e' hd => ?_,
      fun x t e' hx ht => (h.expecting x t e' hx ht).trans (hprocess _).1.ge, h.sharing,
      fun x t hx ht => (hprocess _).1.trans (h.fenced x t hx ht)⟩
    have hd := (update_apply ..).symm.trans hd
    split at hd
    · cases hd
    · exact (h.updated d q e' hd).trans (hprocess q).1.ge
  · cases hs

lemma Epochs.expect (h : s.Epochs) (hs : s.expect x = some s') : s'.Epochs := by
  rw [Deployment.expect] at hs
  split at hs
  · next p body hx =>
    cases hs
    refine h.setTransaction (fun e he => ?_) (fun hno => ?_) fun hno => ?_
    · have he : (if (s.processes p).writerEpoch = 0 then Phase.refused
          else .expecting (s.processes p).writerEpoch) = .expecting e := he
      split at he <;> cases he
      exact h.stored p
    all_goals
      have hno : Phase.Shares (if (s.processes p).writerEpoch = 0 then Phase.refused
        else .expecting (s.processes p).writerEpoch) := hno
      split at hno <;> exact hno.elim
  · cases hs

/-- What passes the fence was claimed last by its process. -/
lemma Epochs.fence (h : s.Epochs) (hs : s.fence x = some s') : s'.Epochs := by
  rw [Deployment.fence] at hs
  split at hs
  · next p body e hx =>
    split at hs
    · next hepoch =>
      cases hs
      have hclaimed : (s.processes p).claimed = s.database.epoch :=
        (h.claimed p).antisymm (hepoch ▸ h.expecting x _ e hx rfl)
      have hshared : Epochs { s with sharing := x :: s.sharing } :=
        ⟨h.claimed, h.stored, h.updated, h.expecting,
          fun y u hy hu => mem_cons_of_mem x (h.sharing y u hy hu), h.fenced⟩
      exact hshared.setTransaction nofun (fun _ => mem_cons_self) fun _ => hclaimed
    · cases hs
      exact h.setTransaction nofun (fun hno => hno.elim) fun hno => hno.elim
  · cases hs

lemma Epochs.readEpoch (h : s.Epochs) (hs : s.readEpoch x = some s') : s'.Epochs := by
  rw [Deployment.readEpoch] at hs
  split at hs
  · next p body hx =>
    cases hs
    exact h.setTransaction nofun (fun _ => h.sharing x _ hx trivial)
      fun _ => h.fenced x ⟨p, body, .fenced⟩ hx trivial
  · cases hs

lemma Epochs.abort (h : s.Epochs) (hs : s.abort x = some s') : s'.Epochs := by
  rw [Deployment.abort] at hs
  split at hs
  · cases hs
  · cases hs
  · cases hs
  · cases hs
    exact h.finish (fun hno => hno.elim) fun _ hno => by cases hno
  · cases hs
    exact h.finish (fun hno => hno.elim) fun _ hno => by cases hno

end Deployment

namespace Database
variable {V : Type*} {db db' : Database V}

/-- A transaction's writes leave the epoch. -/
lemma epoch_apply {epoch : ℕ} {body : Body V} (h : db.apply epoch body = some db') :
    db'.epoch = db.epoch := by
  cases body with
  | row document expected vector keys bytes =>
    rw [apply, insertLogRow] at h
    repeat' split at h
    all_goals cases h
    rfl
  | reserve document key bytes digest =>
    rw [apply, reservePendingLogBytes] at h
    repeat' split at h
    all_goals cases h
    all_goals rfl
  | clear stale =>
    cases h
    rfl
  | activate document through vector replaceEqual =>
    rw [apply, activateLogBase] at h
    repeat' split at h
    all_goals cases h
    all_goals rfl

end Database
end LibrePaper.Writers
