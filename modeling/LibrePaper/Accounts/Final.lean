import LibrePaper.Accounts.Kept
import LibrePaper.Accounts.Worker

/-!
# Erasure and deletion are final

An account's row goes only when it owns nothing, and a document's objects are deleted only when
it is being purged. An account that is being erased owns no active document as long as nothing
is taken out of the trash under it.
-/
namespace LibrePaper.Accounts
open Library Option Function

namespace System

/-- What a call does to the catalogue. -/
inductive Change (s : System) : Op → Catalog → Prop
  | same (o : Op) : Change s o s.catalog
  | tick (n : ℕ) : Change s (.tick n) { s.catalog with now := s.catalog.now + n }
  | account {o : Op} {id : ℕ} {f : Account → Account} : ¬s.catalog.Erasing id →
      (∀ a, (f a).status ≠ .erasing) → Change s o (s.catalog.updateAccount id f)
  | document {o : Op} {id : ℕ} {f : Document → Document} : (∀ d, (f d).owner = d.owner) →
      (∀ d ∈ s.catalog.documents id, d.status = .purging → (f d).status = .purging) →
      (∀ d ∈ s.catalog.documents id, (f d).status = .active → d.status = .active) →
      Change s o (s.catalog.updateDocument id f)
  | restored {caller id : ℕ} : (s.catalog.documents id).map Document.status = some .deleting →
      Change s (.restore caller id)
        (s.catalog.updateDocument id fun d => { d with status := .active, deletedAt := none })
  | createdAccount {registered : Bool} :
      Change s (.createAccount registered) (s.catalog.createAccount registered)
  | createdDocument {owner : ℕ} {c : Catalog} {b : Bool} :
      s.catalog.createDocument owner = .ok (c, b) → Change s (.createDocument owner) c
  | erased {o : Op} (account : ℕ) : Change s o (s.catalog.erase account)
  | removed {id : ℕ} : s.worker = .emptied id → Change s .advance
      { s.catalog with documents := Function.update s.catalog.documents id none }
  | forgotten {account : ℕ} : s.catalog.owned account = [] → Change s .advance
      { s.catalog with accounts := Function.update s.catalog.accounts account none }

variable {s t : System} {o : Op} {c : Catalog} {i account id : ℕ} {x : Document}

lemma change_after {r : Result} (h : ∀ c b, r = .ok (c, b) → Change s o c) :
    Change s o (s.after r).catalog := by
  cases r with
  | error e => exact .same o
  | ok r => exact h r.1 r.2 rfl

lemma change_advance (s : System) : Change s .advance s.advance.catalog := by
  unfold advance
  cases hw : s.worker with
  | idle => exact .same _
  | claiming id =>
    obtain h | ⟨-, h⟩ := s.catalog.claimDocumentPurge_cases id
    · simp only [h]
      exact .same _
    · simp only [h]
      exact .document (fun _ => rfl) (fun _ _ _ => rfl) fun _ _ h => by cases h
  | purging id => exact .same _
  | emptied id =>
    obtain h | h := s.catalog.finishDocumentDeletion_cases id
    · simp only [h]
      exact .same _
    · simp only [h]
      exact .removed hw
  | listing account after => exact .same _
  | finishing account =>
    apply change_after
    intro c b h
    obtain rfl | ⟨howned, rfl⟩ := Catalog.finishAccountErasure_cases h
    · exact .same _
    · exact .forgotten howned

lemma change_step (h : s.step o = some t) : Change s o t.catalog := by
  cases o with
  | tick n =>
    cases h
    exact .tick n
  | createAccount registered =>
    cases h
    exact .createdAccount
  | createDocument owner =>
    cases h
    apply change_after
    intro c b h
    exact .createdDocument h
  | markDeleting id =>
    cases h
    obtain h | h := s.catalog.markDocumentDeleting_cases id
    · simp only [h]
      exact .same _
    · simp only [h]
      refine .document (fun d => Catalog.trash_owner d _) (fun d _ hp => ?_)
        (fun d _ ha => absurd ha (Catalog.trash_not_active d _))
      rw [Catalog.status_trash (by rw [hp]; decide), hp]
  | permit caller id =>
    simp only [step] at h
    split_ifs at h
    cases h
    exact .same _
  | restore caller id =>
    simp only [step] at h
    split_ifs at h
    cases h
    obtain h | ⟨hdeleting, h⟩ := s.catalog.restoreDocument_cases id
    · simp only [h]
      exact .same _
    · simp only [h]
      exact .restored hdeleting
  | hasten id =>
    cases h
    obtain h | h := s.catalog.hastenDeletion_cases id
    · simp only [h]
      exact .same _
    · simp only [h]
      exact .document (fun _ => rfl) (fun _ _ h => h) (fun _ _ h => h)
  | beginErasure account =>
    cases h
    apply change_after
    intro c b h
    obtain rfl | rfl := Catalog.beginAccountErasure_cases h
    · exact .same _
    · exact .erased account
  | eraseByOperator account =>
    cases h
    apply change_after
    intro c b h
    rw [Catalog.eraseAccountByOperator_cases h]
    exact .erased account
  | moderate account blocked =>
    cases h
    apply change_after
    intro c b h
    obtain rfl | ⟨hquiet, f, hf, rfl⟩ := Catalog.moderateAccount_cases h
    · exact .same _
    · exact .account hquiet hf
  | work task =>
    simp only [step] at h
    split_ifs at h
    cases h
    exact .same _
  | advance =>
    cases h
    exact change_advance s
  | stop =>
    cases h
    exact .same _

lemma Change.kept (h : Change s o c) (hb : s.catalog.Below) : s.catalog.Kept c := by
  cases h with
  | same => exact .refl _
  | tick n =>
    exact .of_same_rows rfl (fun _ => Iff.rfl) (fun _ => Iff.rfl) (fun _ h => h) (fun _ h => h)
  | account hquiet _ => exact Catalog.kept_updateAccount hquiet
  | document _ hpurging _ => exact Catalog.kept_updateDocument hpurging
  | @restored _ id hdeleting =>
    apply Catalog.kept_updateDocument
    intro d hd hpurging
    rw [mem_def.1 hd, map_some, hpurging] at hdeleting
    cases hdeleting
  | createdAccount => exact Catalog.kept_createAccount _ hb
  | createdDocument h => exact Catalog.kept_createDocument h hb
  | erased account => exact Catalog.kept_erase _ account
  | removed _ => exact Catalog.kept_remove _ _
  | forgotten _ => exact Catalog.kept_forget _ _

/-- A document's row goes only when the worker is done with its objects. -/
lemma Change.stays (h : Change s o c) (hb : s.catalog.Below) (hi : s.catalog.documents i ≠ none)
    (hw : o = .advance → s.worker ≠ .emptied i) : c.documents i ≠ none := by
  cases h with
  | same => exact hi
  | tick n => exact hi
  | account => exact hi
  | document => exact mt Catalog.documents_updateDocument_eq_none.1 hi
  | restored => exact mt Catalog.documents_updateDocument_eq_none.1 hi
  | createdAccount => exact hi
  | createdDocument h =>
    obtain ⟨-, rfl⟩ := Catalog.createDocument_cases h
    have hne : i ≠ s.catalog.next := Nat.ne_of_lt (hb.documents i hi)
    exact fun hn => hi ((update_of_ne hne _ _).symm.trans hn)
  | erased account => exact mt Catalog.documents_erase_eq_none.1 hi
  | @removed id hid =>
    have hne : i ≠ id := by
      rintro rfl
      exact hw rfl hid
    exact fun hn => hi ((update_of_ne hne _ _).symm.trans hn)
  | forgotten => exact hi

/-- An account's row goes only when it owns nothing. -/
lemma Change.owned (h : Change s o c) (hb : s.catalog.Below)
    (hthere : s.catalog.accounts account ≠ none) (hgone : c.accounts account = none) :
    s.catalog.owned account = [] := by
  cases h with
  | same => exact absurd hgone hthere
  | tick n => exact absurd hgone hthere
  | account => exact absurd (Catalog.accounts_updateAccount_eq_none.1 hgone) hthere
  | document => exact absurd hgone hthere
  | restored => exact absurd hgone hthere
  | createdAccount =>
    have hne : account ≠ s.catalog.next := Nat.ne_of_lt (hb.accounts account hthere)
    exact absurd ((update_of_ne hne _ _).symm.trans hgone) hthere
  | createdDocument h =>
    obtain ⟨-, rfl⟩ := Catalog.createDocument_cases h
    exact absurd hgone hthere
  | erased => exact absurd (Catalog.accounts_erase_eq_none.1 hgone) hthere
  | removed => exact absurd hgone hthere
  | @forgotten id howned =>
    have heq : account = id := by
      by_contra hne
      exact hthere ((update_of_ne hne _ _).symm.trans hgone)
    rw [heq]
    exact howned

lemma mem_owned (hb : c.Below) {d : Document} (h : d ∈ c.documents id) :
    id ∈ c.owned d.owner := by
  have hd : c.documents id = some d := h
  unfold Catalog.owned
  rw [List.mem_filter, List.mem_range, hd]
  refine ⟨hb.documents id ?_, ?_⟩
  · rw [hd]
    exact some_ne_none d
  · simp

/-- Nothing is taken out of the trash of an account that is being erased. -/
def Orderly (s : System) (o : Op) : Prop :=
  ∀ caller id, o = .restore caller id → ∀ d ∈ s.catalog.documents id, d.status = .deleting →
    ¬s.catalog.Erasing d.owner

/-- No erasure began, and no document became active. -/
lemma Quiet.of_fewer {d : Catalog} (h : c.Quiet) (herasing : ∀ i, d.Erasing i → c.Erasing i)
    (hdocument : ∀ i, ∀ x ∈ d.documents i, x.status = .active →
      ∃ y ∈ c.documents i, y.owner = x.owner ∧ y.status = .active) : d.Quiet := by
  intro i x hx hactive he
  obtain ⟨y, hy, howner, hyactive⟩ := hdocument i x hx hactive
  apply h i y hy hyactive
  rw [howner]
  exact herasing _ he

/-- A document after an update. -/
lemma mem_updateDocument {f : Document → Document} (h : x ∈ (c.updateDocument id f).documents i) :
    x ∈ c.documents i ∨ i = id ∧ ∃ y ∈ c.documents i, f y = x := by
  rw [Catalog.documents_updateDocument] at h
  by_cases hi : i = id
  · rw [if_pos hi] at h
    obtain ⟨y, hy, rfl⟩ := map_eq_some_iff.1 h
    exact .inr ⟨hi, y, hy, rfl⟩
  · rw [if_neg hi] at h
    exact .inl h

/-- A document after an erasure began. -/
lemma mem_erase (h : x ∈ (c.erase account).documents i) :
    ∃ y ∈ c.documents i, y.owner = x.owner ∧
      (x.status = .active → y.status = .active ∧ y.owner ≠ account) := by
  obtain ⟨y, hy, rfl⟩ := map_eq_some_iff.1 h
  refine ⟨y, hy, ?_⟩
  by_cases howner : y.owner = account
  · rw [if_pos howner, Catalog.trash_owner]
    exact ⟨rfl, fun ha => absurd ha (Catalog.trash_not_active y _)⟩
  · rw [if_neg howner]
    exact ⟨rfl, fun ha => ⟨ha, howner⟩⟩

/-- A document after another was created. -/
lemma mem_createDocument {new : Document}
    (h : x ∈ update c.documents c.next (some new) i) : x = new ∨ x ∈ c.documents i := by
  rw [update_apply] at h
  by_cases hi : i = c.next
  · rw [if_pos hi] at h
    exact .inl (some_inj.1 h).symm
  · rw [if_neg hi] at h
    exact .inr h

/-- A document that is left after another was removed. -/
lemma mem_remove (h : x ∈ update c.documents id none i) : x ∈ c.documents i := by
  rw [update_apply] at h
  by_cases hi : i = id
  · rw [if_pos hi] at h
    cases h
  · rw [if_neg hi] at h
    exact h

/-- No erasure begins where a row gets another status. -/
lemma erasing_of_update {row : Option Account} (hrow : row.map Account.status ≠ some .erasing)
    (h : (update c.accounts id row i).map Account.status = some .erasing) :
    c.Erasing i := by
  rw [update_apply] at h
  by_cases hi : i = id
  · rw [if_pos hi] at h
    exact absurd h hrow
  · rw [if_neg hi] at h
    exact h

lemma Change.housed (h : Change s o c) (hb : s.catalog.Below) (hh : s.catalog.Housed) :
    c.Housed := by
  intro i x hx
  cases h with
  | same => exact hh i x hx
  | tick n => exact hh i x hx
  | account => exact mt Catalog.accounts_updateAccount_eq_none.1 (hh i x hx)
  | document howner =>
    obtain hx | ⟨-, y, hy, rfl⟩ := mem_updateDocument hx
    · exact hh i x hx
    · rw [howner]
      exact hh i y hy
  | restored =>
    obtain hx | ⟨-, y, hy, rfl⟩ := mem_updateDocument hx
    · exact hh i x hx
    · exact hh i y hy
  | createdAccount =>
    have hne : x.owner ≠ s.catalog.next := Nat.ne_of_lt (hb.accounts _ (hh i x hx))
    exact fun hn => hh i x hx ((update_of_ne hne _ _).symm.trans hn)
  | @createdDocument owner _ _ h =>
    obtain ⟨hactive, rfl⟩ := Catalog.createDocument_cases h
    obtain rfl | hx := mem_createDocument hx
    · intro hn
      rw [hn] at hactive
      cases hactive
    · exact hh i x hx
  | erased account =>
    obtain ⟨y, hy, howner, -⟩ := mem_erase hx
    rw [← howner]
    exact mt Catalog.accounts_erase_eq_none.1 (hh i y hy)
  | removed => exact hh i x (mem_remove hx)
  | @forgotten account howned =>
    have hne : x.owner ≠ account := by
      rintro rfl
      have hmem := mem_owned hb hx
      rw [howned] at hmem
      cases hmem
    exact fun hn => hh i x hx ((update_of_ne hne _ _).symm.trans hn)

lemma Change.quiet (h : Change s o c) (ho : Orderly s o) (hq : s.catalog.Quiet) : c.Quiet := by
  cases h with
  | same => exact hq
  | tick n => exact hq
  | @account _ id f hquiet hf =>
    refine Quiet.of_fewer hq (fun i he => ?_) fun i x hx ha => ⟨x, hx, rfl, ha⟩
    apply erasing_of_update _ he
    rw [map_map]
    intro hrow
    obtain ⟨a, -, ha⟩ := map_eq_some_iff.1 hrow
    exact hf a ha
  | document howner _ hactive =>
    refine Quiet.of_fewer hq (fun i he => he) fun i x hx ha => ?_
    obtain hx | ⟨rfl, y, hy, rfl⟩ := mem_updateDocument hx
    · exact ⟨x, hx, rfl, ha⟩
    · exact ⟨y, hy, (howner y).symm, hactive y hy ha⟩
  | @restored caller id hdeleting =>
    intro i x hx ha he
    obtain hx | ⟨rfl, y, hy, rfl⟩ := mem_updateDocument hx
    · exact hq i x hx ha he
    · rw [mem_def.1 hy, map_some] at hdeleting
      injection hdeleting with hdeleting
      exact ho caller i rfl y hy hdeleting he
  | createdAccount =>
    refine Quiet.of_fewer hq (fun i he => ?_) fun i x hx ha => ⟨x, hx, rfl, ha⟩
    exact erasing_of_update (by simp) he
  | @createdDocument owner _ _ h =>
    obtain ⟨hactive, rfl⟩ := Catalog.createDocument_cases h
    intro i x hx ha he
    obtain rfl | hx := mem_createDocument hx
    · cases hactive.symm.trans he
    · exact hq i x hx ha he
  | erased account =>
    intro i x hx ha he
    obtain ⟨y, hy, howner, hactive⟩ := mem_erase hx
    obtain ⟨hya, hne⟩ := hactive ha
    apply hq i y hy hya
    unfold Catalog.Erasing at he ⊢
    rw [Catalog.accounts_erase, ← howner, if_neg hne] at he
    exact he
  | removed => exact Quiet.of_fewer hq (fun i he => he) fun i x hx ha => ⟨x, mem_remove hx, rfl, ha⟩
  | forgotten =>
    refine Quiet.of_fewer hq (fun i he => ?_) fun i x hx ha => ⟨x, hx, rfl, ha⟩
    exact erasing_of_update (by decide) he

/-- The worker deletes the objects of a document that is being purged. -/
structure Inv (s : System) : Prop where
  below : s.catalog.Below
  housed : s.catalog.Housed
  worker : ∀ id, s.worker = .purging id ∨ s.worker = .emptied id → s.catalog.Purging id

lemma begin_purging {task : Task} (h : s.begin task = .purging id ∨ s.begin task = .emptied id) :
    s.catalog.Purging id := by
  cases task with
  | delete i =>
    simp only [begin] at h
    cases hd : s.catalog.documents i with
    | none => simp [hd] at h
    | some d =>
      rw [hd] at h
      simp only at h
      split_ifs at h with hp hdue
      · obtain h | h := h
        · injection h with h
          rw [← h, Catalog.Purging, hd, map_some, hp.1]
        · cases h
      all_goals simp at h
  | eraseAccount account after =>
    simp only [begin] at h
    split_ifs at h <;> simp at h

lemma purging_claim (h : (c.claimDocumentPurge id).2 = true) :
    (c.claimDocumentPurge id).1.Purging id := by
  obtain hno | ⟨⟨d, hd, -⟩, hyes⟩ := c.claimDocumentPurge_cases id
  · rw [hno] at h
    cases h
  · rw [hyes, Catalog.Purging, Catalog.documents_updateDocument, if_pos rfl, mem_def.1 hd]
    rfl

lemma advance_purging (hs : s.Inv)
    (h : s.advance.worker = .purging id ∨ s.advance.worker = .emptied id) :
    s.advance.catalog.Purging id := by
  cases hw : s.worker with
  | idle => simp [advance, hw] at h
  | claiming i =>
    simp only [advance, hw] at h ⊢
    by_cases hclaimed : (s.catalog.claimDocumentPurge i).2 = true
    · rw [if_pos hclaimed] at h
      obtain h | h := h
      · injection h with h
        rw [← h]
        exact purging_claim hclaimed
      · cases h
    · rw [if_neg hclaimed] at h
      simp at h
  | purging i =>
    simp only [advance, hw] at h ⊢
    obtain h | h := h
    · cases h
    · injection h with h
      rw [← h]
      exact hs.worker i (.inl hw)
  | emptied i => simp [advance, hw] at h
  | listing account after =>
    simp only [advance, hw] at h
    split_ifs at h <;> simp at h
  | finishing account => simp [advance, hw] at h

lemma worker_after (s : System) (r : Result) : (s.after r).worker = s.worker := by cases r <;> rfl

lemma emptied_after (s : System) (r : Result) : (s.after r).emptied = s.emptied := by
  cases r <;> rfl

/-- Only the worker's own steps move it. -/
lemma worker_step (h : s.step o = some t) :
    t.worker = s.worker ∧ o ≠ .advance ∨ (∃ task, o = .work task ∧ t = { s with worker := s.begin task }) ∨
      o = .advance ∧ t = s.advance ∨ t.worker = .idle := by
  cases o with
  | work task =>
    simp only [step] at h
    split_ifs at h
    cases h
    exact .inr (.inl ⟨task, rfl, rfl⟩)
  | advance =>
    cases h
    exact .inr (.inr (.inl ⟨rfl, rfl⟩))
  | stop =>
    cases h
    exact .inr (.inr (.inr rfl))
  | permit =>
    simp only [step] at h
    split_ifs at h
    cases h
    exact .inl ⟨rfl, Op.noConfusion⟩
  | restore =>
    simp only [step] at h
    split_ifs at h
    cases h
    exact .inl ⟨rfl, Op.noConfusion⟩
  | createDocument | beginErasure | eraseByOperator | moderate =>
    cases h
    exact .inl ⟨worker_after _ _, Op.noConfusion⟩
  | tick | createAccount | markDeleting | hasten =>
    cases h
    exact .inl ⟨rfl, Op.noConfusion⟩

lemma Inv.step (hs : s.Inv) (h : s.step o = some t) : t.Inv := by
  have hchange := change_step h
  have hkept := hchange.kept hs.below
  refine ⟨hkept.below hs.below, hchange.housed hs.below hs.housed, fun id hw => ?_⟩
  obtain ⟨hsame, hne⟩ | ⟨task, rfl, rfl⟩ | ⟨rfl, rfl⟩ | hidle := worker_step h
  · rw [hsame] at hw
    have hp := hs.worker id hw
    refine (hkept.purging id hp).resolve_left ?_
    apply hchange.stays hs.below _ fun ho => absurd ho hne
    intro hn
    rw [Catalog.Purging, hn] at hp
    cases hp
  · exact begin_purging hw
  · exact advance_purging hs hw
  · simp [hidle] at hw

/-- The objects that a step deletes are those of a document that is being purged. -/
lemma Inv.emptied (hs : s.Inv) (h : s.step o = some t) :
    t.emptied = s.emptied ∨ ∃ id, t.emptied = id :: s.emptied ∧ s.catalog.Purging id := by
  cases o with
  | advance =>
    cases h
    cases hw : s.worker with
    | purging id =>
      right
      refine ⟨id, ?_, hs.worker id (.inl hw)⟩
      simp only [advance, hw]
    | finishing account =>
      left
      simp only [advance, hw]
      exact emptied_after _ _
    | idle | claiming | emptied | listing => exact .inl (by simp only [advance, hw])
  | permit | restore | work =>
    simp only [System.step] at h
    split_ifs at h
    cases h
    exact .inl rfl
  | createDocument | beginErasure | eraseByOperator | moderate =>
    cases h
    exact .inl (emptied_after _ _)
  | tick | createAccount | markDeleting | hasten | stop =>
    cases h
    exact .inl rfl

lemma inv_empty (now : ℤ) : (empty now).Inv where
  below := ⟨fun _ => absurd rfl, fun _ => absurd rfl⟩
  housed _ _ h := by cases h
  worker _ h := by simp [empty] at h

lemma quiet_empty (now : ℤ) : (empty now).catalog.Quiet := fun _ _ h => by cases h

lemma Inv.kept {l : List Op} {allowed : System → Op → Prop} (hs : s.Inv)
    (h : Run System.step allowed s l t) : s.catalog.Kept t.catalog := by
  refine Run.related (I := Inv) (R := fun s t => s.catalog.Below → s.catalog.Kept t.catalog)
    (fun _ _ _ hs _ h => hs.step h) (fun _ _ => .refl _)
    (fun _ _ _ h k hb => (h hb).trans hb (k ((h hb).below hb)))
    (fun _ _ _ _ _ h hb => (change_step h).kept hb) h hs hs.below

/-- An erasure stays one until the account's row goes, which it does only when the account owns
nothing, and no active document is owned by it; a purge stays one until the document's row goes,
and objects are deleted only in a purge. -/
theorem erasure_and_deletion_final {now : ℤ} {l : List Op} {s : System}
    (h : Run step Orderly (empty now) l s) :
    (∀ account, s.catalog.Erasing account → ∀ m t, Run step Orderly s m t →
      (t.catalog.accounts account = none ∨ t.catalog.Erasing account) ∧
        ∀ id, ∀ d ∈ t.catalog.documents id, d.owner = account → d.status ≠ .active) ∧
    (∀ id, s.catalog.Purging id → ∀ m t, Run step Orderly s m t →
      t.catalog.documents id = none ∨ t.catalog.Purging id) ∧
    ∀ o t, s.step o = some t →
      (∀ account, s.catalog.accounts account ≠ none → t.catalog.accounts account = none →
        ∀ id, ∀ d ∈ s.catalog.documents id, d.owner ≠ account) ∧
      (t.emptied = s.emptied ∨ ∃ id, t.emptied = id :: s.emptied ∧ s.catalog.Purging id) := by
  have hinv : s.Inv ∧ s.catalog.Quiet := by
    refine Run.invariant (I := fun s => s.Inv ∧ s.catalog.Quiet) ?_ h
      ⟨inv_empty now, quiet_empty now⟩
    intro s o t hs ho hstep
    exact ⟨hs.1.step hstep, (change_step hstep).quiet ho hs.2⟩
  refine ⟨fun account he m t k => ?_, fun id hp m t k => ?_, fun o t hstep => ⟨?_, ?_⟩⟩
  · have hkept := hinv.1.kept k
    have hinv' : t.Inv ∧ t.catalog.Quiet := by
      refine Run.invariant (I := fun s => s.Inv ∧ s.catalog.Quiet) ?_ k hinv
      intro s o t hs ho hstep
      exact ⟨hs.1.step hstep, (change_step hstep).quiet ho hs.2⟩
    refine ⟨hkept.erasing account he, ?_⟩
    rintro id d hd rfl hactive
    obtain hgone | he := hkept.erasing _ he
    · exact hinv'.1.housed id d hd hgone
    · exact hinv'.2 id d hd hactive he
  · exact (hinv.1.kept k).purging id hp
  · rintro account hthere hgone id d hd rfl
    have hmem := mem_owned hinv.1.below hd
    rw [(change_step hstep).owned hinv.1.below hthere hgone] at hmem
    cases hmem
  · exact hinv.1.emptied hstep

lemma orderly_of_ne (h : ∀ caller id, o ≠ .restore caller id) :
    Orderly s o := fun caller id ho => absurd ho (h caller id)

/-- A document that was thrown away and taken back before its owner's erasure is not taken back
again. -/
theorem erasure_after_a_restore : ∃ s, Run step Orderly (empty 0)
    [.createAccount true, .createDocument 1, .markDeleting 2, .permit 1 2, .restore 1 2,
      .beginErasure 1] s ∧
    ∀ m t, Run step Orderly s m t →
      (t.catalog.accounts 1 = none ∨ t.catalog.Erasing 1) ∧
        ∀ id, ∀ d ∈ t.catalog.documents id, d.owner = 1 → d.status ≠ .active := by
  obtain ⟨s, hrun, he⟩ : ∃ s, Run step Orderly (empty 0) [.createAccount true,
      .createDocument 1, .markDeleting 2, .permit 1 2, .restore 1 2, .beginErasure 1] s ∧
      s.catalog.Erasing 1 := by
    refine ⟨_, .cons (orderly_of_ne fun _ _ => Op.noConfusion) rfl
      (.cons (orderly_of_ne fun _ _ => Op.noConfusion) rfl
      (.cons (orderly_of_ne fun _ _ => Op.noConfusion) rfl
      (.cons (orderly_of_ne fun _ _ => Op.noConfusion) rfl
      (.cons ?_ rfl (.cons (orderly_of_ne fun _ _ => Op.noConfusion) rfl (.nil _)))))), rfl⟩
    rintro _ _ ⟨⟩ d hd - he
    cases hd
    cases he
  exact ⟨s, hrun, (erasure_and_deletion_final hrun).1 1 he⟩

/-- A caller that was let to restore a document before an erasure began gets it back after. -/
theorem restored_under_an_erasure : ¬∀ l s, Run step anyStep (empty 0) l s →
    ∀ account, s.catalog.Erasing account → ∀ id, ∀ d ∈ s.catalog.documents id,
      d.owner = account → d.status ≠ .active := by
  intro h
  have hrun : Run step anyStep (empty 0) [.createAccount true, .createDocument 1,
      .markDeleting 2, .permit 1 2, .beginErasure 1, .restore 1 2] _ :=
    .cons trivial rfl (.cons trivial rfl (.cons trivial rfl (.cons trivial rfl
      (.cons trivial rfl (.cons trivial rfl (.nil _))))))
  exact h _ _ hrun 1 rfl 2 ⟨1, .active, none⟩ rfl rfl rfl

end System
end LibrePaper.Accounts
