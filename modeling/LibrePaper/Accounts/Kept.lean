import LibrePaper.Accounts.Catalog

/-!
# What no call of the catalogue undoes

An account that is being erased stays so until its row goes, and so does a document that is
being purged.
-/
namespace LibrePaper.Accounts
open Option Function

namespace Catalog

/-- The account is being erased. -/
def Erasing (c : Catalog) (account : ℕ) : Prop :=
  (c.accounts account).map Account.status = some .erasing

def Purging (c : Catalog) (document : ℕ) : Prop :=
  (c.documents document).map Document.status = some .purging

/-- No document of an account that is being erased is active. -/
def Quiet (c : Catalog) : Prop :=
  ∀ id, ∀ d ∈ c.documents id, d.status = .active → ¬c.Erasing d.owner

/-- Every document's owner has a row. -/
def Housed (c : Catalog) : Prop :=
  ∀ id, ∀ d ∈ c.documents id, c.accounts d.owner ≠ none

/-- Every row has an id that was given out. -/
structure Below (c : Catalog) : Prop where
  accounts : ∀ id, c.accounts id ≠ none → id < c.next
  documents : ∀ id, c.documents id ≠ none → id < c.next

/-- What no call undoes: a row that is gone, an erasure and a purge. -/
structure Kept (c d : Catalog) : Prop where
  next : c.next ≤ d.next
  account_gone : ∀ id < c.next, c.accounts id = none → d.accounts id = none
  erasing : ∀ id, c.Erasing id → d.accounts id = none ∨ d.Erasing id
  document_gone : ∀ id < c.next, c.documents id = none → d.documents id = none
  purging : ∀ id, c.Purging id → d.documents id = none ∨ d.Purging id
  below : c.Below → d.Below

lemma Kept.refl (c : Catalog) : c.Kept c :=
  ⟨le_rfl, fun _ _ h => h, fun _ => .inr, fun _ _ h => h, fun _ => .inr, id⟩

lemma Kept.trans {c d e : Catalog} (hb : c.Below) (h : c.Kept d) (k : d.Kept e) : c.Kept e where
  next := h.next.trans k.next
  account_gone i hi hn := k.account_gone i (lt_of_lt_of_le hi h.next) (h.account_gone i hi hn)
  erasing i he := by
    have hi : i < c.next := hb.accounts i fun hn => by
      rw [Erasing, hn] at he
      cases he
    obtain hgone | he := h.erasing i he
    · exact .inl (k.account_gone i (lt_of_lt_of_le hi h.next) hgone)
    · exact k.erasing i he
  document_gone i hi hn := k.document_gone i (lt_of_lt_of_le hi h.next) (h.document_gone i hi hn)
  purging i hp := by
    have hi : i < c.next := hb.documents i fun hn => by
      rw [Purging, hn] at hp
      cases hp
    obtain hgone | hp := h.purging i hp
    · exact .inl (k.document_gone i (lt_of_lt_of_le hi h.next) hgone)
    · exact k.purging i hp
  below hb := k.below (h.below hb)

lemma documents_updateDocument (c : Catalog) (id : ℕ) (f : Document → Document) (i : ℕ) :
    (c.updateDocument id f).documents i =
      if i = id then (c.documents i).map f else c.documents i := by
  simp only [updateDocument, update_apply]
  by_cases hi : i = id
  · rw [if_pos hi, if_pos hi, hi]
  · rw [if_neg hi, if_neg hi]

lemma accounts_updateAccount (c : Catalog) (id : ℕ) (f : Account → Account) (i : ℕ) :
    (c.updateAccount id f).accounts i =
      if i = id then (c.accounts i).map f else c.accounts i := by
  simp only [updateAccount, update_apply]
  by_cases hi : i = id
  · rw [if_pos hi, if_pos hi, hi]
  · rw [if_neg hi, if_neg hi]

lemma accounts_erase (c : Catalog) (account i : ℕ) :
    (c.erase account).accounts i =
      if i = account then (c.accounts i).map fun a =>
        { a with status := .erasing, sessionGeneration := a.sessionGeneration + 1 }
      else c.accounts i := by
  simp only [erase, update_apply]
  by_cases hi : i = account
  · rw [if_pos hi, if_pos hi, hi]
  · rw [if_neg hi, if_neg hi]

variable {c d : Catalog} {id i account owner : ℕ} {f : Document → Document} {b : Bool}

lemma documents_updateDocument_eq_none :
    (c.updateDocument id f).documents i = none ↔ c.documents i = none := by
  rw [documents_updateDocument]
  by_cases hi : i = id
  · rw [if_pos hi, map_eq_none_iff]
  · rw [if_neg hi]

lemma accounts_updateAccount_eq_none {f : Account → Account} :
    (c.updateAccount id f).accounts i = none ↔ c.accounts i = none := by
  rw [accounts_updateAccount]
  by_cases hi : i = id
  · rw [if_pos hi, map_eq_none_iff]
  · rw [if_neg hi]

lemma accounts_erase_eq_none : (c.erase account).accounts i = none ↔ c.accounts i = none := by
  rw [accounts_erase]
  by_cases hi : i = account
  · rw [if_pos hi, map_eq_none_iff]
  · rw [if_neg hi]

lemma documents_erase_eq_none : (c.erase account).documents i = none ↔ c.documents i = none :=
  map_eq_none_iff

/-- A call after which the same rows stand, with what is being erased or purged. -/
lemma Kept.of_same_rows (hnext : d.next = c.next)
    (haccount : ∀ i, d.accounts i = none ↔ c.accounts i = none)
    (hdocument : ∀ i, d.documents i = none ↔ c.documents i = none)
    (herasing : ∀ i, c.Erasing i → d.Erasing i) (hpurging : ∀ i, c.Purging i → d.Purging i) :
    c.Kept d where
  next := by rw [hnext]
  account_gone i _ h := (haccount i).2 h
  erasing i h := .inr (herasing i h)
  document_gone i _ h := (hdocument i).2 h
  purging i h := .inr (hpurging i h)
  below hb := by
    constructor
    · intro i hi
      rw [hnext]
      exact hb.accounts i (mt (haccount i).2 hi)
    · intro i hi
      rw [hnext]
      exact hb.documents i (mt (hdocument i).2 hi)

/-- An update of one document that leaves a purge one. -/
lemma kept_updateDocument
    (h : ∀ d ∈ c.documents id, d.status = .purging → (f d).status = .purging) :
    c.Kept (c.updateDocument id f) := by
  refine Kept.of_same_rows (c := c) (d := c.updateDocument id f) rfl (fun _ => Iff.rfl)
    (fun _ => documents_updateDocument_eq_none) (fun _ he => he) ?_
  intro i hp
  unfold Purging
  rw [documents_updateDocument]
  by_cases hi : i = id
  · obtain ⟨d, hd, hstatus⟩ := map_eq_some_iff.1 hp
    rw [if_pos hi, hd, map_some, map_some, h d (hi ▸ hd) hstatus]
  · rw [if_neg hi]
    exact hp

/-- An update of one account that is not being erased. -/
lemma kept_updateAccount {f : Account → Account} (h : ¬c.Erasing id) :
    c.Kept (c.updateAccount id f) := by
  refine Kept.of_same_rows (c := c) (d := c.updateAccount id f) rfl
    (fun _ => accounts_updateAccount_eq_none) (fun _ => Iff.rfl) ?_ (fun _ hp => hp)
  intro i he
  have hi : i ≠ id := by
    rintro rfl
    exact h he
  unfold Erasing
  rw [accounts_updateAccount, if_neg hi]
  exact he

lemma status_trash {d : Document} {now : ℤ} (h : d.status ≠ .active) : d.trash now = d := by
  unfold Document.trash
  rw [if_neg h]

lemma trash_not_active (d : Document) (now : ℤ) : (d.trash now).status ≠ .active := by
  unfold Document.trash
  by_cases h : d.status = .active
  · rw [if_pos h]
    exact DocumentStatus.noConfusion
  · rw [if_neg h]
    exact h

lemma trash_owner (d : Document) (now : ℤ) : (d.trash now).owner = d.owner := by
  unfold Document.trash
  by_cases h : d.status = .active
  · rw [if_pos h]
  · rw [if_neg h]

/-- An erasure that begins: the account's documents go to the trash. -/
lemma kept_erase (c : Catalog) (account : ℕ) : c.Kept (c.erase account) := by
  refine Kept.of_same_rows (c := c) (d := c.erase account) rfl (fun _ => accounts_erase_eq_none)
    (fun _ => documents_erase_eq_none) ?_ ?_
  · intro i he
    unfold Erasing
    rw [accounts_erase]
    by_cases hi : i = account
    · obtain ⟨a, ha, -⟩ := map_eq_some_iff.1 he
      rw [if_pos hi, ha]
      rfl
    · rw [if_neg hi]
      exact he
  · intro i hp
    obtain ⟨d, hd, hstatus⟩ := map_eq_some_iff.1 hp
    have hsame : (if d.owner = account then d.trash c.now else d) = d := by
      rw [status_trash (by rw [hstatus]; decide), ite_self]
    unfold Purging erase
    simp only
    rw [hd, map_some, map_some, hsame, hstatus]

lemma kept_createAccount (registered : Bool) (hb : c.Below) :
    c.Kept (c.createAccount registered) := by
  have hrow : ∀ i, i ≠ c.next → (c.createAccount registered).accounts i = c.accounts i := by
    intro i hi
    exact update_of_ne hi _ _
  have hfree : c.accounts c.next = none := by
    by_contra hne
    exact lt_irrefl _ (hb.accounts _ hne)
  constructor
  · exact Nat.le_succ _
  · intro i hi hnone
    rw [hrow i (Nat.ne_of_lt hi), hnone]
  · intro i he
    right
    have hi : i ≠ c.next := by
      rintro rfl
      rw [Erasing, hfree] at he
      cases he
    rw [Erasing, hrow i hi]
    exact he
  · exact fun _ _ h => h
  · exact fun _ => .inr
  · intro _
    constructor
    · intro i hi
      show i < c.next + 1
      by_cases heq : i = c.next
      · omega
      · rw [hrow i heq] at hi
        exact Nat.lt_succ_of_lt (hb.accounts i hi)
    · intro i hi
      exact Nat.lt_succ_of_lt (hb.documents i hi)

lemma createDocument_cases (h : c.createDocument owner = .ok (d, b)) :
    (c.accounts owner).map Account.status = some .active ∧
      d = { c with
        documents := update c.documents c.next (some ⟨owner, .active, none⟩)
        next := c.next + 1 } := by
  unfold createDocument at h
  by_cases hactive : (c.accounts owner).map Account.status = some .active
  · rw [if_pos hactive] at h
    injection h with h
    exact ⟨hactive, (congrArg Prod.fst h).symm⟩
  · rw [if_neg hactive] at h
    cases h

lemma kept_createDocument (h : c.createDocument owner = .ok (d, b)) (hb : c.Below) :
    c.Kept d := by
  obtain ⟨-, rfl⟩ := createDocument_cases h
  have hrow : ∀ i, i ≠ c.next →
      Function.update c.documents c.next (some ⟨owner, .active, none⟩) i = c.documents i := by
    intro i hi
    exact Function.update_of_ne hi _ _
  have hfree : c.documents c.next = none := by
    by_contra hne
    exact lt_irrefl _ (hb.documents _ hne)
  constructor
  · exact Nat.le_succ _
  · exact fun _ _ h => h
  · exact fun _ => .inr
  · intro i hi hnone
    exact (hrow i (Nat.ne_of_lt hi)).trans hnone
  · intro i hp
    right
    have hi : i ≠ c.next := by
      rintro rfl
      rw [Purging, hfree] at hp
      cases hp
    exact (congrArg (Option.map Document.status) (hrow i hi)).trans hp
  · intro _
    constructor
    · intro i hi
      exact Nat.lt_succ_of_lt (hb.accounts i hi)
    · intro i hi
      show i < c.next + 1
      by_cases heq : i = c.next
      · omega
      · exact Nat.lt_succ_of_lt (hb.documents i fun hn => hi ((hrow i heq).trans hn))

lemma markDocumentDeleting_cases (c : Catalog) (id : ℕ) :
    (c.markDocumentDeleting id).1 = c ∨
      (c.markDocumentDeleting id).1 = c.updateDocument id (Document.trash c.now) := by
  unfold markDocumentDeleting
  split_ifs
  · exact .inr rfl
  · exact .inl rfl

lemma restoreDocument_cases (c : Catalog) (id : ℕ) :
    (c.restoreDocument id).1 = c ∨
      (c.documents id).map Document.status = some .deleting ∧ (c.restoreDocument id).1 =
        c.updateDocument id fun d => { d with status := .active, deletedAt := none } := by
  unfold restoreDocument
  split_ifs with h
  · exact .inr ⟨h, rfl⟩
  · exact .inl rfl

lemma hastenDeletion_cases (c : Catalog) (id : ℕ) :
    (c.hastenDeletion id).1 = c ∨ (c.hastenDeletion id).1 =
      c.updateDocument id fun d => { d with deletedAt := some (c.now - 2 * deletionGrace) } := by
  unfold hastenDeletion
  split_ifs
  · exact .inr rfl
  · exact .inl rfl

lemma claimDocumentPurge_cases (c : Catalog) (id : ℕ) :
    c.claimDocumentPurge id = (c, false) ∨
      (∃ d ∈ c.documents id, c.Due d) ∧ c.claimDocumentPurge id =
        (c.updateDocument id fun d => { d with status := .purging }, true) := by
  unfold claimDocumentPurge
  split_ifs with h
  · exact .inr ⟨h, rfl⟩
  · exact .inl rfl

lemma finishDocumentDeletion_cases (c : Catalog) (id : ℕ) :
    (c.finishDocumentDeletion id).1 = c ∨ (c.finishDocumentDeletion id).1 =
      { c with documents := update c.documents id none } := by
  unfold finishDocumentDeletion
  split_ifs
  · exact .inr rfl
  · exact .inl rfl

lemma beginAccountErasure_cases (h : c.beginAccountErasure account = .ok (d, b)) :
    d = c ∨ d = c.erase account := by
  unfold beginAccountErasure at h
  split at h
  · cases h
  · injection h with h
    exact .inr (congrArg Prod.fst h).symm
  · injection h with h
    exact .inl (congrArg Prod.fst h).symm
  · cases h

lemma eraseAccountByOperator_cases (h : c.eraseAccountByOperator account = .ok (d, b)) :
    d = c.erase account := by
  unfold eraseAccountByOperator at h
  split at h
  · cases h
  · split_ifs at h
    injection h with h
    exact (congrArg Prod.fst h).symm

lemma moderateAccount_cases {blocked : Bool} (h : c.moderateAccount account blocked = .ok (d, b)) :
    d = c ∨ ¬c.Erasing account ∧ ∃ f : Account → Account,
      (∀ a, (f a).status ≠ .erasing) ∧ d = c.updateAccount account f := by
  cases ha : c.accounts account with
  | none =>
    rw [moderateAccount, ha] at h
    cases h
  | some a =>
    rw [moderateAccount, ha] at h
    simp only at h
    split_ifs at h with hblocked hboth hexpected hother hactive
    · injection h with h
      refine .inr ⟨?_, _, fun a => ?_, (congrArg Prod.fst h).symm⟩
      · rw [Erasing, ha, map_some, hexpected]
        decide
      · exact AccountStatus.noConfusion
    · injection h with h
      exact .inl (congrArg Prod.fst h).symm
    · injection h with h
      refine .inr ⟨?_, _, fun a => ?_, (congrArg Prod.fst h).symm⟩
      · rw [Erasing, ha, map_some, hactive]
        decide
      · exact AccountStatus.noConfusion
    · injection h with h
      exact .inl (congrArg Prod.fst h).symm

lemma finishAccountErasure_cases (h : c.finishAccountErasure account = .ok (d, b)) :
    d = c ∨ c.owned account = [] ∧ d = { c with accounts := update c.accounts account none } := by
  unfold finishAccountErasure at h
  split_ifs at h with howned
  · injection h with h
    exact .inr ⟨not_not.1 howned, (congrArg Prod.fst h).symm⟩
  · injection h with h
    exact .inl (congrArg Prod.fst h).symm

/-- A document's row goes. -/
lemma kept_remove (c : Catalog) (id : ℕ) :
    c.Kept { c with documents := Function.update c.documents id none } := by
  have hrow : ∀ i, Function.update c.documents id none i = none ∨
      Function.update c.documents id none i = c.documents i := by
    intro i
    by_cases hi : i = id
    · exact .inl (by rw [hi, Function.update_self])
    · exact .inr (Function.update_of_ne hi _ _)
  constructor
  · exact le_rfl
  · exact fun _ _ h => h
  · exact fun _ => .inr
  · intro i _ hnone
    exact (hrow i).elim (fun h => h) fun h => h.trans hnone
  · intro i hp
    apply (hrow i).imp fun h => h
    intro h
    exact (congrArg (Option.map Document.status) h).trans hp
  · intro hb
    refine ⟨hb.accounts, fun i hi => hb.documents i fun hn => hi ?_⟩
    exact (hrow i).elim (fun h => h) fun h => h.trans hn

/-- An account's row goes. -/
lemma kept_forget (c : Catalog) (account : ℕ) :
    c.Kept { c with accounts := Function.update c.accounts account none } := by
  have hrow : ∀ i, i ≠ account → Function.update c.accounts account none i = c.accounts i := by
    intro i hi
    exact Function.update_of_ne hi _ _
  have hgone : ∀ i, c.accounts i = none → Function.update c.accounts account none i = none := by
    intro i hn
    by_cases hi : i = account
    · rw [hi, Function.update_self]
    · exact (hrow i hi).trans hn
  constructor
  · exact le_rfl
  · exact fun i _ => hgone i
  · intro i he
    by_cases hi : i = account
    · left
      show Function.update c.accounts account none i = none
      rw [hi, Function.update_self]
    · exact .inr ((congrArg (Option.map Account.status) (hrow i hi)).trans he)
  · exact fun _ _ h => h
  · exact fun _ => .inr
  · intro hb
    exact ⟨fun i hi => hb.accounts i (mt (hgone i) hi), hb.documents⟩

end Catalog
end LibrePaper.Accounts
