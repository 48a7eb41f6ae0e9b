import LibrePaper.Creation.Kept

/-!
# A project is created whole

Every row is found again after a step, but for one that nothing was committed to and that its
attempt removes. A save that is complete is left alone by its retries.
-/
namespace LibrePaper.Creation
open Library List

/-- The attempt does not stop, and the reply to its creation arrives. -/
def Op.Stays {P T D : Type*} : Op P T D → Prop
  | .drop _ => False
  | .createDocument _ replied => replied = true
  | _ => True

/-- The attempt that takes the step. -/
def Op.attempt {P T D : Type*} : Op P T D → ℕ
  | .start c _ _ _ _ _ | .templateOperation c | .beginTemplateOperation c _ | .documentBySlug c
  | .createDocument c _ | .refuse c | .commit c _ _ | .discard c | .drop c => c

namespace Catalog
variable {P T D : Type*} {s s' : Catalog P T D} {c : ℕ} {x : Attempt P T D}

/-- A row with anything in it stays, with all its labels, and a target stays the target. -/
structure Keeps (s s' : Catalog P T D) : Prop where
  documents : ∀ d ∈ s.documents, (∃ d' ∈ s'.documents, d'.id = d.id ∧ d'.slug = d.slug ∧
    d.labels <+: d'.labels) ∨ d.updateSequence = 0 ∧ d.labels = []
  operations : ∀ o ∈ s.operations, ∃ o' ∈ s'.operations, o'.owner = o.owner ∧
    o'.request = o.request ∧ o'.target = o.target

/-- No row is abandoned that was not. -/
def Abandons (s s' : Catalog P T D) : Prop :=
  ∀ d' ∈ s'.documents, d'.abandoned = true → ∃ d ∈ s.documents, d.abandoned = true

lemma Keeps.of_eq (hdocuments : s'.documents = s.documents)
    (hoperations : s'.operations = s.operations) : s.Keeps s' :=
  ⟨fun d hd => .inl ⟨d, hdocuments ▸ hd, rfl, rfl, prefix_rfl⟩,
    fun o ho => ⟨o, hoperations ▸ ho, rfl, rfl, rfl⟩⟩

lemma Abandons.of_eq (hdocuments : s'.documents = s.documents) : s.Abandons s' :=
  fun d hd habandoned => ⟨d, hdocuments ▸ hd, habandoned⟩

lemma Keeps.of_append {rows : List (Document P T D)} {more : List TemplateOperation}
    (hdocuments : s'.documents = s.documents ++ rows)
    (hoperations : s'.operations = s.operations ++ more) : s.Keeps s' :=
  ⟨fun d hd => .inl ⟨d, hdocuments ▸ mem_append_left _ hd, rfl, rfl, prefix_rfl⟩,
    fun o ho => ⟨o, hoperations ▸ mem_append_left _ ho, rfl, rfl, rfl⟩⟩

variable {d : Document P T D} {replied batch : Bool} {id : ℕ} {save : Save} {o : TemplateOperation}

lemma Abandons.of_append (hdocuments : s'.documents = s.documents ++ [d])
    (hd : d.abandoned = false) : s.Abandons s' := by
  intro e he habandoned
  rw [hdocuments] at he
  rcases mem_append.1 he with he | he
  · exact ⟨e, he, habandoned⟩
  · cases mem_singleton.1 he
    cases hd.symm.trans habandoned

lemma keeps_templateOperation (hs : s.templateOperation c = some s') :
    s.Keeps s' ∧ s.Abandons s' := by
  rw [Catalog.templateOperation] at hs
  repeat' split at hs
  all_goals cases hs
  all_goals exact ⟨.of_eq rfl rfl, .of_eq rfl⟩

lemma keeps_beginTemplateOperation (hs : s.beginTemplateOperation c replied = some s') :
    s.Keeps s' ∧ s.Abandons s' := by
  rw [Catalog.beginTemplateOperation] at hs
  split at hs
  · split at hs
    · cases hs
      exact ⟨.of_eq rfl rfl, .of_eq rfl⟩
    · split at hs <;> cases hs
      · exact ⟨.of_eq rfl rfl, .of_eq rfl⟩
      · exact ⟨.of_append rfl rfl, .of_append rfl rfl⟩
  · cases hs

lemma keeps_documentBySlug (hs : s.documentBySlug c = some s') :
    s.Keeps s' ∧ s.Abandons s' := by
  rw [Catalog.documentBySlug] at hs
  repeat' split at hs
  all_goals cases hs
  all_goals exact ⟨.of_eq rfl rfl, .of_eq rfl⟩

lemma keeps_createDocument (hs : s.createDocument c replied = some s') :
    s.Keeps s' ∧ (replied = true → s.Abandons s') := by
  rw [Catalog.createDocument] at hs
  split at hs
  · split at hs <;> cases hs
    · exact ⟨.of_eq rfl rfl, fun _ => .of_eq rfl⟩
    · refine ⟨.of_append rfl (append_nil _).symm, fun hreplied => .of_append rfl ?_⟩
      subst hreplied
      rfl
  · cases hs

lemma keeps_commit [DecidableEq P] (hs : s.commit c batch replied = some s') :
    s.Keeps s' ∧ s.Abandons s' := by
  rw [Catalog.commit] at hs
  split at hs
  · split at hs
    · cases hs
      exact ⟨.of_eq rfl rfl, .of_eq rfl⟩
    · split at hs
      · cases hs
        exact ⟨.of_eq rfl rfl, .of_eq rfl⟩
      · split at hs <;> cases hs
        · exact ⟨.of_eq rfl rfl, .of_eq rfl⟩
        · next hcompleted =>
          refine ⟨⟨fun d hd => .inl ⟨_, mem_map_of_mem hd, ?_⟩, fun o ho => ?_⟩,
            fun d' hd' habandoned => ?_⟩
          · split
            · exact ⟨rfl, rfl, prefix_append ..⟩
            · exact ⟨rfl, rfl, prefix_rfl⟩
          · obtain ⟨o', ho', howner, hrequest, htarget, -⟩ := (completes hcompleted).kept o ho
            exact ⟨o', ho', howner, hrequest, htarget⟩
          · obtain ⟨d, hd, ⟨-, rfl⟩ | ⟨-, rfl⟩⟩ := mem_updateDocument hd'
            · exact ⟨d, hd, habandoned⟩
            · exact ⟨d', hd, habandoned⟩
  · cases hs

lemma keeps_discardUnwrittenDocument (hs : s.discardUnwrittenDocument c = some s') :
    s.Keeps s' ∧ s.Abandons s' := by
  rw [Catalog.discardUnwrittenDocument] at hs
  split at hs
  · next account policyEdit slug files save id created hx =>
    split at hs <;> cases hs
    · refine ⟨⟨fun d hd => ?_, fun o ho => ⟨o, ho, rfl, rfl, rfl⟩⟩, fun d hd habandoned =>
        ⟨d, (mem_filter.1 hd).1, habandoned⟩⟩
      by_cases hdiscardable : discardable d id account = true
      · exact .inr (discardable_iff.1 hdiscardable).2.2
      · refine .inl ⟨d, mem_filter.2 ⟨hd, ?_⟩, rfl, rfl, prefix_rfl⟩
        rw [Bool.not_eq_true', Bool.eq_false_iff]
        exact hdiscardable
    · exact ⟨.of_eq rfl rfl, .of_eq rfl⟩
  · cases hs

variable [DecidableEq P]

lemma keeps_step {op : Op P T D} (hs : s.step op = some s') :
    s.Keeps s' ∧ (op.Stays → s.Abandons s') := by
  cases op with
  | start c account policyEdit slug files save =>
    have hs : s.start c _ = some s' := hs
    rw [Catalog.start] at hs
    split at hs <;> cases hs
    exact ⟨.of_eq rfl rfl, fun _ => .of_eq rfl⟩
  | templateOperation c => exact (keeps_templateOperation hs).imp_right fun h _ => h
  | beginTemplateOperation c replied =>
    exact (keeps_beginTemplateOperation hs).imp_right fun h _ => h
  | documentBySlug c => exact (keeps_documentBySlug hs).imp_right fun h _ => h
  | createDocument c replied => exact keeps_createDocument hs
  | refuse c =>
    have hs : s.refuse c = some s' := hs
    rw [Catalog.refuse] at hs
    split at hs <;> cases hs
    exact ⟨.of_eq rfl rfl, fun _ => .of_eq rfl⟩
  | commit c batch replied => exact (keeps_commit hs).imp_right fun h _ => h
  | discard c => exact (keeps_discardUnwrittenDocument hs).imp_right fun h _ => h
  | drop c =>
    obtain ⟨x, hx, rfl⟩ := Option.map_eq_some_iff.1 hs
    refine ⟨⟨fun d hd => .inl ⟨_, mem_map_of_mem hd, ?_⟩,
      fun o ho => ⟨o, ho, rfl, rfl, rfl⟩⟩, False.elim⟩
    split <;> exact ⟨rfl, rfl, prefix_rfl⟩

omit [DecidableEq P] in
lemma Writes.not_created {created : Bool} (h : s.Writes x id created)
    (hsave : x.save = some save) : created = false := by
  cases created with
  | false => rfl
  | true => cases (h.plain rfl).1.symm.trans hsave

omit [DecidableEq P] in
lemma findOperation_isSome (ho : o ∈ s.operations) {owner request : ℕ} (howner : o.owner = owner)
    (hrequest : o.request = request) : (s.findOperation owner request).isSome = true := by
  rw [findOperation, find?_isSome]
  exact ⟨o, ho, decide_eq_true ⟨howner, hrequest⟩⟩

/-- The command of a save that is complete has its label on the target. -/
lemma Inv.replays (h : s.Inv) (htargets : s.Targets x save id) (ho : o ∈ s.operations)
    (howner : o.owner = x.account) (hrequest : o.request = save.request)
    (hcomplete : o.complete = true) (hd : s.findDocument id = some d) :
    .client save.request ∈ d.labels := by
  obtain ⟨o', ho', howner', hrequest', htarget⟩ := htargets
  have heq : o' = o := inj_on_of_nodup_map h.keys ho' ho
    (Prod.ext (howner'.trans howner.symm) (hrequest'.trans hrequest.symm))
  subst heq
  obtain ⟨e, he, hid, hlabel⟩ := h.operations o' ho'
  obtain ⟨hd, hdid⟩ := findDocument_spec hd
  have heq : e = d := inj_on_of_nodup_map h.ids he hd ((hid.trans htarget).trans hdid.symm)
  subst heq
  exact hrequest ▸ hlabel hcomplete

lemma Inv.retry_commit (h : s.Inv) (hx : s.attempts c = some x) (hsave : x.save = some save)
    (ho : o ∈ s.operations) (howner : o.owner = x.account) (hrequest : o.request = save.request)
    (hcomplete : o.complete = true) (hs : s.commit c batch replied = some s') :
    s'.documents = s.documents ∧ s'.operations = s.operations := by
  rw [Catalog.commit] at hs
  split at hs
  · next hwriting =>
    cases hwriting.symm.trans hx
    cases hsave
    obtain ⟨hw, -, hlabel⟩ := h.fits c _ hx
    split at hs
    · cases hs
      exact ⟨rfl, rfl⟩
    · next d hd =>
      have hmem := h.replays (hw.target save rfl) ho howner hrequest hcomplete hd
      rw [if_pos ((hlabel save rfl).symm ▸ hmem)] at hs
      cases hs
      exact ⟨rfl, rfl⟩
  · cases hs

omit [DecidableEq P] in
lemma retry_drop (hx : s.attempts c = some x) (hfits : s.Fits x) (hsave : x.save = some save)
    (hs : s.drop c = some s') : s'.documents = s.documents ∧ s'.operations = s.operations := by
  rw [Catalog.drop, hx] at hs
  cases hs
  refine ⟨map_id'' (fun d => if_neg fun hmade => ?_) _, rfl⟩
  obtain ⟨account, policyEdit, slug, files, sv, phase⟩ := x
  cases phase with
  | writing id created request =>
    cases (Writes.not_created hfits.1 hsave)
    cases hmade
  | refused id created =>
    cases (Writes.not_created hfits hsave)
    cases hmade
  | _ => cases hmade

/-- An attempt of a save that is complete writes nothing. -/
lemma Inv.retry (h : s.Inv) (hx : s.attempts c = some x) (hsave : x.save = some save)
    (ho : o ∈ s.operations) (howner : o.owner = x.account) (hrequest : o.request = save.request)
    (hcomplete : o.complete = true) {op : Op P T D} (hop : op.attempt = c)
    (hs : s.step op = some s') : s'.documents = s.documents ∧ s'.operations = s.operations := by
  have hfits := h.fits c x hx
  cases op with
  | start c' account policyEdit slug files sv =>
    cases hop
    have hx : s.attempts c' = some x := hx
    have hs : s.start c' _ = some s' := hs
    rw [Catalog.start, hx] at hs
    cases hs
  | templateOperation c' =>
    have hs : s.templateOperation c' = some s' := hs
    rw [Catalog.templateOperation] at hs
    repeat' split at hs
    all_goals cases hs
    all_goals exact ⟨rfl, rfl⟩
  | beginTemplateOperation c' replied =>
    cases hop
    have hs : s.beginTemplateOperation c' replied = some s' := hs
    rw [Catalog.beginTemplateOperation] at hs
    split at hs
    · next hbegin =>
      cases hbegin.symm.trans hx
      cases hsave
      split at hs
      · cases hs
        exact ⟨rfl, rfl⟩
      · next hnone =>
        have hsome := findOperation_isSome ho howner hrequest
        rw [hnone] at hsome
        cases hsome
    · cases hs
  | documentBySlug c' =>
    have hs : s.documentBySlug c' = some s' := hs
    rw [Catalog.documentBySlug] at hs
    repeat' split at hs
    all_goals cases hs
    all_goals exact ⟨rfl, rfl⟩
  | createDocument c' replied =>
    cases hop
    have hs : s.createDocument c' replied = some s' := hs
    rw [Catalog.createDocument] at hs
    split at hs
    · next hcreating =>
      cases hcreating.symm.trans hx
      cases hsave
      cases hfits
    · cases hs
  | refuse c' =>
    have hs : s.refuse c' = some s' := hs
    rw [Catalog.refuse] at hs
    split at hs <;> cases hs
    exact ⟨rfl, rfl⟩
  | commit c' batch replied =>
    cases hop
    exact h.retry_commit hx hsave ho howner hrequest hcomplete hs
  | discard c' =>
    cases hop
    have hs : s.discardUnwrittenDocument c' = some s' := hs
    rw [Catalog.discardUnwrittenDocument] at hs
    split at hs
    · next created hrefused =>
      cases hrefused.symm.trans hx
      have hcreated : created = false := Writes.not_created hfits hsave
      rw [hcreated] at hs
      cases hs
      exact ⟨rfl, rfl⟩
    · cases hs
  | drop c' =>
    cases hop
    exact retry_drop hx hfits hsave hs
lemma abandoned_run {ops : List (Op P T D)} (h : Run Catalog.step anyStep s ops s')
    (hstays : ∀ op ∈ ops, op.Stays) (hs : ∀ d ∈ s.documents, d.abandoned = false) :
    ∀ d ∈ s'.documents, d.abandoned = false := by
  induction h with
  | nil => exact hs
  | cons _ hstep _ ih =>
    refine ih (fun op hop => hstays op (mem_cons_of_mem _ hop)) fun d hd => ?_
    rw [Bool.eq_false_iff]
    intro habandoned
    obtain ⟨e, he, heabandoned⟩ := (keeps_step hstep).2 (hstays _ mem_cons_self) d hd habandoned
    cases (hs e he).symm.trans heabandoned

lemma operations_run {ops : List (Op P T D)} (h : Run Catalog.step anyStep s ops s') :
    ∀ o ∈ s.operations, ∃ o' ∈ s'.operations, o'.owner = o.owner ∧ o'.request = o.request ∧
      o'.target = o.target := by
  induction h with
  | nil => exact fun o ho => ⟨o, ho, rfl, rfl, rfl⟩
  | cons _ hstep _ ih =>
    intro o ho
    obtain ⟨o₁, ho₁, howner₁, hrequest₁, htarget₁⟩ := (keeps_step hstep).1.operations o ho
    obtain ⟨o₂, ho₂, howner₂, hrequest₂, htarget₂⟩ := ih o₁ ho₁
    exact ⟨o₂, ho₂, howner₂.trans howner₁, hrequest₂.trans hrequest₁, htarget₂.trans htarget₁⟩

/-- When no attempt runs, a row without files is a pending target or was abandoned. -/
lemma Inv.settled (h : s.Inv) (hquiet : ∀ c x, s.attempts c = some x → x.phase = .ended)
    (hd : d ∈ s.documents) :
    (∃ files, (d.slug, files) ∈ s.given ∧ d.project = files.project) ∨
    d.labels = [] ∧ d.updateSequence = 0 ∧ d.project = .empty ∧ (d.abandoned = true ∨
      ∃ o ∈ s.operations, o.target = d.id ∧ o.complete = false) := by
  by_cases hlabels : d.labels = []
  · refine .inr ⟨hlabels, (h.unwritten d hd hlabels).1, (h.unwritten d hd hlabels).2, ?_⟩
    rcases h.held d hd hlabels with habandoned | hpending | ⟨c, x, hx, hmade⟩
    · exact .inl habandoned
    · exact .inr hpending
    · rw [Attempt.made, hquiet c x hx] at hmade
      cases hmade
  · exact .inl (h.whole d hd hlabels)

/-- A target in a list has its files. -/
lemma Inv.listed (h : s.Inv) {account : ℕ} {includeTemplates : Bool}
    (hd : d ∈ s.visibleDocuments account includeTemplates) (ho : o ∈ s.operations)
    (htarget : o.target = d.id) : o.complete = true ∧
      .client o.request ∈ d.labels ∧ ∃ files, (d.slug, files) ∈ s.given ∧
        d.project = files.project := by
  obtain ⟨hmem, hvisible⟩ := mem_filter.1 hd
  obtain ⟨-, hno, -⟩ := of_decide_eq_true hvisible
  have hcomplete : o.complete = true := by
    rw [← Bool.not_eq_false]
    exact fun hpending => hno (any_eq_true.2 ⟨o, ho, decide_eq_true ⟨htarget, hpending⟩⟩)
  obtain ⟨e, he, hid, hlabel⟩ := h.operations o ho
  have heq : e = d := inj_on_of_nodup_map h.ids he hmem (hid.trans htarget)
  subst heq
  exact ⟨hcomplete, hlabel hcomplete, h.whole e he (ne_nil_of_mem (hlabel hcomplete))⟩

/-- When no attempt runs, a slug has at most one row, which holds what one attempt gave it or was
never written, as a pending target or the row of an attempt that was lost. A request has one target,
which is listed with its files and left alone by retries, and no step removes a row with anything in
it. -/
theorem projects_are_whole {ops : List (Op P T D)} (hrun : Run Catalog.step anyStep fresh ops s) :
    (s.documents.map (·.slug)).Nodup ∧
    ((∀ c x, s.attempts c = some x → x.phase = .ended) → ∀ d ∈ s.documents,
      (∃ files, (d.slug, files) ∈ s.given ∧ d.project = files.project) ∨
      d.labels = [] ∧ d.updateSequence = 0 ∧ d.project = .empty ∧ (d.abandoned = true ∨
        ∃ o ∈ s.operations, o.target = d.id ∧ o.complete = false)) ∧
    ((∀ op ∈ ops, op.Stays) → ∀ d ∈ s.documents, d.abandoned = false) ∧
    ((s.operations.map fun o => (o.owner, o.request)).Nodup ∧
      ∀ more t, Run Catalog.step anyStep s more t → ∀ o ∈ s.operations, ∃ o' ∈ t.operations,
        o'.owner = o.owner ∧ o'.request = o.request ∧ o'.target = o.target) ∧
    (∀ account includeTemplates, ∀ d ∈ s.visibleDocuments account includeTemplates,
      ∀ o ∈ s.operations, o.target = d.id → o.complete = true ∧ .client o.request ∈ d.labels ∧
        ∃ files, (d.slug, files) ∈ s.given ∧ d.project = files.project) ∧
    (∀ op t, s.step op = some t → ∀ x save, s.attempts op.attempt = some x → x.save = some save →
      ∀ o ∈ s.operations, o.owner = x.account → o.request = save.request → o.complete = true →
        t.documents = s.documents ∧ t.operations = s.operations) ∧
    ∀ op t, s.step op = some t → ∀ d ∈ s.documents,
      (∃ d' ∈ t.documents, d'.id = d.id ∧ d'.slug = d.slug ∧ d.labels <+: d'.labels) ∨
      d.labels = [] ∧ d.updateSequence = 0 ∧ d.project = .empty := by
  have h := inv_fresh.run hrun
  refine ⟨h.slugs, fun hquiet _ => h.settled hquiet, fun hstays => ?_,
    ⟨h.keys, fun _ _ => operations_run⟩,
    fun _ _ _ hd _ ho => h.listed hd ho,
    fun op t hs x save hx hsave o ho howner hrequest hcomplete =>
      h.retry hx hsave ho howner hrequest hcomplete rfl hs, fun op t hs d hd => ?_⟩
  · exact abandoned_run hrun hstays fun d hd => absurd hd not_mem_nil
  · refine ((keeps_step hs).1.documents d hd).imp_right fun hunwritten => ?_
    exact ⟨hunwritten.2, h.unwritten d hd hunwritten.2⟩

/-- A template save is completed and listed. -/
theorem save_is_whole : ∃ (s : Catalog ℕ ℕ ℕ) (d : Document ℕ ℕ ℕ),
    Run Catalog.step anyStep fresh [.start 0 7 false 1 ⟨[(5, 6)], []⟩ (some ⟨4, 2, 3⟩),
      .templateOperation 0, .beginTemplateOperation 0 true, .documentBySlug 0,
      .commit 0 true true] s ∧
    s.visibleDocuments 7 true = [d] ∧ .client 4 ∈ d.labels ∧
    ∃ files, (d.slug, files) ∈ s.given ∧ d.project = files.project := by
  obtain ⟨s, d, hrun, hoperations, hlisted, hid⟩ : ∃ (s : Catalog ℕ ℕ ℕ) (d : Document ℕ ℕ ℕ),
      Run Catalog.step anyStep fresh [.start 0 7 false 1 ⟨[(5, 6)], []⟩ (some ⟨4, 2, 3⟩),
        .templateOperation 0, .beginTemplateOperation 0 true, .documentBySlug 0,
        .commit 0 true true] s ∧
      s.operations = [⟨7, 4, 2, 3, 0, true⟩] ∧ s.visibleDocuments 7 true = [d] ∧ d.id = 0 :=
    ⟨_, _, .cons trivial rfl (.cons trivial rfl (.cons trivial rfl (.cons trivial rfl
      (.cons trivial rfl (.nil _))))), rfl, rfl, rfl⟩
  exact ⟨s, d, hrun, hlisted, ((projects_are_whole hrun).2.2.2.2.1 7 true d
    (hlisted ▸ mem_singleton_self d) ⟨7, 4, 2, 3, 0, true⟩
    (hoperations ▸ mem_singleton_self _) hid.symm).2⟩

/-- An attempt makes its row and stops. The slug is taken, listed, and holds no file. -/
theorem lost_attempt_leaves_row : ∃ (s : Catalog ℕ ℕ ℕ) (d : Document ℕ ℕ ℕ),
    Run Catalog.step anyStep fresh [.start 0 7 false 1 ⟨[(5, 6)], []⟩ none, .documentBySlug 0,
      .createDocument 0 true, .drop 0] s ∧
    (∀ c, s.attempts c = none) ∧ s.visibleDocuments 7 false = [d] ∧ d.slug = 1 ∧
    ∀ files, (d.slug, files) ∈ s.given → d.project ≠ files.project := by
  refine ⟨_, _, .cons trivial rfl (.cons trivial rfl (.cons trivial rfl (.cons trivial rfl
    (.nil _)))), fun c => ?_, rfl, rfl, fun files hfiles heq => ?_⟩
  · cases c with
    | zero => rfl
    | succ c => rfl
  · cases mem_singleton.1 hfiles
    cases congrArg (fun p => Project.texts p 5) heq

end Catalog
end LibrePaper.Creation
