import LibrePaper.Creation.Attempts

/-!
# What an attempt to create a project keeps

A row without files belongs to the attempt that made it, to a template save that is not complete, or
to an attempt that was lost. A row with files holds what one attempt gave its slug.
-/
namespace LibrePaper.Creation
open Library List

section Replace
variable {P V : Type*} [DecidableEq P]

/-- What a path was before does not matter if the entries name it. -/
lemma foldl_writeEntry (entries : List (P × V)) {m n : P → Option V} {p : P}
    (h : p ∉ entries.map (·.1) → m p = n p) :
    entries.foldl Project.writeEntry m p = entries.foldl Project.writeEntry n p := by
  induction entries generalizing m n with
  | nil => exact h not_mem_nil
  | cons e entries ih =>
    refine ih fun hp => ?_
    rw [Project.writeEntry, Project.writeEntry, Function.update_apply, Function.update_apply]
    split
    · rfl
    · next he =>
      refine h fun hno => ?_
      rcases mem_cons.1 hno with hno | hno
      · exact he hno
      · exact hp hno

lemma replaceEntries_eq (head other : P → Option V) (entries : List (P × V)) :
    Project.replaceEntries head entries = Project.replaceEntries other entries := by
  funext p
  refine foldl_writeEntry entries fun hp => ?_
  rw [if_neg hp, if_neg hp]

lemma replace_eq {T D : Type*} (head : Project P T D) (files : Files P T D) :
    head.replace files = files.project := by
  rw [Files.project, Project.replace, Project.replace,
    replaceEntries_eq head.texts Project.empty.texts,
    replaceEntries_eq head.assets Project.empty.assets]

end Replace

namespace Catalog
variable {P T D : Type*} {s s' : Catalog P T D} {c : ℕ} {x y : Attempt P T D}

/-- The attempt's save has this target. -/
def Targets (s : Catalog P T D) (x : Attempt P T D) (save : Save) (id : ℕ) : Prop :=
  ∃ o ∈ s.operations, o.owner = x.account ∧ o.request = save.request ∧ o.target = id

/-- The attempt writes into this document, and has made its row. -/
structure Writes (s : Catalog P T D) (x : Attempt P T D) (id : ℕ) (created : Bool) : Prop where
  before : id < s.nextId
  slug : ∀ d ∈ s.documents, d.id = id → d.slug = x.slug
  owner : created = true → ∀ d ∈ s.documents, d.id = id → d.owner = x.account
  plain : created = true → x.save = none ∧ ∀ o ∈ s.operations, o.target ≠ id
  target : ∀ save, x.save = some save → s.Targets x save id

/-- What an attempt knows where it stands. -/
def Fits (s : Catalog P T D) (x : Attempt P T D) : Prop :=
  match x.phase with
  | .looking target => x.save.isSome = target.isSome ∧
      ∀ save id, x.save = some save → target = some id → s.Targets x save id
  | .creating => x.save = none
  | .writing id created request => s.Writes x id created ∧ (x.slug, x.files) ∈ s.given ∧
      ∀ save, x.save = some save → request = .client save.request
  | .refused id created => s.Writes x id created
  | _ => True

structure Inv [DecidableEq P] (s : Catalog P T D) : Prop where
  before : ∀ d ∈ s.documents, d.id < s.nextId
  ids : (s.documents.map (·.id)).Nodup
  slugs : (s.documents.map (·.slug)).Nodup
  unwritten : ∀ d ∈ s.documents, d.labels = [] → d.updateSequence = 0 ∧ d.project = .empty
  whole : ∀ d ∈ s.documents, d.labels ≠ [] →
    ∃ files, (d.slug, files) ∈ s.given ∧ d.project = files.project
  keys : (s.operations.map fun o => (o.owner, o.request)).Nodup
  targets : (s.operations.map (·.target)).Nodup
  operations : ∀ o ∈ s.operations, ∃ d ∈ s.documents, d.id = o.target ∧
    (o.complete = true → .client o.request ∈ d.labels)
  held : ∀ d ∈ s.documents, d.labels = [] → d.abandoned = true ∨
    (∃ o ∈ s.operations, o.target = d.id ∧ o.complete = false) ∨
    ∃ c x, s.attempts c = some x ∧ Attempt.made x = some d.id
  fits : ∀ c x, s.attempts c = some x → s.Fits x

/-- The rows that an attempt may have seen stay or go, and new ones are new. -/
structure Grows (s s' : Catalog P T D) : Prop where
  documents : ∀ d' ∈ s'.documents, (∃ d ∈ s.documents, d.id = d'.id ∧ d.slug = d'.slug ∧
    d.owner = d'.owner) ∨ s.nextId ≤ d'.id
  fewer : ∀ o' ∈ s'.operations, (∃ o ∈ s.operations, o.owner = o'.owner ∧
    o.request = o'.request ∧ o.target = o'.target) ∨ s.nextId ≤ o'.target
  operations : ∀ o ∈ s.operations, ∃ o' ∈ s'.operations, o'.owner = o.owner ∧
    o'.request = o.request ∧ o'.target = o.target
  nextId : s.nextId ≤ s'.nextId
  given : ∀ g ∈ s.given, g ∈ s'.given

variable {save : Save} {id n slug owner account : ℕ} {created policyEdit replied batch : Bool}
  {o : TemplateOperation} {operations : List TemplateOperation} {request : RequestId}

lemma Targets.grows (h : s.Targets x save id) (hg : s.Grows s') : s'.Targets x save id := by
  obtain ⟨o, ho, howner, hrequest, htarget⟩ := h
  obtain ⟨o', ho', howner', hrequest', htarget'⟩ := hg.operations o ho
  exact ⟨o', ho', howner'.trans howner, hrequest'.trans hrequest, htarget'.trans htarget⟩

lemma Writes.grows (h : s.Writes x id created) (hg : s.Grows s') : s'.Writes x id created := by
  have hseen : ∀ d' ∈ s'.documents, d'.id = id → ∃ d ∈ s.documents, d.id = id ∧
      d.slug = d'.slug ∧ d.owner = d'.owner := by
    intro d' hd' hid
    rcases hg.documents d' hd' with ⟨d, hd, hdid, hrest⟩ | hnew
    · exact ⟨d, hd, hdid.trans hid, hrest⟩
    · exact absurd h.before (Nat.not_lt_of_le (hid ▸ hnew))
  refine ⟨Nat.lt_of_lt_of_le h.before hg.nextId, fun d' hd' hid => ?_, fun hc d' hd' hid => ?_,
    fun hc => ⟨(h.plain hc).1, fun o' ho' htarget => ?_⟩, fun save hsave =>
      (h.target save hsave).grows hg⟩
  · obtain ⟨d, hd, hdid, hslug, -⟩ := hseen d' hd' hid
    exact hslug.symm.trans (h.slug d hd hdid)
  · obtain ⟨d, hd, hdid, -, howner⟩ := hseen d' hd' hid
    exact howner.symm.trans (h.owner hc d hd hdid)
  · rcases hg.fewer o' ho' with ⟨o, ho, -, -, heq⟩ | hnew
    · exact (h.plain hc).2 o ho (heq.trans htarget)
    · exact absurd h.before (Nat.not_lt_of_le (htarget ▸ hnew))

lemma Fits.grows (h : s.Fits x) (hg : s.Grows s') : s'.Fits x := by
  obtain ⟨account, policyEdit, slug, files, save, phase⟩ := x
  cases phase with
  | begun => trivial
  | planned => trivial
  | ended => trivial
  | looking target => exact ⟨h.1, fun sv id hsv hid => (h.2 sv id hsv hid).grows hg⟩
  | creating => exact h
  | writing id created request => exact ⟨h.1.grows hg, hg.given _ h.2.1, h.2.2⟩
  | refused id created => exact Writes.grows h hg

lemma Grows.of_eq (hdocuments : s'.documents = s.documents)
    (hoperations : s'.operations = s.operations) (hnext : s.nextId ≤ s'.nextId)
    (hgiven : ∀ g ∈ s.given, g ∈ s'.given) : s.Grows s' := by
  refine ⟨fun d hd => .inl ⟨d, hdocuments ▸ hd, rfl, rfl, rfl⟩,
    fun o ho => .inl ⟨o, hoperations ▸ ho, rfl, rfl, rfl⟩, fun o ho => ⟨o, ?_, rfl, rfl, rfl⟩,
    hnext, hgiven⟩
  rw [hoperations]
  exact ho

lemma attempts_setAttempt (e : ℕ) :
    (s.setAttempt c y).attempts e = if e = c then some y else s.attempts e :=
  Function.update_apply ..

/-- Whoever has made a row is still there. -/
lemma made_setAttempt
    (hmade : ∀ x, s.attempts c = some x → Attempt.made x = some id → Attempt.made y = some id)
    (h : ∃ c x, s.attempts c = some x ∧ Attempt.made x = some id) :
    ∃ e x, (s.setAttempt c y).attempts e = some x ∧ Attempt.made x = some id := by
  obtain ⟨e, x, hx, hid⟩ := h
  by_cases he : e = c
  · subst he
    exact ⟨e, y, Function.update_self .., hmade x hx hid⟩
  · exact ⟨e, x, (Function.update_of_ne he ..).trans hx, hid⟩

variable [DecidableEq P]

/-- An attempt moves, and ids and given files are added. -/
lemma Inv.advance (h : s.Inv) {given : List (ℕ × Files P T D)} (hn : s.nextId ≤ n)
    (hgiven : ∀ g ∈ s.given, g ∈ given)
    (hmade : ∀ x, s.attempts c = some x → ∀ id, Attempt.made x = some id →
      Attempt.made y = some id ∨ ∀ d ∈ s.documents, d.id = id → d.labels ≠ [])
    (hfits : Fits { s with nextId := n, given := given } y) :
    Inv { s.setAttempt c y with nextId := n, given := given } := by
  have hgrows : s.Grows { s.setAttempt c y with nextId := n, given := given } :=
    .of_eq rfl rfl hn hgiven
  refine ⟨fun d hd => Nat.lt_of_lt_of_le (h.before d hd) hn, h.ids, h.slugs, h.unwritten,
    fun d hd hlabels => ?_, h.keys, h.targets, h.operations, fun d hd hlabels => ?_,
    fun e z hz => ?_⟩
  · obtain ⟨files, hfiles, heq⟩ := h.whole d hd hlabels
    exact ⟨files, hgiven _ hfiles, heq⟩
  · refine (h.held d hd hlabels).imp_right (Or.imp_right fun hheld => ?_)
    refine made_setAttempt (fun x hx hid => ?_) hheld
    exact (hmade x hx d.id hid).resolve_right fun hno => hno d hd rfl hlabels
  · have hz := (attempts_setAttempt e).symm.trans hz
    split at hz
    · cases hz
      exact hfits.grows (.of_eq rfl rfl (Nat.le_refl _) fun _ => id)
    · exact (h.fits e z hz).grows hgrows

lemma Inv.move (h : s.Inv) (hmade : ∀ x, s.attempts c = some x → ∀ id,
      Attempt.made x = some id → Attempt.made y = some id ∨
        ∀ d ∈ s.documents, d.id = id → d.labels ≠ []) (hfits : s.Fits y) :
    (s.setAttempt c y).Inv :=
  h.advance (Nat.le_refl _) (fun _ => id) hmade hfits

lemma Inv.go (h : s.Inv) (hx : s.attempts c = some x) (hnone : Attempt.made x = none)
    (hfits : s.Fits y) : (s.setAttempt c y).Inv := by
  refine h.move (fun z hz id hid => ?_) hfits
  cases hx.symm.trans hz
  cases hnone.symm.trans hid

omit [DecidableEq P] in
lemma findDocument_spec {d : Document P T D} (h : s.findDocument id = some d) :
    d ∈ s.documents ∧ d.id = id := by
  refine ⟨mem_of_find?_eq_some h, ?_⟩
  have hfound := find?_some h
  exact of_decide_eq_true hfound

omit [DecidableEq P] in
lemma findSlug_spec {d : Document P T D} (h : s.findSlug slug = some d) :
    d ∈ s.documents ∧ d.slug = slug := by
  refine ⟨mem_of_find?_eq_some h, ?_⟩
  have hfound := find?_some h
  exact of_decide_eq_true hfound

omit [DecidableEq P] in
lemma findOperation_spec {request : ℕ} (h : s.findOperation owner request = some o) :
    o ∈ s.operations ∧ o.owner = owner ∧ o.request = request := by
  refine ⟨mem_of_find?_eq_some h, ?_⟩
  have hfound := find?_some h
  exact of_decide_eq_true hfound

lemma Inv.start (h : s.Inv) (hfits : s.Fits y) (hs : s.start c y = some s') : s'.Inv := by
  rw [Catalog.start] at hs
  split at hs
  · next hnone =>
    cases hs
    refine h.move (fun x hx => ?_) hfits
    rw [hx] at hnone
    cases hnone
  · cases hs

omit [DecidableEq P] in
/-- An operation that is resumed leads to its own target. -/
lemma fits_resume {files : Files P T D} {phase : Phase}
    (hfound : s.findOperation account save.request = some o) :
    s.Fits (s.resume ⟨account, policyEdit, slug, files, some save, phase⟩ save o) := by
  obtain ⟨ho, howner, hrequest⟩ := findOperation_spec hfound
  rw [resume]
  split
  · trivial
  · split
    · trivial
    · next d hd =>
      obtain ⟨-, hid⟩ := findDocument_spec hd
      refine ⟨rfl, fun sv id hsv hid' => ?_⟩
      cases hsv
      cases hid'
      exact ⟨o, ho, howner, hrequest, hid.symm⟩

lemma Inv.templateOperation (h : s.Inv) (hs : s.templateOperation c = some s') : s'.Inv := by
  rw [Catalog.templateOperation] at hs
  split at hs
  · next account policyEdit slug files save hx =>
    dsimp only at hs
    split at hs
    · cases hs
      exact h.go hx rfl trivial
    · next o hfound =>
      cases hs
      exact h.go hx rfl (fits_resume hfound)
  · cases hs

omit [DecidableEq P] in
lemma findSlug_none (h : ¬(s.findSlug slug).isSome = true) : slug ∉ s.documents.map (·.slug) := by
  intro hmem
  obtain ⟨d, hd, hslug⟩ := mem_map.1 hmem
  refine h ?_
  rw [findSlug, find?_isSome]
  exact ⟨d, hd, decide_eq_true hslug⟩

lemma nodup_append_singleton {α : Type*} {l : List α} {a : α} (hl : l.Nodup) (ha : a ∉ l) :
    (l ++ [a]).Nodup :=
  nodup_append.2 ⟨hl, nodup_singleton a, fun _ hb _ hd heq =>
    ha (mem_singleton.1 hd ▸ heq ▸ hb)⟩

/-- A row is inserted under an id that is new and a slug that is free, with the operation that it
is the target of if it is one. -/
lemma Inv.insert (h : s.Inv) {d : Document P T D} (hid : d.id = s.nextId)
    (hslug : ¬(s.findSlug d.slug).isSome = true)
    (hnew : d.labels = [] ∧ d.updateSequence = 0 ∧ d.project = .empty)
    {more : List TemplateOperation} (hoperations : operations = s.operations ++ more)
    (hmore : ∀ o ∈ more, o.target = s.nextId ∧ o.complete = false)
    (hkeys : (operations.map fun o => (o.owner, o.request)).Nodup)
    (htargets : (operations.map (·.target)).Nodup) (hn : s.nextId < n)
    {given : List (ℕ × Files P T D)} (hgiven : ∀ g ∈ s.given, g ∈ given)
    (hx : s.attempts c = some x) (hnone : Attempt.made x = none)
    (hheld : d.abandoned = true ∨ (∃ o ∈ more, True) ∨ Attempt.made y = some d.id)
    (hfits : Fits { s with
      documents := s.documents ++ [d]
      operations := operations
      nextId := n
      given := given } y) :
    Inv { s.setAttempt c y with
      documents := s.documents ++ [d]
      operations := operations
      nextId := n
      given := given } := by
  subst hoperations
  have hgrows : s.Grows { s.setAttempt c y with
      documents := s.documents ++ [d]
      operations := s.operations ++ more
      nextId := n
      given := given } := by
    refine ⟨fun e he => ?_, fun o ho => ?_, fun o ho => ?_, Nat.le_of_lt hn, hgiven⟩
    · rcases mem_append.1 he with he | he
      · exact .inl ⟨e, he, rfl, rfl, rfl⟩
      · exact .inr (mem_singleton.1 he ▸ Nat.le_of_eq hid.symm)
    · rcases mem_append.1 ho with ho | ho
      · exact .inl ⟨o, ho, rfl, rfl, rfl⟩
      · exact .inr (Nat.le_of_eq (hmore o ho).1.symm)
    · exact ⟨o, mem_append_left _ ho, rfl, rfl, rfl⟩
  have hmem : ∀ e, e ∈ s.documents ++ [d] → e ∈ s.documents ∨ e = d := fun e he =>
    (mem_append.1 he).imp_right mem_singleton.1
  refine ⟨fun e he => ?_, ?_, ?_, fun e he hlabels => ?_, fun e he hlabels => ?_, hkeys, htargets,
    fun o ho => ?_, fun e he hlabels => ?_, fun e z hz => ?_⟩
  · rcases hmem e he with he | rfl
    · exact Nat.lt_trans (h.before e he) hn
    · exact hid ▸ hn
  · rw [map_append]
    refine nodup_append_singleton h.ids fun hno => ?_
    obtain ⟨e, he, heq⟩ := mem_map.1 hno
    exact absurd (h.before e he) (Nat.not_lt_of_le (Nat.le_of_eq (heq.trans hid).symm))
  · rw [map_append]
    exact nodup_append_singleton h.slugs (findSlug_none hslug)
  · rcases hmem e he with he | rfl
    · exact h.unwritten e he hlabels
    · exact hnew.2
  · rcases hmem e he with he | rfl
    · obtain ⟨files, hfiles, heq⟩ := h.whole e he hlabels
      exact ⟨files, hgiven _ hfiles, heq⟩
    · exact absurd hnew.1 hlabels
  · rcases mem_append.1 ho with ho | ho
    · obtain ⟨e, he, heid, hcomplete⟩ := h.operations o ho
      exact ⟨e, mem_append_left _ he, heid, hcomplete⟩
    · obtain ⟨htarget, hcomplete⟩ := hmore o ho
      exact ⟨d, mem_append_right _ (mem_singleton_self d), hid.trans htarget.symm,
        fun hno => by cases hcomplete.symm.trans hno⟩
  · rcases hmem e he with he | rfl
    · rcases h.held e he hlabels with habandoned | ⟨o, ho, ho'⟩ | hmade
      · exact .inl habandoned
      · exact .inr (.inl ⟨o, mem_append_left _ ho, ho'⟩)
      · refine .inr (.inr (made_setAttempt (fun z hz hzid => ?_) hmade))
        cases hx.symm.trans hz
        cases hnone.symm.trans hzid
    · rcases hheld with habandoned | ⟨o, ho, -⟩ | hmade
      · exact .inl habandoned
      · exact .inr (.inl ⟨o, mem_append_right _ ho, (hmore o ho).1.trans hid.symm,
          (hmore o ho).2⟩)
      · exact .inr (.inr ⟨c, y, Function.update_self .., hmade⟩)
  · have hz := (attempts_setAttempt e).symm.trans hz
    split at hz
    · cases hz
      refine hfits.grows ⟨fun d hd => .inl ⟨d, hd, rfl, rfl, rfl⟩,
        fun o ho => .inl ⟨o, ho, rfl, rfl, rfl⟩, fun o ho => ⟨o, ho, rfl, rfl, rfl⟩,
        Nat.le_refl _, fun _ => id⟩
    · exact (h.fits e z hz).grows hgrows

lemma Inv.beginTemplateOperation (h : s.Inv) (hs : s.beginTemplateOperation c replied = some s') :
    s'.Inv := by
  rw [Catalog.beginTemplateOperation] at hs
  split at hs
  · next account policyEdit slug files save hx =>
    split at hs
    · next o hfound =>
      cases hs
      exact h.go hx rfl (fits_resume hfound)
    · next hfresh =>
      split at hs
      · cases hs
        exact h.go hx rfl trivial
      · next hslug =>
        cases hs
        have hkeys : ((s.operations ++ [TemplateOperation.mk account save.request save.source
            save.title s.nextId false]).map fun o => (o.owner, o.request)).Nodup := by
          rw [map_append]
          refine nodup_append_singleton h.keys fun hno => ?_
          obtain ⟨o, ho, heq⟩ := mem_map.1 hno
          have howner : o.owner = account := congrArg Prod.fst heq
          have hrequest : o.request = save.request := congrArg Prod.snd heq
          exact find?_eq_none.1 hfresh o ho (decide_eq_true ⟨howner, hrequest⟩)
        have htargets : ((s.operations ++ [TemplateOperation.mk account save.request save.source
            save.title s.nextId false]).map (·.target)).Nodup := by
          rw [map_append]
          refine nodup_append_singleton h.targets fun hno => ?_
          obtain ⟨o, ho, heq⟩ := mem_map.1 hno
          obtain ⟨d, hd, hid, -⟩ := h.operations o ho
          exact absurd (h.before d hd) (Nat.not_lt_of_le (Nat.le_of_eq (hid.trans heq).symm))
        have hmem := mem_append_right s.operations (mem_singleton_self
          (TemplateOperation.mk account save.request save.source save.title s.nextId false))
        refine h.insert rfl hslug ⟨rfl, rfl, rfl⟩ rfl (fun o ho => ?_) hkeys htargets
          (Nat.lt_succ_self _) (fun _ => id) hx rfl
          (.inr (.inl ⟨_, mem_singleton_self _, trivial⟩)) ?_
        · cases mem_singleton.1 ho
          exact ⟨rfl, rfl⟩
        · cases replied with
          | false => trivial
          | true =>
            refine ⟨rfl, fun sv id hsv hid => ?_⟩
            cases hsv
            cases hid
            exact ⟨_, hmem, rfl, rfl, rfl⟩
  · cases hs

lemma Inv.createDocument (h : s.Inv) (hs : s.createDocument c replied = some s') : s'.Inv := by
  rw [Catalog.createDocument] at hs
  split at hs
  · next account policyEdit slug files save hx =>
    have hplain : save = none := h.fits c _ hx
    subst hplain
    split at hs
    · cases hs
      exact h.go hx rfl trivial
    · next hslug =>
      cases hs
      refine h.insert rfl hslug ⟨rfl, rfl, rfl⟩ (append_nil _).symm
        (fun _ hno => absurd hno not_mem_nil) h.keys h.targets (by omega)
        (fun _ => mem_cons_of_mem _) hx rfl ?_ ?_
      · cases replied with
        | false => exact .inl rfl
        | true => exact .inr (.inr rfl)
      · cases replied with
        | false => trivial
        | true =>
          have honly : ∀ d ∈ s.documents ++
              [⟨s.nextId, slug, account, false, .empty, 0, [], false⟩],
              d.id = s.nextId → d.slug = slug ∧ d.owner = account := by
            intro d hd hid
            rcases mem_append.1 hd with hd | hd
            · exact absurd (h.before d hd) (Nat.not_lt_of_le (Nat.le_of_eq hid.symm))
            · cases mem_singleton.1 hd
              exact ⟨rfl, rfl⟩
          refine ⟨⟨Nat.lt_add_of_pos_right Nat.zero_lt_two, fun d hd hid => (honly d hd hid).1,
            fun _ d hd hid => (honly d hd hid).2, fun _ => ⟨rfl, fun o ho htarget => ?_⟩,
            fun _ hno => by cases hno⟩, mem_cons_self, nofun⟩
          obtain ⟨d, hd, hid, -⟩ := h.operations o ho
          exact absurd (h.before d hd) (Nat.not_lt_of_le (Nat.le_of_eq (hid.trans htarget).symm))
  · cases hs

/-- A slug that is found is written by who looked it up. -/
lemma Inv.documentBySlug (h : s.Inv) (hs : s.documentBySlug c = some s') : s'.Inv := by
  rw [Catalog.documentBySlug] at hs
  split at hs
  · next account policyEdit slug files save target hx =>
    obtain ⟨hsome, htarget⟩ := h.fits c _ hx
    split at hs
    · next d hfound =>
      obtain ⟨hd, hslug⟩ := findSlug_spec hfound
      split at hs
      · cases hs
        exact h.go hx rfl trivial
      · next hsame =>
        split at hs
        · cases hs
          exact h.go hx rfl trivial
        · cases hs
          refine h.advance (Nat.le_succ _) (fun _ => mem_cons_of_mem _) (fun z hz id hid => ?_)
            ⟨⟨Nat.lt_succ_of_lt (h.before d hd), fun e he hid => ?_, fun hno => (by cases hno),
              fun hno => (by cases hno), fun sv hsv => ?_⟩, mem_cons_self, fun sv hsv => ?_⟩
          · cases hx.symm.trans hz
            cases hid
          · have heq : e = d := inj_on_of_nodup_map h.ids he hd hid
            rw [heq]
            exact hslug
          · cases hsv
            cases target with
            | none => cases hsome
            | some i =>
              have hid : i = d.id := by
                rw [Option.any_some, decide_eq_true_eq, not_not] at hsame
                exact hsame
              exact htarget sv d.id rfl (congrArg some hid)
          · cases hsv
            rfl
    · split at hs
      · cases hs
        exact h.go hx rfl trivial
      · next hnone =>
        cases hs
        refine h.go hx rfl ?_
        cases save with
        | none => exact rfl
        | some sv => exact absurd hsome.symm hnone
  · cases hs

/-- An attempt to write is refused. -/
lemma Inv.refused (h : s.Inv) {files : Files P T D} {save : Option Save} (hx : s.attempts c =
      some ⟨account, policyEdit, slug, files, save, .writing id created request⟩) :
    (s.setAttempt c ⟨account, policyEdit, slug, files, save, .refused id created⟩).Inv := by
  have hw := (h.fits c _ hx).1
  refine h.move (fun z hz i hi => .inl ?_) ⟨hw.before, hw.slug, hw.owner, hw.plain, hw.target⟩
  cases hx.symm.trans hz
  cases created with
  | false => cases hi
  | true => exact hi

lemma Inv.refuse (h : s.Inv) (hs : s.refuse c = some s') : s'.Inv := by
  rw [Catalog.refuse] at hs
  split at hs
  · next hx =>
    cases hs
    exact h.refused hx
  · cases hs

omit [DecidableEq P] in
lemma map_documents {g : Document P T D → Document P T D}
    (hg : ∀ d, (g d).id = d.id ∧ (g d).slug = d.slug) :
    (s.documents.map g).map (·.id) = s.documents.map (·.id) ∧
      (s.documents.map g).map (·.slug) = s.documents.map (·.slug) := by
  rw [map_map, map_map]
  exact ⟨map_congr_left fun d _ => (hg d).1, map_congr_left fun d _ => (hg d).2⟩

/-- What a command's transaction does to the operations. -/
structure Completes (s : Catalog P T D) (save : Option Save) (id : ℕ)
    (operations : List TemplateOperation) : Prop where
  keys : operations.map (fun o => (o.owner, o.request)) =
    s.operations.map fun o => (o.owner, o.request)
  targets : operations.map (·.target) = s.operations.map (·.target)
  fewer : ∀ o' ∈ operations, ∃ o ∈ s.operations, o.owner = o'.owner ∧ o.request = o'.request ∧
    o.target = o'.target ∧ (o'.complete = true → o.complete = true ∨
      o.target = id ∧ ∃ sv, save = some sv ∧ sv.request = o.request)
  kept : ∀ o ∈ s.operations, ∃ o' ∈ operations, o'.owner = o.owner ∧ o'.request = o.request ∧
    o'.target = o.target ∧ (o.target ≠ id → o'.complete = o.complete)

omit [DecidableEq P] in
lemma completes {save : Option Save} (h : s.completed save id = some operations) :
    s.Completes save id operations := by
  cases save with
  | none =>
    cases h
    exact ⟨rfl, rfl, fun o ho => ⟨o, ho, rfl, rfl, rfl, .inl⟩,
      fun o ho => ⟨o, ho, rfl, rfl, rfl, fun _ => rfl⟩⟩
  | some sv =>
    have h : s.completeTemplateOperation id sv.request = some operations := h
    rw [completeTemplateOperation] at h
    split at h <;> cases h
    have hsame : ∀ o : TemplateOperation, ∀ o', (if o.target = id ∧ o.request = sv.request ∧
        o.complete = false then { o with complete := true } else o) = o' →
        o'.owner = o.owner ∧ o'.request = o.request ∧ o'.target = o.target ∧
        (o'.complete = true → o.complete = true ∨ o.target = id ∧ sv.request = o.request) ∧
        (o.target ≠ id → o'.complete = o.complete) := by
      rintro o o' rfl
      split
      · next hmatch =>
        exact ⟨rfl, rfl, rfl, fun _ => .inr ⟨hmatch.1, hmatch.2.1.symm⟩,
          absurd hmatch.1⟩
      · exact ⟨rfl, rfl, rfl, .inl, fun _ => rfl⟩
    refine ⟨?_, ?_, fun o' ho' => ?_, fun o ho => ?_⟩
    · rw [map_map]
      refine map_congr_left fun o _ => ?_
      obtain ⟨howner, hrequest, -⟩ := hsame o _ rfl
      exact Prod.ext howner hrequest
    · rw [map_map]
      exact map_congr_left fun o _ => (hsame o _ rfl).2.2.1
    · obtain ⟨o, ho, heq⟩ := mem_map.1 ho'
      obtain ⟨howner, hrequest, htarget, hcomplete, -⟩ := hsame o o' heq
      exact ⟨o, ho, howner.symm, hrequest.symm, htarget.symm, fun hc =>
        (hcomplete hc).imp_right fun hmatch => ⟨hmatch.1, sv, rfl, hmatch.2⟩⟩
    · obtain ⟨howner, hrequest, htarget, -, hkept⟩ := hsame o _ rfl
      exact ⟨_, mem_map_of_mem ho, howner, hrequest, htarget, hkept⟩

omit [DecidableEq P] in
/-- One row is changed. -/
lemma mem_updateDocument {f : Document P T D → Document P T D} {d' : Document P T D}
    (h : d' ∈ s.updateDocument id f) : ∃ d ∈ s.documents, d.id = id ∧ d' = f d ∨
      d.id ≠ id ∧ d' = d := by
  obtain ⟨d, hd, heq⟩ := mem_map.1 h
  refine ⟨d, hd, ?_⟩
  split at heq
  · next hid => exact .inl ⟨hid, heq.symm⟩
  · next hid => exact .inr ⟨hid, heq.symm⟩

/-- The files, the label and the completion of a save are committed together. -/
lemma Inv.write (h : s.Inv) {files : Files P T D} {save : Option Save} (hx : s.attempts c =
      some ⟨account, policyEdit, slug, files, save, .writing id created request⟩)
    (hcompletes : s.Completes save id operations) (hfits : s.Fits y) :
    Inv { s.setAttempt c y with
      documents := s.updateDocument id fun d => { d with
        project := d.project.replace files
        updateSequence := if batch = true then d.updateSequence + 1 else d.updateSequence
        labels := d.labels ++ [request] }
      operations := operations } := by
  obtain ⟨hw, hgiven, hrequest⟩ := h.fits c _ hx
  have hids := map_documents (s := s) (g := fun d => if d.id = id then { d with
        project := d.project.replace files
        updateSequence := if batch = true then d.updateSequence + 1 else d.updateSequence
        labels := d.labels ++ [request] } else d) fun d => by split <;> exact ⟨rfl, rfl⟩
  have hgrows : s.Grows { s.setAttempt c y with
      documents := s.updateDocument id fun d => { d with
        project := d.project.replace files
        updateSequence := if batch = true then d.updateSequence + 1 else d.updateSequence
        labels := d.labels ++ [request] }
      operations := operations } := by
    refine ⟨fun d' hd' => .inl ?_, fun o' ho' => .inl ?_, fun o ho => ?_, Nat.le_refl _,
      fun _ hg => hg⟩
    · obtain ⟨d, hd, ⟨-, rfl⟩ | ⟨-, rfl⟩⟩ := mem_updateDocument hd'
      · exact ⟨d, hd, rfl, rfl, rfl⟩
      · exact ⟨d', hd, rfl, rfl, rfl⟩
    · obtain ⟨o, ho, howner, hreq, htarget, -⟩ := hcompletes.fewer o' ho'
      exact ⟨o, ho, howner, hreq, htarget⟩
    · obtain ⟨o', ho', howner, hreq, htarget, -⟩ := hcompletes.kept o ho
      exact ⟨o', ho', howner, hreq, htarget⟩
  refine ⟨fun d' hd' => ?_, hids.1 ▸ h.ids, hids.2 ▸ h.slugs, fun d' hd' hlabels => ?_,
    fun d' hd' hlabels => ?_, hcompletes.keys ▸ h.keys, hcompletes.targets ▸ h.targets,
    fun o' ho' => ?_, fun d' hd' hlabels => ?_, fun e z hz => ?_⟩
  · obtain ⟨d, hd, ⟨-, rfl⟩ | ⟨-, rfl⟩⟩ := mem_updateDocument hd'
    · exact h.before d hd
    · exact h.before d' hd
  · obtain ⟨d, hd, ⟨-, rfl⟩ | ⟨-, rfl⟩⟩ := mem_updateDocument hd'
    · exact absurd hlabels (append_ne_nil_of_right_ne_nil _ (cons_ne_nil _ _))
    · exact h.unwritten d' hd hlabels
  · obtain ⟨d, hd, ⟨hid, rfl⟩ | ⟨-, rfl⟩⟩ := mem_updateDocument hd'
    · refine ⟨files, ?_, replace_eq ..⟩
      have hslug : d.slug = slug := hw.slug d hd hid
      exact hslug.symm ▸ hgiven
    · exact h.whole d' hd hlabels
  · obtain ⟨o, ho, howner, hreq, htarget, hcomplete⟩ := hcompletes.fewer o' ho'
    obtain ⟨d, hd, hid, hlabel⟩ := h.operations o ho
    refine ⟨_, mem_map_of_mem hd, ?_, fun hc => ?_⟩
    · split
      · exact hid.trans htarget
      · exact hid.trans htarget
    · rcases hcomplete hc with hc | ⟨hto, sv, hsv, hsvreq⟩
      · rw [← hreq]
        split
        · exact mem_append_left _ (hlabel hc)
        · exact hlabel hc
      · rw [if_pos (hid.trans hto), ← hreq, ← hsvreq, ← hrequest sv hsv]
        exact mem_append_right _ (mem_singleton_self _)
  · obtain ⟨d, hd, ⟨-, rfl⟩ | ⟨hne, rfl⟩⟩ := mem_updateDocument hd'
    · exact absurd hlabels (append_ne_nil_of_right_ne_nil _ (cons_ne_nil _ _))
    · refine (h.held d' hd hlabels).imp_right (Or.imp ?_ fun hmade => ?_)
      · rintro ⟨o, ho, htarget, hc⟩
        obtain ⟨o', ho', -, -, htarget', hkept⟩ := hcompletes.kept o ho
        exact ⟨o', ho', htarget'.trans htarget,
          (hkept fun hno => hne (htarget.symm.trans hno)).trans hc⟩
      · refine made_setAttempt (fun z hz hzid => absurd ?_ hne) hmade
        cases hx.symm.trans hz
        cases created with
        | false => cases hzid
        | true => exact (Option.some.inj hzid).symm
  · have hz := (attempts_setAttempt e).symm.trans hz
    split at hz
    · cases hz
      exact hfits.grows hgrows
    · exact (h.fits e z hz).grows hgrows

lemma Inv.commit (h : s.Inv) (hs : s.commit c batch replied = some s') : s'.Inv := by
  rw [Catalog.commit] at hs
  split at hs
  · next account policyEdit slug files save id created request hx =>
    split at hs
    · cases hs
      exact h.refused hx
    · next d hfound =>
      obtain ⟨hd, hid⟩ := findDocument_spec hfound
      split at hs
      · next hreplay =>
        cases hs
        refine h.move (fun z hz i hi => .inr fun e he hei hnone => ?_) trivial
        cases hx.symm.trans hz
        have hi : id = i := by
          cases created with
          | false => cases hi
          | true => exact Option.some.inj hi
        have heq : e = d := inj_on_of_nodup_map h.ids he hd (hei.trans (hid.trans hi).symm)
        rw [← heq, hnone] at hreplay
        exact not_mem_nil hreplay
      · split at hs
        · cases hs
          exact h.refused hx
        · next operations hcompleted =>
          cases hs
          have hw := (h.fits c _ hx).1
          refine h.write hx (completes hcompleted) ?_
          cases replied with
          | false => exact ⟨hw.before, hw.slug, hw.owner, hw.plain, hw.target⟩
          | true => trivial
  · cases hs

omit [DecidableEq P] in
lemma discardable_iff {d : Document P T D} : discardable d id owner = true ↔
    d.id = id ∧ d.owner = owner ∧ d.updateSequence = 0 ∧ d.labels = [] :=
  decide_eq_true_iff

/-- Rows that nothing was committed to, and that are no operation's target, are removed. -/
lemma Inv.discardUnwrittenDocument (h : s.Inv) (hs : s.discardUnwrittenDocument c = some s') :
    s'.Inv := by
  rw [Catalog.discardUnwrittenDocument] at hs
  split at hs
  · next account policyEdit slug files save id created hx =>
    have hw : s.Writes _ id created := h.fits c _ hx
    split at hs
    · next hcreated =>
      cases hs
      have hkept : ∀ d ∈ s.documents.filter fun d => !discardable d id account,
          d ∈ s.documents := fun d hd => (mem_filter.1 hd).1
      have hgrows : s.Grows { s.setAttempt c ⟨account, policyEdit, slug, files, save, .ended⟩ with
          documents := s.documents.filter fun d => !discardable d id account } :=
        ⟨fun d hd => .inl ⟨d, hkept d hd, rfl, rfl, rfl⟩, fun o ho => .inl ⟨o, ho, rfl, rfl, rfl⟩,
          fun o ho => ⟨o, ho, rfl, rfl, rfl⟩, Nat.le_refl _, fun _ hg => hg⟩
      refine ⟨fun d hd => h.before d (hkept d hd), ?_, ?_,
        fun d hd => h.unwritten d (hkept d hd), fun d hd => h.whole d (hkept d hd), h.keys,
        h.targets, fun o ho => ?_, fun d hd hlabels => ?_, fun e z hz => ?_⟩
      · exact h.ids.sublist (filter_sublist.map _)
      · exact h.slugs.sublist (filter_sublist.map _)
      · obtain ⟨d, hd, hid, hlabel⟩ := h.operations o ho
        refine ⟨d, mem_filter.2 ⟨hd, ?_⟩, hid, hlabel⟩
        rw [Bool.not_eq_true', Bool.eq_false_iff, ne_eq, discardable_iff]
        exact fun hno => (hw.plain hcreated).2 o ho (hid.symm.trans hno.1)
      · refine (h.held d (hkept d hd) hlabels).imp_right (Or.imp_right fun hmade => ?_)
        refine made_setAttempt (fun z hz hzid => absurd (mem_filter.1 hd).2 ?_) hmade
        cases hx.symm.trans hz
        cases hcreated
        have hid : d.id = id := (Option.some.inj hzid).symm
        rw [Bool.not_eq_true', Bool.not_eq_false, discardable_iff]
        exact ⟨hid, hw.owner rfl d (hkept d hd) hid, (h.unwritten d (hkept d hd) hlabels).1,
          hlabels⟩
      · have hz := (attempts_setAttempt e).symm.trans hz
        split at hz
        · cases hz
          trivial
        · exact (h.fits e z hz).grows hgrows
    · next hcreated =>
      cases hs
      refine h.move (fun z hz i hi => ?_) trivial
      cases hx.symm.trans hz
      cases created with
      | false => cases hi
      | true => exact absurd rfl hcreated
  · cases hs

/-- The row that a lost attempt made is abandoned. -/
lemma Inv.drop (h : s.Inv) (hs : s.drop c = some s') : s'.Inv := by
  obtain ⟨x, hx, rfl⟩ := Option.map_eq_some_iff.1 hs
  have hsame : ∀ d : Document P T D, ∀ d', (if Attempt.made x = some d.id then
      { d with abandoned := true } else d) = d' → d'.id = d.id ∧ d'.slug = d.slug ∧
      d'.owner = d.owner ∧ d'.labels = d.labels ∧ d'.updateSequence = d.updateSequence ∧
      d'.project = d.project ∧ (d.abandoned = true → d'.abandoned = true) ∧
      (Attempt.made x = some d.id → d'.abandoned = true) := by
    rintro d d' rfl
    split
    · exact ⟨rfl, rfl, rfl, rfl, rfl, rfl, fun _ => rfl, fun _ => rfl⟩
    · next hno => exact ⟨rfl, rfl, rfl, rfl, rfl, rfl, id, fun hx => absurd hx hno⟩
  have hids := map_documents (s := s) (g := fun d => if Attempt.made x = some d.id then
    { d with abandoned := true } else d) fun d => ⟨(hsame d _ rfl).1, (hsame d _ rfl).2.1⟩
  refine ⟨fun d' hd' => ?_, hids.1 ▸ h.ids, hids.2 ▸ h.slugs, fun d' hd' hlabels => ?_,
    fun d' hd' hlabels => ?_, h.keys, h.targets, fun o ho => ?_, fun d' hd' hlabels => ?_,
    fun e z hz => ?_⟩
  · obtain ⟨d, hd, heq⟩ := mem_map.1 hd'
    obtain ⟨hid, -⟩ := hsame d d' heq
    exact hid ▸ h.before d hd
  · obtain ⟨d, hd, heq⟩ := mem_map.1 hd'
    obtain ⟨-, -, -, hsl, hseq, hproject, -⟩ := hsame d d' heq
    rw [hseq, hproject]
    exact h.unwritten d hd (hsl.symm.trans hlabels)
  · obtain ⟨d, hd, heq⟩ := mem_map.1 hd'
    obtain ⟨-, hslug, -, hsl, -, hproject, -⟩ := hsame d d' heq
    rw [hslug, hproject]
    exact h.whole d hd fun hno => hlabels (hsl.trans hno)
  · obtain ⟨d, hd, hid, hlabel⟩ := h.operations o ho
    obtain ⟨hid', -, -, hsl, -⟩ := hsame d _ rfl
    refine ⟨_, mem_map_of_mem hd, hid'.trans hid, fun hc => ?_⟩
    rw [hsl]
    exact hlabel hc
  · obtain ⟨d, hd, heq⟩ := mem_map.1 hd'
    obtain ⟨hid, -, -, hsl, -, -, hkept, hlost⟩ := hsame d d' heq
    rcases h.held d hd (hsl.symm.trans hlabels) with habandoned | hpending | ⟨e, z, hz, hzid⟩
    · exact .inl (hkept habandoned)
    · exact .inr (.inl (hid ▸ hpending))
    · by_cases he : e = c
      · subst he
        cases hx.symm.trans hz
        exact .inl (hlost hzid)
      · exact .inr (.inr ⟨e, z, (Function.update_of_ne he ..).trans hz, hid ▸ hzid⟩)
  · by_cases he : e = c
    · subst he
      cases (Function.update_self ..).symm.trans hz
    · have hz := (Function.update_of_ne he ..).symm.trans hz
      refine (h.fits e z hz).grows ⟨fun d' hd' => .inl ?_, fun o ho => .inl ⟨o, ho, rfl, rfl, rfl⟩,
        fun o ho => ⟨o, ho, rfl, rfl, rfl⟩, Nat.le_refl _, fun _ hg => hg⟩
      obtain ⟨d, hd, heq⟩ := mem_map.1 hd'
      obtain ⟨hid, hslug, howner, -⟩ := hsame d d' heq
      exact ⟨d, hd, hid.symm, hslug.symm, howner.symm⟩

lemma inv_fresh : (fresh : Catalog P T D).Inv :=
  ⟨fun _ hd => absurd hd not_mem_nil, nodup_nil, nodup_nil,
    fun _ hd => absurd hd not_mem_nil, fun _ hd => absurd hd not_mem_nil,
    nodup_nil, nodup_nil, fun _ ho => absurd ho not_mem_nil,
    fun _ hd => absurd hd not_mem_nil, nofun⟩

lemma Inv.step (h : s.Inv) {op : Op P T D} (hs : s.step op = some s') : s'.Inv := by
  cases op with
  | start c account policyEdit slug files save =>
    refine h.start ?_ hs
    cases save with
    | none => exact ⟨rfl, nofun⟩
    | some sv => trivial
  | templateOperation c => exact h.templateOperation hs
  | beginTemplateOperation c replied => exact h.beginTemplateOperation hs
  | documentBySlug c => exact h.documentBySlug hs
  | createDocument c replied => exact h.createDocument hs
  | refuse c => exact h.refuse hs
  | commit c batch replied => exact h.commit hs
  | discard c => exact h.discardUnwrittenDocument hs
  | drop c => exact h.drop hs

lemma Inv.run {ops : List (Op P T D)} (h : s.Inv) (hr : Run Catalog.step anyStep s ops s') :
    s'.Inv :=
  hr.invariant (fun _ _ _ hinv _ => hinv.step) h

end Catalog
end LibrePaper.Creation
