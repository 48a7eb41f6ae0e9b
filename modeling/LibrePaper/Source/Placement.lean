import LibrePaper.Source.Apply

/-!
# Where the projection places files

When the paths that are asked for can all stand in one directory, every candidate gets the
path it asks for; else something is moved or dropped.
-/
namespace LibrePaper.Source
open Library List

section Unicode
variable (u : Unicode)

/-- The path that a candidate asks for, as it is compared and stored. -/
def Candidate.name (c : Candidate) : Path := normalise u c.requested

/-- Two candidates can both have the paths they ask for. -/
def Beside (c d : Candidate) : Prop :=
  apart (collisionKey u (c.name u)) (collisionKey u (d.name u)) = true

instance (c d : Candidate) : Decidable (Beside u c d) := inferInstanceAs (Decidable (_ = true))

variable {u}

lemma apart_comm (a b : Path) : apart a b = apart b a := by
  unfold apart
  rw [decide_eq_decide.2 (ne_comm : a ≠ b ↔ b ≠ a), Bool.and_assoc, Bool.and_assoc,
    Bool.and_comm (!above a b)]

variable {c d : Candidate} {r : Reserved} {all : List Candidate}

lemma Beside.symm (h : Beside u c d) : Beside u d c := by
  unfold Beside at h ⊢
  rwa [apart_comm]

instance : Std.Symm (Beside u) := ⟨fun _ _ => Beside.symm⟩

lemma Beside.name_ne (h : Beside u c d) : c.name u ≠ d.name u := by
  intro hname
  unfold Beside apart at h
  rw [hname] at h
  simp at h

/-- What the paths reserved so far are. -/
structure Reserved.Of (u : Unicode) (r : Reserved) : Prop where
  taken : r.taken = r.placed.map fun p => collisionKey u p.1
  placed : ∀ p ∈ r.placed, p.1 = p.2.name u
  pairwise : (r.placed.map Prod.snd).Pairwise (Beside u)

lemma Reserved.Of.free_iff (h : r.Of u) (c : Candidate) :
    free u r.taken (c.name u) = true ↔ ∀ p ∈ r.placed, Beside u p.2 c := by
  unfold free
  rw [h.taken, all_eq_true, forall_mem_map]
  refine forall₂_congr fun p hp => ?_
  rw [h.placed p hp]
  rfl

lemma reserve_free (h : free u r.taken (c.name u) = true) : r.reserve u c =
      { r with
        taken := r.taken ++ [collisionKey u (c.name u)]
        placed := r.placed ++ [(c.name u, c)] } := if_pos h

lemma reserve_taken (h : ¬ free u r.taken (c.name u) = true) :
    r.reserve u c = { r with deferred := r.deferred ++ [c] } := if_neg h

lemma Reserved.Of.reserve (h : r.Of u) (c : Candidate) : (r.reserve u c).Of u := by
  by_cases hfree : free u r.taken (c.name u) = true
  · rw [reserve_free hfree]
    refine ⟨?_, fun p hp => ?_, ?_⟩
    · dsimp only
      rw [h.taken, map_append]
      rfl
    · rcases mem_append.1 hp with hp | hp
      · exact h.placed p hp
      · obtain rfl := mem_singleton.1 hp
        rfl
    · rw [map_append, pairwise_append]
      refine ⟨h.pairwise, pairwise_singleton _ _, fun d hd e he => ?_⟩
      obtain ⟨p, hp, rfl⟩ := mem_map.1 hd
      obtain rfl := mem_singleton.1 he
      exact (h.free_iff _).1 hfree p hp
  · rw [reserve_taken hfree]
    exact ⟨h.taken, h.placed, h.pairwise⟩

/-- A candidate that was put off stays put off. -/
lemma deferred_reserve (h : c ∈ r.deferred) :
    c ∈ (all.foldl (Reserved.reserve u) r).deferred := by
  induction all generalizing r with
  | nil => exact h
  | cons d all ih =>
    refine ih ?_
    by_cases hfree : free u r.taken (d.name u) = true
    · rwa [reserve_free hfree]
    · rw [reserve_taken hfree]
      exact mem_append_left _ h

lemma deferred_taken (h : ¬ free u r.taken (c.name u) = true) :
    (all.foldl (Reserved.reserve u) (r.reserve u c)).deferred ≠ [] := by
  refine ne_nil_of_mem (deferred_reserve (c := c) ?_)
  rw [reserve_taken h]
  exact mem_append_right _ mem_cons_self

/-- Nothing is put off exactly when all candidates can stand beside each other. -/
lemma reserve_all (all : List Candidate) (h : r.Of u) (hnone : r.deferred = []) :
    (all.foldl (Reserved.reserve u) r).deferred = [] ↔
      (r.placed.map Prod.snd ++ all).Pairwise (Beside u) := by
  induction all generalizing r with
  | nil =>
    rw [append_nil]
    exact iff_of_true hnone h.pairwise
  | cons c all ih =>
    rw [foldl_cons]
    by_cases hfree : free u r.taken (c.name u) = true
    · have hplaced : (r.reserve u c).placed.map Prod.snd = r.placed.map Prod.snd ++ [c] := by
        rw [reserve_free hfree, map_append]
        rfl
      have hdeferred : (r.reserve u c).deferred = [] := by
        rw [reserve_free hfree]
        exact hnone
      rw [ih (h.reserve c) hdeferred, hplaced, append_assoc, singleton_append]
    · refine iff_of_false (deferred_taken hfree) fun hpair => ?_
      refine hfree ((h.free_iff c).2 fun p hp => ?_)
      exact (pairwise_append.1 hpair).2.2 _ (mem_map_of_mem hp) c mem_cons_self

/-- When nothing is put off, every candidate gets the path it asks for. -/
lemma reserve_placed (all : List Candidate) (r : Reserved)
    (hnone : (all.foldl (Reserved.reserve u) r).deferred = []) :
    (all.foldl (Reserved.reserve u) r).placed = r.placed ++ all.map fun c => (c.name u, c) := by
  induction all generalizing r with
  | nil => simp
  | cons c all ih =>
    rw [foldl_cons] at hnone ⊢
    by_cases hfree : free u r.taken (c.name u) = true
    · rw [ih _ hnone, reserve_free hfree, map_cons, append_assoc]
      rfl
    · exact absurd hnone (deferred_taken hfree)

lemma reserved_start (u : Unicode) : (⟨[], [], []⟩ : Reserved).Of u := ⟨rfl, nofun, Pairwise.nil⟩

/-- Something is not where it asks to be. -/
def Diagnostic.displaced : Diagnostic → Bool
  | .moved .. | .dropped .. => true
  | _ => false

lemma suffix_displaced (s : List Path × List (Path × Candidate) × List Diagnostic)
    (deferred : List Candidate) :
    (∃ d ∈ (deferred.foldl (suffix u) s).2.2, d.displaced = true) ↔
      (∃ d ∈ s.2.2, d.displaced = true) ∨ deferred ≠ [] := by
  induction deferred generalizing s with
  | nil => simp
  | cons c deferred ih =>
    rw [foldl_cons, ih]
    refine iff_of_true (.inl ?_) (.inr (cons_ne_nil _ _))
    unfold suffix
    dsimp only
    split
    · exact ⟨_, mem_append_right _ mem_cons_self, rfl⟩
    · exact ⟨_, mem_append_right _ mem_cons_self, rfl⟩

end Unicode

section Projection
variable {u : Unicode} {rules : Rules} {doc : Document} {hash : List Char → String}

/-- Nothing of a projection is moved or dropped. -/
def Settled (p : Projected) : Prop := ∀ d ∈ p.diagnostics, d.displaced = false

lemma strayDiagnostics_displaced : ∀ d ∈ strayDiagnostics doc, d.displaced = false := by
  intro d hd
  unfold strayDiagnostics at hd
  rw [mem_append, mem_append, mem_append] at hd
  rcases hd with ((hd | hd) | hd) | hd
  · obtain ⟨_, _, rfl⟩ := mem_map.1 hd
    rfl
  · obtain ⟨id, -, hid⟩ := mem_filterMap.1 hd
    split at hid
    · cases hid
      rfl
    · cases hid
      rfl
    · cases hid
  · obtain ⟨_, _, rfl⟩ := mem_map.1 hd
    rfl
  · obtain ⟨_, _, rfl⟩ := mem_map.1 hd
    rfl

lemma refusalDiagnostics_displaced :
    ∀ d ∈ refusalDiagnostics u rules doc, d.displaced = false := by
  intro d hd
  obtain ⟨c, -, hc⟩ := mem_filterMap.1 hd
  obtain ⟨why, -, rfl⟩ := Option.map_eq_some_iff.1 hc
  rfl

/-- Nothing is moved or dropped exactly when all candidates can stand beside each other. -/
lemma settled_iff :
    Settled (project u rules doc hash) ↔ (candidates u rules doc).Pairwise (Beside u) := by
  have hdeferred := reserve_all (candidates u rules doc) (reserved_start u) rfl
  rw [map_nil, nil_append] at hdeferred
  rw [← hdeferred]
  have hdisplaced : (∃ d ∈ (project u rules doc hash).diagnostics, d.displaced = true) ↔
      (reserve u (candidates u rules doc)).deferred ≠ [] := by
    unfold project
    dsimp only
    simp only [mem_sortByKey, mem_append, or_and_right, exists_or]
    rw [suffix_displaced]
    constructor
    · rintro ((⟨d, hd, h⟩ | ⟨d, hd, h⟩) | ⟨d, hd, -⟩ | h)
      · exact absurd ((strayDiagnostics_displaced d hd).symm.trans h) Bool.false_ne_true
      · exact absurd ((refusalDiagnostics_displaced d hd).symm.trans h) Bool.false_ne_true
      · cases hd
      · exact h
    · exact fun h => .inr (.inr h)
  unfold Settled
  constructor
  · intro h
    by_contra hne
    obtain ⟨d, hd, hdis⟩ := hdisplaced.2 hne
    exact Bool.false_ne_true ((h d hd).symm.trans hdis)
  · intro h d hd
    by_contra hne
    exact hdisplaced.1 ⟨d, hd, Bool.eq_true_of_not_eq_false hne⟩ h

variable {c : Candidate} {id path : Path} {body : List Char} {digest : String}

lemma mem_textCandidates : c ∈ textCandidates doc ↔
    ∃ id path body, c = .text id path body ∧ doc.textById id = some body ∧
      doc.pathOf id = some path := by
  unfold textCandidates
  rw [mem_filterMap]
  constructor
  · rintro ⟨id, -, hid⟩
    split at hid
    · rename_i body path hbody hpath
      exact ⟨id, path, body, (Option.some.inj hid).symm, hbody, hpath⟩
    · cases hid
  · rintro ⟨id, path, body, rfl, hbody, hpath⟩
    refine ⟨id, mem_sortedKeys.2 ?_, by rw [hbody, hpath]⟩
    by_contra hno
    rw [Document.textById, Finmap.lookup_eq_none.2 hno] at hbody
    cases hbody

lemma mem_assetCandidates : c ∈ assetCandidates doc ↔
    ∃ path digest, c = .asset path digest ∧ doc.digestAt path = some digest := by
  unfold assetCandidates
  rw [mem_filterMap]
  constructor
  · rintro ⟨path, -, hpath⟩
    obtain ⟨digest, hdigest, rfl⟩ := Option.map_eq_some_iff.1 hpath
    exact ⟨path, digest, rfl, hdigest⟩
  · rintro ⟨path, digest, rfl, hdigest⟩
    refine ⟨path, mem_sortedKeys.2 ?_, by rw [hdigest]; rfl⟩
    by_contra hno
    rw [Document.digestAt, Finmap.lookup_eq_none.2 hno] at hdigest
    cases hdigest

lemma refusal_eq_none :
    refusal u rules c = none ↔ admission u rules c.requested = .ok c.kind := by
  unfold refusal
  split
  · rename_i why hwhy
    rw [hwhy]
    exact iff_of_false nofun nofun
  · rename_i kind hkind
    rw [hkind]
    split_ifs with heq
    · rw [heq]
      exact iff_of_true rfl rfl
    · exact iff_of_false nofun fun h => heq (Except.ok.inj h)

lemma mem_candidates : c ∈ candidates u rules doc ↔
    (c ∈ textCandidates doc ∨ c ∈ assetCandidates doc) ∧
      admission u rules c.requested = .ok c.kind := by
  unfold candidates
  rw [mem_sortByKey, mem_filter, mem_append, Option.isNone_iff_eq_none, refusal_eq_none]

lemma text_mem_candidates :
    .text id path body ∈ candidates u rules doc ↔ doc.textById id = some body ∧
      doc.pathOf id = some path ∧ admission u rules path = .ok .text := by
  rw [mem_candidates]
  constructor
  · rintro ⟨h | h, hok⟩
    · obtain ⟨_, _, _, heq, hbody, hpath⟩ := mem_textCandidates.1 h
      cases heq
      exact ⟨hbody, hpath, hok⟩
    · obtain ⟨_, _, heq, -⟩ := mem_assetCandidates.1 h
      cases heq
  · rintro ⟨hbody, hpath, hok⟩
    exact ⟨.inl (mem_textCandidates.2 ⟨_, _, _, rfl, hbody, hpath⟩), hok⟩

lemma asset_mem_candidates :
    .asset path digest ∈ candidates u rules doc ↔ doc.digestAt path = some digest ∧
      admission u rules path = .ok .asset := by
  rw [mem_candidates]
  constructor
  · rintro ⟨h | h, hok⟩
    · obtain ⟨_, _, _, heq, -⟩ := mem_textCandidates.1 h
      cases heq
    · obtain ⟨_, _, heq, hdigest⟩ := mem_assetCandidates.1 h
      cases heq
      exact ⟨hdigest, hok⟩
  · rintro ⟨hdigest, hok⟩
    exact ⟨.inr (mem_assetCandidates.2 ⟨_, _, rfl, hdigest⟩), hok⟩

lemma textCandidates_nodup (doc : Document) : (textCandidates doc).Nodup := by
  refine Nodup.of_map Candidate.key ((sortedKeys_nodup doc.files).sublist ?_)
  unfold textCandidates
  generalize sortedKeys doc.files = keys
  induction keys with
  | nil => exact Sublist.slnil
  | cons id keys ih =>
    rw [filterMap_cons]
    cases doc.textById id with
    | none => exact ih.cons id
    | some body =>
      cases doc.pathOf id with
      | none => exact ih.cons id
      | some path => exact ih.cons_cons id

lemma assetCandidates_nodup (doc : Document) : (assetCandidates doc).Nodup := by
  refine Nodup.of_map Candidate.requested ((sortedKeys_nodup doc.assets).sublist ?_)
  unfold assetCandidates
  generalize sortedKeys doc.assets = keys
  induction keys with
  | nil => exact Sublist.slnil
  | cons path keys ih =>
    rw [filterMap_cons]
    cases doc.digestAt path with
    | none => exact ih.cons path
    | some digest => exact ih.cons_cons path

lemma candidates_nodup (u : Unicode) (rules : Rules) (doc : Document) :
    (candidates u rules doc).Nodup := by
  refine (sortByKey_perm _ _).nodup_iff.2 (Nodup.filter _ ?_)
  refine Nodup.append (textCandidates_nodup doc) (assetCandidates_nodup doc) ?_
  intro c ht ha
  obtain ⟨_, _, _, rfl, -⟩ := mem_textCandidates.1 ht
  obtain ⟨_, _, heq, -⟩ := mem_assetCandidates.1 ha
  cases heq

/-- Nothing is moved or dropped exactly when any two candidates can stand beside each
other. -/
lemma settled_iff_beside : Settled (project u rules doc hash) ↔
    ∀ c ∈ candidates u rules doc, ∀ d ∈ candidates u rules doc, c ≠ d → Beside u c d := by
  rw [settled_iff]
  constructor
  · intro h c hc d hd hne
    exact h.forall hc hd hne
  · intro h
    exact (candidates_nodup u rules doc).pairwise_of_forall_ne h

section Settled
variable (h : Settled (project u rules doc hash))
include h

lemma placed_of_settled : ((reserve u (candidates u rules doc)).deferred.foldl (suffix u)
    ((reserve u (candidates u rules doc)).taken, (reserve u (candidates u rules doc)).placed,
      [])).2.1 = (candidates u rules doc).map fun c => (c.name u, c) := by
  have hnone := (reserve_all (candidates u rules doc) (reserved_start u) rfl).2 (settled_iff.1 h)
  unfold reserve
  rw [hnone]
  exact reserve_placed _ _ hnone

lemma names_nodup : ((candidates u rules doc).map (Candidate.name u)).Nodup := by
  rw [nodup_map_iff_inj_on (candidates_nodup u rules doc)]
  intro c hc d hd heq
  by_contra hne
  exact (settled_iff_beside.1 h c hc d hd hne).name_ne heq

lemma lookup_files {e : Entry} :
    (project u rules doc hash).files.lookup path = some e ↔
      ∃ c ∈ candidates u rules doc, c.name u = path ∧ c.entry hash = e := by
  have hfiles : (project u rules doc hash).files =
      insertAll ((candidates u rules doc).map fun c => (c.name u, c.entry hash)) ∅ := by
    change fileAll hash _ = _
    unfold fileAll
    rw [placed_of_settled h, map_map]
    rfl
  have hkeys : ((candidates u rules doc).map fun c => (c.name u, c.entry hash)).map Prod.fst =
      (candidates u rules doc).map (Candidate.name u) := by
    rw [map_map]
    rfl
  have hentry : ∀ c ∈ candidates u rules doc, (c.name u, c.entry hash) ∈
      (candidates u rules doc).map fun c => (c.name u, c.entry hash) :=
    fun c hc => mem_map.2 ⟨c, hc, rfl⟩
  rw [hfiles]
  constructor
  · intro hlookup
    by_cases hmem : path ∈ (candidates u rules doc).map (Candidate.name u)
    · obtain ⟨c, hc, rfl⟩ := mem_map.1 hmem
      refine ⟨c, hc, rfl, ?_⟩
      rw [lookup_insertAll_of_mem (hkeys ▸ names_nodup h) (hentry c hc)] at hlookup
      exact Option.some.inj hlookup
    · rw [lookup_insertAll_of_notMem (hkeys ▸ hmem), Finmap.lookup_empty] at hlookup
      cases hlookup
  · rintro ⟨c, hc, rfl, rfl⟩
    exact lookup_insertAll_of_mem (hkeys ▸ names_nodup h) (hentry c hc) _

lemma texts_of_settled : (project u rules doc hash).texts = insertAll
    (((candidates u rules doc).map fun c => (c.name u, c)).filterMap fun p =>
      p.2.body.map fun body => (p.1, body)) ∅ := by
  change textAll _ = _
  unfold textAll
  rw [placed_of_settled h]

lemma lookup_texts (hc : .text id path body ∈ candidates u rules doc) :
    (project u rules doc hash).texts.lookup (normalise u path) = some body := by
  rw [texts_of_settled h]
  refine lookup_insertAll_of_mem ?_ ?_ _
  · refine Sublist.nodup ?_ (names_nodup h)
    generalize candidates u rules doc = all
    induction all with
    | nil => exact Sublist.slnil
    | cons c all ih =>
      rw [map_cons, filterMap_cons, map_cons]
      cases c with
      | text id path body => exact ih.cons_cons _
      | asset path digest => exact ih.cons _
  · exact mem_filterMap.2 ⟨_, mem_map_of_mem hc, rfl⟩

/-- The texts of the projection are the texts of the document, under the paths they ask for. -/
lemma lookup_texts_iff :
    (project u rules doc hash).texts.lookup path = some body ↔
      ∃ id raw, .text id raw body ∈ candidates u rules doc ∧ normalise u raw = path := by
  constructor
  · intro hlookup
    have hmem : path ∈ (((candidates u rules doc).map fun c => (c.name u, c)).filterMap fun p =>
        p.2.body.map fun body => (p.1, body)).map Prod.fst := by
      by_contra hno
      rw [texts_of_settled h, lookup_insertAll_of_notMem hno, Finmap.lookup_empty] at hlookup
      cases hlookup
    obtain ⟨e, he, rfl⟩ := mem_map.1 hmem
    obtain ⟨p, hp, hbody⟩ := mem_filterMap.1 he
    obtain ⟨c, hc, rfl⟩ := mem_map.1 hp
    cases c with
    | text id raw text =>
      cases hbody
      obtain rfl := Option.some.inj ((lookup_texts h hc).symm.trans hlookup)
      exact ⟨id, raw, hc, rfl⟩
    | asset raw digest => cases hbody
  · rintro ⟨id, raw, hc, rfl⟩
    exact lookup_texts h hc

variable {revision : String}

/-- The texts of the tree are the texts of the document, under the paths they ask for. -/
lemma lookup_tree_files {file : SourceFile} :
    (treeOf (project u rules doc hash) revision).files.lookup path = some file ↔
      ∃ raw, .text file.fileId raw file.text ∈ candidates u rules doc ∧
        normalise u raw = path := by
  change (collect _ _).lookup path = _ ↔ _
  rw [lookup_collect]
  constructor
  · intro hlookup
    obtain ⟨e, he, hfile⟩ := Option.bind_eq_some_iff.1 hlookup
    obtain ⟨c, hc, rfl, rfl⟩ := (lookup_files h).1 he
    cases c with
    | text id raw body =>
      obtain ⟨text, htext, rfl⟩ := Option.map_eq_some_iff.1 hfile
      obtain rfl := Option.some.inj ((lookup_texts h hc).symm.trans htext)
      exact ⟨raw, hc, rfl⟩
    | asset raw digest => cases hfile
  · rintro ⟨raw, hc, rfl⟩
    have hlookup : (project u rules doc hash).files.lookup (normalise u raw) = some _ :=
      (lookup_files h).2 ⟨_, hc, rfl, rfl⟩
    rw [hlookup]
    change ((project u rules doc hash).texts.lookup (normalise u raw)).map _ = _
    rw [lookup_texts h hc]
    rfl

/-- The assets of the tree are those of the document, under the paths they ask for. -/
lemma lookup_tree_assets :
    (treeOf (project u rules doc hash) revision).assets.lookup path = some digest ↔
      ∃ raw, .asset raw digest ∈ candidates u rules doc ∧ normalise u raw = path := by
  change (collect _ _).lookup path = _ ↔ _
  rw [lookup_collect]
  constructor
  · intro hlookup
    obtain ⟨e, he, hdigest⟩ := Option.bind_eq_some_iff.1 hlookup
    obtain ⟨c, hc, rfl, rfl⟩ := (lookup_files h).1 he
    cases c with
    | text id raw body => cases hdigest
    | asset raw digest =>
      cases hdigest
      exact ⟨raw, hc, rfl⟩
  · rintro ⟨raw, hc, rfl⟩
    have hlookup : (project u rules doc hash).files.lookup (normalise u raw) = some _ :=
      (lookup_files h).2 ⟨_, hc, rfl, rfl⟩
    rw [hlookup]
    rfl

end Settled

end Projection

end LibrePaper.Source
