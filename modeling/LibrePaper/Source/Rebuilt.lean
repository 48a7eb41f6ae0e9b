import LibrePaper.Source.Renamed

/-!
# A project that is rebuilt from its projection

A document made of the texts and the assets of a projection has that projection, when the rules
accept every name that a file was moved to.
-/
namespace LibrePaper.Source
open Library Storage Browser List

/-- A new document with the texts and the assets of a projection, under these ids. -/
def rebuild (ids : Path → Path) (p : Projected) : Document where
  files := insertAll ((listed p.texts).map fun t => (ids t.1, .text t.2)) ∅
  paths := insertAll ((listed p.texts).map fun t => (ids t.1, .string t.1)) ∅
  assets := insertAll (((listed p.files).filter fun e => e.2.kind = .asset).map fun e =>
    (e.1, .string e.2.digest)) ∅

/-- The length and the extension of every name that a file is moved to are accepted. -/
def Retained (u : Unicode) (rules : Rules) (doc : Document) : Prop :=
  ∀ p ∈ (placing u (candidates u rules doc)).2.1, p.1 ≠ p.2.name u →
    lenUtf8 p.1 ≤ rules.maxPath ∧ kindOf u rules p.1 = .ok p.2.kind

/-- Every file of the projection has an accepted name, and the document rebuilt from it under any
ids has the same projection. -/
structure Reprojects (u : Unicode) (rules : Rules) (doc : Document) (hash : List Char → String) :
    Prop where
  accepted : ∀ path e, (project u rules doc hash).files.lookup path = some e →
    normalise u path = path ∧ admission u rules path = .ok e.kind ∧ relPath path = true
  again : ∀ ids : Path → Path, Set.InjOn ids {path | path ∈ (project u rules doc hash).texts} →
    let p := project u rules doc hash
    let q := project u rules (rebuild ids p) hash
    q.diagnostics = [] ∧ (listed q.files).map row = (listed p.files).map row ∧
      canonicalBytes q.files = canonicalBytes p.files

section Rebuild
variable {ids : Path → Path} {p : Projected}

lemma keys_rebuild (hids : Set.InjOn ids {path | path ∈ p.texts}) {α : Type*}
    (f : Path × List Char → α) :
    (((listed p.texts).map fun t => (ids t.1, f t)).map Prod.fst).Nodup := by
  have hkeys : ((listed p.texts).map Prod.fst).Nodup :=
    keys_listed p.texts ▸ sortedKeys_nodup p.texts
  rw [map_map]
  refine Nodup.map_on (fun t ht t' ht' heq => ?_) (Nodup.of_map _ hkeys)
  have hmem : ∀ t ∈ listed p.texts, t.1 ∈ p.texts := fun t ht =>
    Finmap.mem_of_lookup_eq_some (mem_listed.1 ht)
  exact inj_on_of_nodup_map hkeys ht ht' (hids (hmem t ht) (hmem t' ht') heq)

variable {id path : Path} {body : List Char}

lemma lookup_files_rebuild (hids : Set.InjOn ids {path | path ∈ p.texts}) {stored : Stored} :
    (rebuild ids p).files.lookup id = some stored ↔
      ∃ path body, p.texts.lookup path = some body ∧ ids path = id ∧ .text body = stored := by
  refine (lookup_insertAll_iff (keys_rebuild hids fun t => Stored.text t.2)).trans ?_
  simp [mem_listed]

lemma lookup_paths_rebuild (hids : Set.InjOn ids {path | path ∈ p.texts}) {value : Value Path} :
    (rebuild ids p).paths.lookup id = some value ↔
      ∃ path body, p.texts.lookup path = some body ∧ ids path = id ∧ .string path = value := by
  refine (lookup_insertAll_iff (keys_rebuild hids fun t => Value.string t.1)).trans ?_
  simp [mem_listed]

lemma textById_rebuild (hids : Set.InjOn ids {path | path ∈ p.texts}) :
    (rebuild ids p).textById id = some body ↔
      ∃ path, ids path = id ∧ p.texts.lookup path = some body := by
  unfold Document.textById
  constructor
  · intro h
    split at h
    · next body' hbody =>
      cases h
      obtain ⟨path, _, hpath, hid, hstored⟩ := (lookup_files_rebuild hids).1 hbody
      cases hstored
      exact ⟨path, hid, hpath⟩
    · cases h
  · rintro ⟨path, hid, hpath⟩
    rw [(lookup_files_rebuild hids).2 ⟨path, body, hpath, hid, rfl⟩]

lemma pathOf_rebuild (hids : Set.InjOn ids {path | path ∈ p.texts}) :
    (rebuild ids p).pathOf id = some path ↔ ids path = id ∧ path ∈ p.texts := by
  unfold Document.pathOf
  constructor
  · intro h
    split at h
    · next path' hpath =>
      cases h
      obtain ⟨_, _, hbody, hid, hvalue⟩ := (lookup_paths_rebuild hids).1 hpath
      cases hvalue
      exact ⟨hid, Finmap.mem_of_lookup_eq_some hbody⟩
    · cases h
  · rintro ⟨hid, hpath⟩
    obtain ⟨body, hbody⟩ := Finmap.mem_iff.1 hpath
    rw [(lookup_paths_rebuild hids).2 ⟨path, body, hbody, hid, rfl⟩]

lemma named_rebuild (hids : Set.InjOn ids {path | path ∈ p.texts})
    (h : p.texts.lookup path = some body ∧ ids path = id) :
    (rebuild ids p).textById id = some body ∧ (rebuild ids p).pathOf id = some path :=
  ⟨(textById_rebuild hids).2 ⟨path, h.2, h.1⟩,
    (pathOf_rebuild hids).2 ⟨h.2, Finmap.mem_of_lookup_eq_some h.1⟩⟩

lemma lookup_assets_rebuild {value : Value String} :
    (rebuild ids p).assets.lookup path = some value ↔
      ∃ e, p.files.lookup path = some e ∧ e.kind = .asset ∧ .string e.digest = value := by
  have hkeys : ((((listed p.files).filter fun e => e.2.kind = .asset).map fun e =>
      (e.1, Value.string e.2.digest)).map Prod.fst).Nodup := by
    rw [map_map]
    refine Nodup.sublist (filter_sublist.map Prod.fst) ?_
    exact keys_listed p.files ▸ sortedKeys_nodup p.files
  refine (lookup_insertAll_iff hkeys).trans ?_
  simp only [mem_map, mem_filter, decide_eq_true_eq, Prod.mk.injEq]
  constructor
  · rintro ⟨e, ⟨he, hkind⟩, rfl, hvalue⟩
    exact ⟨e.2, mem_listed.1 he, hkind, hvalue⟩
  · rintro ⟨e, he, hkind, hvalue⟩
    exact ⟨(path, e), ⟨mem_listed.2 he, hkind⟩, rfl, hvalue⟩

end Rebuild

section Reprojects
variable {u : Unicode} {rules : Rules} {doc : Document} {hash : List Char → String}

/-- Every name that a candidate gets is composed and accepted. -/
lemma accepted_of_retained (h : Composing u) (hretained : Retained u rules doc)
    {p : Path × Candidate} (hp : p ∈ (placing u (candidates u rules doc)).2.1) :
    normalise u p.1 = p.1 ∧ admission u rules p.1 = .ok p.2.kind := by
  have hok := (mem_candidates.1 (mem_of_placed hp)).2
  by_cases hname : p.1 = p.2.name u
  · rw [hname]
    exact ⟨normalise_normalise u _, (admission_normalise _).trans hok⟩
  · obtain ⟨hlength, hkind⟩ := hretained p hp hname
    obtain ⟨nth, hnth⟩ := (placing_spelled u _ p hp).resolve_left hname
    rw [hnth] at hlength hkind ⊢
    exact ⟨normalise_suffixed h (name_ne_nil hok) (normalise_normalise u _) nth,
      (admission_suffixed h hok nth).2 ⟨hlength, hkind⟩⟩

/-- What a file of a projection is when its document is rebuilt. -/
def Projected.candidate (p : Projected) (ids : Path → Path) (path : Path) (e : Entry) : Candidate :=
  match e.kind with
  | .text => .text (ids path) path ((p.texts.lookup path).getD [])
  | .asset => .asset path e.digest

variable {path : Path} {e : Entry} {files files' : Table Entry}

lemma digestAt_of_digest {doc' : Document} {path' : Path} {digest : String}
    (h : doc.digestAt path = some digest) (h' : doc'.assets.lookup path' = some (.string digest)) :
    doc'.digestAt path' = some digest := by
  unfold Document.digestAt at h ⊢
  rw [h']
  split at h
  · split_ifs at h with hhex
    cases h
    exact if_pos hhex
  · cases h

/-- A file of a projection is a text with its body, or an asset with its digest. -/
lemma lookup_files_cases (h : (project u rules doc hash).files.lookup path = some e) :
    (∃ id body, e = ⟨.text, id, hash body, lenUtf8 body⟩ ∧
      (project u rules doc hash).texts.lookup path = some body) ∨
    ∃ raw digest, e = ⟨.asset, [], digest, 0⟩ ∧ doc.digestAt raw = some digest ∧
      path ∉ (project u rules doc hash).texts := by
  obtain ⟨c, hc, rfl⟩ := lookup_project_files.1 h
  cases c with
  | text id raw body => exact .inl ⟨id, body, rfl, lookup_project_texts.2 ⟨_, hc, rfl⟩⟩
  | asset raw digest =>
    refine .inr ⟨raw, digest, rfl, (asset_mem_candidates.1 (mem_of_placed hc)).1, fun hin => ?_⟩
    obtain ⟨body, hbody⟩ := Finmap.mem_iff.1 hin
    obtain ⟨d, hd, hdbody⟩ := lookup_project_texts.1 hbody
    rw [← placed_eq_of_path hc hd] at hdbody
    cases hdbody

lemma file_of_text {body : List Char}
    (h : (project u rules doc hash).texts.lookup path = some body) :
    ∃ id, (project u rules doc hash).files.lookup path =
      some ⟨.text, id, hash body, lenUtf8 body⟩ := by
  obtain ⟨c, hc, hbody⟩ := lookup_project_texts.1 h
  cases c with
  | text id raw text =>
    cases hbody
    exact ⟨id, lookup_project_files.2 ⟨_, hc, rfl⟩⟩
  | asset raw digest => cases hbody

section Rebuilt
variable {ids : Path → Path}
  (hids : Set.InjOn ids {path | path ∈ (project u rules doc hash).texts})

/-- The assets of a rebuilt document have digests. -/
lemma digestAt_rebuild {value : Value String}
    (h : (rebuild ids (project u rules doc hash)).assets.lookup path = some value) : ∃ e,
      (project u rules doc hash).files.lookup path = some e ∧ e.kind = .asset ∧
      (rebuild ids (project u rules doc hash)).digestAt path = some e.digest := by
  obtain ⟨e, he, hkind, rfl⟩ := lookup_assets_rebuild.1 h
  refine ⟨e, he, hkind, ?_⟩
  rcases lookup_files_cases he with ⟨id, body, rfl, -⟩ | ⟨raw, digest, rfl, hdigest, -⟩
  · cases hkind
  · exact digestAt_of_digest hdigest h

include hids

/-- What asks for a path in a rebuilt document is a file of the projection. -/
lemma file_of_candidate {c : Candidate}
    (hc : c ∈ textCandidates (rebuild ids (project u rules doc hash)) ∨
      c ∈ assetCandidates (rebuild ids (project u rules doc hash))) :
    ∃ path e, (project u rules doc hash).files.lookup path = some e ∧
      c = (project u rules doc hash).candidate ids path e := by
  rcases hc with hc | hc
  · obtain ⟨id, path, body, rfl, hbody, hpath⟩ := mem_textCandidates.1 hc
    obtain ⟨path', hid', hbody⟩ := (textById_rebuild hids).1 hbody
    obtain ⟨hid, hin⟩ := (pathOf_rebuild hids).1 hpath
    obtain rfl : path' = path := hids (Finmap.mem_of_lookup_eq_some hbody) hin (hid'.trans hid.symm)
    obtain ⟨old, hfile⟩ := file_of_text hbody
    refine ⟨path', _, hfile, ?_⟩
    unfold Projected.candidate
    simp [hbody, hid]
  · obtain ⟨path, digest, rfl, hdigest⟩ := mem_assetCandidates.1 hc
    obtain ⟨value, hvalue⟩ : ∃ value,
        (rebuild ids (project u rules doc hash)).assets.lookup path = some value := by
      rw [← Option.ne_none_iff_exists']
      intro hno
      rw [Document.digestAt, hno] at hdigest
      cases hdigest
    obtain ⟨e, he, hkind, hsame⟩ := digestAt_rebuild hvalue
    refine ⟨path, e, he, ?_⟩
    unfold Projected.candidate
    rw [hkind, Option.some.inj (hdigest.symm.trans hsame)]

/-- In a rebuilt document everything is named. -/
lemma strayDiagnostics_rebuild :
    strayDiagnostics (rebuild ids (project u rules doc hash)) = [] := by
  rw [eq_nil_iff_forall_not_mem]
  intro d hd
  unfold strayDiagnostics at hd
  rw [mem_append, mem_append, mem_append] at hd
  rcases hd with ((hd | hd) | hd) | hd
  · obtain ⟨id, hid, rfl⟩ := mem_map.1 hd
    rw [mem_filter, mem_sortedKeys, Finmap.mem_iff] at hid
    obtain ⟨⟨value, hvalue⟩, hnone⟩ := hid
    obtain ⟨path, body, hpath, hids', -⟩ := (lookup_paths_rebuild hids).1 hvalue
    rw [(named_rebuild hids ⟨hpath, hids'⟩).2] at hnone
    exact Bool.false_ne_true hnone
  · obtain ⟨id, hid, hnotice⟩ := mem_filterMap.1 hd
    rw [mem_sortedKeys, Finmap.mem_iff] at hid
    obtain ⟨stored, hstored⟩ := hid
    obtain ⟨path, body, hpath, hids', -⟩ := (lookup_files_rebuild hids).1 hstored
    obtain ⟨hbody, hpath⟩ := named_rebuild hids ⟨hpath, hids'⟩
    rw [hbody, hpath] at hnotice
    cases hnotice
  · obtain ⟨id, hid, rfl⟩ := mem_map.1 hd
    rw [mem_filter, mem_sortedKeys, Finmap.mem_iff] at hid
    obtain ⟨⟨value, hvalue⟩, hnone⟩ := hid
    obtain ⟨path, body, hpath, hids', -⟩ := (lookup_paths_rebuild hids).1 hvalue
    rw [(named_rebuild hids ⟨hpath, hids'⟩).1, Option.isNone_some, Bool.and_false] at hnone
    exact Bool.false_ne_true hnone
  · obtain ⟨path, hpath, rfl⟩ := mem_map.1 hd
    rw [mem_filter, mem_sortedKeys, Finmap.mem_iff] at hpath
    obtain ⟨⟨value, hvalue⟩, hnone⟩ := hpath
    obtain ⟨e, -, -, hdigest⟩ := digestAt_rebuild hvalue
    rw [hdigest] at hnone
    exact Bool.false_ne_true hnone

end Rebuilt

section Retained
variable (h : Composing u) (hretained : Retained u rules doc)
include h hretained

lemma name_rebuild {ids : Path → Path}
    (he : (project u rules doc hash).files.lookup path = some e) :
    ((project u rules doc hash).candidate ids path e).name u = path := by
  obtain ⟨c, hc, -⟩ := lookup_project_files.1 he
  have hpath : normalise u path = path := (accepted_of_retained h hretained hc).1
  unfold Projected.candidate
  cases e.kind <;> exact hpath

variable {ids : Path → Path}
  (hids : Set.InjOn ids {path | path ∈ (project u rules doc hash).texts})
include hids

/-- The candidates of a rebuilt document are the files of the projection. -/
lemma mem_candidates_rebuild {c : Candidate} :
    c ∈ candidates u rules (rebuild ids (project u rules doc hash)) ↔
      ∃ path e, (project u rules doc hash).files.lookup path = some e ∧
        c = (project u rules doc hash).candidate ids path e := by
  refine ⟨fun hc => file_of_candidate hids (mem_candidates.1 hc).1, ?_⟩
  rintro ⟨path, e, he, rfl⟩
  have hok : admission u rules path = .ok e.kind := by
    obtain ⟨d, hd, rfl⟩ := lookup_project_files.1 he
    rw [(accepted_of_retained h hretained hd).2]
    cases d <;> rfl
  rcases lookup_files_cases he with ⟨id, body, rfl, hbody⟩ | ⟨raw, digest, rfl, hdigest, -⟩
  · refine text_mem_candidates.2 ⟨(textById_rebuild hids).2 ⟨path, rfl, ?_⟩,
      (pathOf_rebuild hids).2 ⟨rfl, Finmap.mem_of_lookup_eq_some hbody⟩, hok⟩
    rw [hbody]
    rfl
  · refine asset_mem_candidates.2 ⟨digestAt_of_digest hdigest ?_, hok⟩
    exact lookup_assets_rebuild.2 ⟨_, he, rfl, rfl⟩

/-- In a rebuilt document nothing is in the way of anything. -/
lemma settled_rebuild :
    Settled (project u rules (rebuild ids (project u rules doc hash)) hash) := by
  refine settled_iff_beside.2 fun c hc d hd hne => ?_
  obtain ⟨a, e, he, rfl⟩ := (mem_candidates_rebuild h hretained hids).1 hc
  obtain ⟨b, e', he', rfl⟩ := (mem_candidates_rebuild h hretained hids).1 hd
  unfold Beside
  rw [name_rebuild h hretained he, name_rebuild h hretained he']
  refine lookups_apart he he' ?_
  rintro rfl
  obtain rfl := Option.some.inj (he.symm.trans he')
  exact hne rfl

/-- Of a rebuilt document nothing is noticed. -/
lemma diagnostics_rebuild :
    (project u rules (rebuild ids (project u rules doc hash)) hash).diagnostics = [] := by
  rw [eq_nil_iff_forall_not_mem]
  intro d hd
  have hsettled := settled_rebuild h hretained hids d hd
  rw [project_diagnostics, mem_sortByKey] at hd
  rcases mem_noticed.1 hd with hd | hd | hd
  · rw [strayDiagnostics_rebuild hids] at hd
    cases hd
  · obtain ⟨c, hc, hwhy⟩ := mem_filterMap.1 hd
    obtain ⟨path, e, he, rfl⟩ := file_of_candidate hids (mem_append.1 hc)
    have hin := (mem_candidates_rebuild h hretained hids).2 ⟨path, e, he, rfl⟩
    rw [refusal_eq_none.2 (mem_candidates.1 hin).2] at hwhy
    cases hwhy
  · have hfiling := filing_placing (u := u) (candidates_nodup u rules
      (rebuild ids (project u rules doc hash)))
    exact Bool.false_ne_true (hsettled.symm.trans (hfiling.displaced d hd))

/-- A file of the projection is a file of the rebuilt document. -/
lemma lookup_rebuild (path : Path) :
    ((project u rules (rebuild ids (project u rules doc hash)) hash).files.lookup path).map
      (fun e => row (path, e)) =
        ((project u rules doc hash).files.lookup path).map fun e => row (path, e) := by
  have hsettled := settled_rebuild h hretained hids
  have hentry : ∀ e, (project u rules doc hash).files.lookup path = some e →
      row (path, ((project u rules doc hash).candidate ids path e).entry hash) = row (path, e) := by
    intro e he
    rcases lookup_files_cases he with ⟨id, body, rfl, hbody⟩ | ⟨raw, digest, rfl, -, -⟩
    · unfold Projected.candidate row
      dsimp only [Candidate.entry]
      rw [hbody]
      rfl
    · rfl
  cases hold : (project u rules doc hash).files.lookup path with
  | some e =>
    have hin := (mem_candidates_rebuild h hretained hids).2 ⟨path, e, hold, rfl⟩
    rw [(Source.lookup_files hsettled).2 ⟨_, hin, name_rebuild h hretained hold, rfl⟩]
    exact congrArg some (hentry e hold)
  | none =>
    cases hnew : (project u rules (rebuild ids (project u rules doc hash)) hash).files.lookup
        path with
    | none => rfl
    | some e =>
      obtain ⟨c, hc, hname, -⟩ := (Source.lookup_files hsettled).1 hnew
      obtain ⟨path', e', he', rfl⟩ := (mem_candidates_rebuild h hretained hids).1 hc
      rw [name_rebuild h hretained he'] at hname
      rw [hname, hold] at he'
      cases he'

end Retained

/-- The rows of a directory are what is found under its paths. -/
lemma rows_congr (h : ∀ path, (files.lookup path).map (fun e => row (path, e)) =
      (files'.lookup path).map fun e => row (path, e)) :
    (listed files).map row = (listed files').map row := by
  have hkeys : sortedKeys files = sortedKeys files' := by
    refine sortedKeys_congr fun path => ?_
    rw [← Finmap.lookup_isSome, ← Finmap.lookup_isSome]
    have hsome := congrArg Option.isSome (h path)
    rw [Option.isSome_map, Option.isSome_map] at hsome
    rw [hsome]
  unfold listed
  rw [map_filterMap, map_filterMap, hkeys]
  refine filterMap_congr fun path _ => ?_
  rw [Option.map_map, Option.map_map]
  exact h path

/-- The canonical bytes say what the rows say. -/
lemma canonicalBytes_of_rows (h : (listed files).map row = (listed files').map row) :
    canonicalBytes files = canonicalBytes files' := by
  have hlines : ∀ table : Table Entry, (listed table).flatMap line =
      ((listed table).map row).flatMap fun r =>
        r.1 ++ ['\t'] ++ Browser.kindName r.2.1 ++ ['\t'] ++ r.2.2.toList ++ ['\n'] := by
    intro table
    rw [flatMap_map]
    rfl
  unfold canonicalBytes
  rw [hlines, hlines, h]

/-- The projection of a document projects to itself, under accepted names, exactly when the rules
accept the length and the extension of every name that a file is moved to. -/
theorem reprojects_iff (h : Composing u) (rules : Rules) (doc : Document)
    (hash : List Char → String) : Reprojects u rules doc hash ↔ Retained u rules doc := by
  constructor
  · intro hre p hp hmoved
    have hok := (mem_candidates.1 (mem_of_placed hp)).2
    obtain ⟨nth, hnth⟩ := (placing_spelled u _ p hp).resolve_left hmoved
    obtain ⟨-, hadmitted, -⟩ := hre.accepted p.1 (p.2.entry hash)
      (lookup_project_files.2 ⟨p.2, hp, rfl⟩)
    have hkind : (p.2.entry hash).kind = p.2.kind := by cases p.2 <;> rfl
    rw [hkind, hnth] at hadmitted
    rw [hnth]
    exact (admission_suffixed h hok nth).1 hadmitted
  · intro hretained
    refine ⟨fun path e he => ?_, fun ids hids => ?_⟩
    · obtain ⟨c, hc, rfl⟩ := lookup_project_files.1 he
      obtain ⟨hpath, hok⟩ : normalise u path = path ∧ admission u rules path = .ok c.kind :=
        accepted_of_retained h hretained hc
      have hkind : (c.entry hash).kind = c.kind := by cases c <;> rfl
      rw [hkind]
      exact ⟨hpath, hok, hpath ▸ relPath_of_admission hok⟩
    · have hrows := rows_congr (lookup_rebuild h hretained hids)
      exact ⟨diagnostics_rebuild h hretained hids, hrows, canonicalBytes_of_rows hrows⟩

end Reprojects

lemma composing_uncomposed : Composing uncomposed :=
  ⟨rfl, fun _ => rfl, fun _ => rfl, fun _ _ _ => ⟨rfl, rfl⟩, fun _ _ _ _ _ _ => rfl⟩

/-- Rules for TeX files with names of at most this many bytes. -/
def texRulesOf (maxPath : ℕ) : Rules := ⟨[".tex".toList], [], [], maxPath, 8⟩

def twoTexts (path : Path) : Document where
  files := (Finmap.singleton ['a'] (.text [])).insert ['b'] (.text [])
  paths := (Finmap.singleton ['a'] (.string path)).insert ['b'] (.string path)
  assets := ∅

lemma textCandidates_twoTexts (path : Path) :
    textCandidates (twoTexts path) = [.text ['a'] path [], .text ['b'] path []] := by
  have hkeys : sortedKeys (twoTexts path).files = [['a'], ['b']] := by
    refine sortedKeys_eq (by decide) fun id => ?_
    rw [twoTexts, Finmap.mem_insert, Finmap.mem_singleton, mem_pair, or_comm]
  rw [textCandidates, hkeys]
  rfl

lemma assetCandidates_twoTexts (path : Path) : assetCandidates (twoTexts path) = [] := by
  have hkeys : sortedKeys (twoTexts path).assets = [] := by
    refine sortedKeys_eq Pairwise.nil fun id => ?_
    exact iff_of_false Finmap.notMem_empty not_mem_nil
  rw [assetCandidates, hkeys]
  rfl

/-- The second text is moved to a name of nine bytes, whatever the rules say of its length. -/
lemma placing_twoTexts {maxPath : ℕ} (h : maxPath = 5 ∨ maxPath = 9) :
    (placing uncomposed (candidates uncomposed (texRulesOf maxPath)
      (twoTexts "a.tex".toList))).2.1 =
        [("a.tex".toList, .text ['a'] "a.tex".toList []),
          ("a (2).tex".toList, .text ['b'] "a.tex".toList [])] := by
  unfold candidates
  rw [textCandidates_twoTexts, assetCandidates_twoTexts]
  rcases h with rfl | rfl
  · decide
  · decide

/-- Where names have at most five bytes, the second of two texts is moved to a name that the rules
refuse. -/
theorem moved_name_refused :
    (project uncomposed (texRulesOf 5) (twoTexts "a.tex".toList) fun _ => "").files.lookup
      "a (2).tex".toList = some ⟨.text, ['b'], "", 0⟩ ∧
    admission uncomposed (texRulesOf 5) "a (2).tex".toList =
      .error "a (2).tex: a path may be at most 5 bytes" ∧
    ¬ Reprojects uncomposed (texRulesOf 5) (twoTexts "a.tex".toList) fun _ => "" := by
  have hfile : (project uncomposed (texRulesOf 5) (twoTexts "a.tex".toList)
      fun _ => "").files.lookup "a (2).tex".toList = some ⟨.text, ['b'], "", 0⟩ := by
    refine lookup_project_files.2 ⟨.text ['b'] "a.tex".toList [], ?_, rfl⟩
    rw [placing_twoTexts (.inl rfl)]
    exact mem_cons_of_mem _ (mem_singleton_self _)
  have hrefused : admission uncomposed (texRulesOf 5) "a (2).tex".toList =
      .error "a (2).tex: a path may be at most 5 bytes" := by decide
  refine ⟨hfile, hrefused, fun h => ?_⟩
  cases hrefused.symm.trans (h.accepted _ _ hfile).2.1

/-- Where names have at most nine bytes, the project is rebuilt as it was. -/
theorem moved_name_kept : Reprojects uncomposed (texRulesOf 9) (twoTexts "a.tex".toList)
    fun _ => "" := by
  refine (reprojects_iff composing_uncomposed (texRulesOf 9) (twoTexts "a.tex".toList)
    fun _ => "").2 ?_
  unfold Retained
  rw [placing_twoTexts (.inr rfl)]
  decide

end LibrePaper.Source
