import LibrePaper.Source.Accepted

/-!
# The stages of a change

What every stage of applying a change does to the document: the patches, the deletions, the
new texts and the binaries.
-/
namespace LibrePaper.Source
open Library Anchors List

/-- A text of the document with the path it asks for. -/
def Document.Named (doc : Document) (id path : Path) (body : List Char) : Prop :=
  doc.textById id = some body ∧ doc.pathOf id = some path

/-- No id is filed under a path. -/
def Document.Unfiled (doc : Document) (path : Path) : Prop := ∀ id, doc.pathOf id ≠ some path

variable {doc doc' : Document} {id path : Path} {digest : String} {file : Path × Path × List Edit}
  {files : List (Path × Path × List Edit)}

lemma pathOf_congr (h : doc'.paths = doc.paths) (id : Path) : doc'.pathOf id = doc.pathOf id := by
  unfold Document.pathOf
  rw [h]

lemma holders_congr (h : doc'.paths = doc.paths) (path : Path) :
    doc'.holders path = doc.holders path := by
  unfold Document.holders
  rw [h, filter_congr fun id _ => by rw [pathOf_congr h]]

lemma digestAt_congr (h : doc'.assets = doc.assets) (path : Path) :
    doc'.digestAt path = doc.digestAt path := by
  unfold Document.digestAt
  rw [h]

lemma textById_congr (h : doc'.files.lookup id = doc.files.lookup id) :
    doc'.textById id = doc.textById id := by
  unfold Document.textById
  rw [h]

lemma mem_paths (h : doc.pathOf id = some path) : id ∈ doc.paths := by
  by_contra hno
  rw [Document.pathOf, Finmap.lookup_eq_none.2 hno] at h
  cases h

lemma mem_files {body : List Char} (h : doc.textById id = some body) : id ∈ doc.files := by
  by_contra hno
  rw [Document.textById, Finmap.lookup_eq_none.2 hno] at h
  cases h

lemma mem_assets (h : doc.digestAt path = some digest) : path ∈ doc.assets := by
  by_contra hno
  rw [Document.digestAt, Finmap.lookup_eq_none.2 hno] at h
  cases h

lemma mem_holders : id ∈ doc.holders path ↔ doc.pathOf id = some path := by
  unfold Document.holders
  rw [mem_filter, mem_sortedKeys, decide_eq_true_iff]
  exact ⟨And.right, fun h => ⟨mem_paths h, h⟩⟩

lemma holders_nodup (doc : Document) (path : Path) : (doc.holders path).Nodup :=
  (sortedKeys_nodup doc.paths).filter _

lemma holders_eq_nil : doc.holders path = [] ↔ doc.Unfiled path := by
  rw [eq_nil_iff_forall_not_mem]
  exact forall_congr' fun id => not_congr mem_holders

lemma textById_insert (doc : Document) (id j : Path) (text : List Char) :
    ({ doc with files := doc.files.insert id (.text text) } : Document).textById j =
      if j = id then some text else doc.textById j := by
  unfold Document.textById
  split_ifs with h
  · rw [h, Finmap.lookup_insert]
  · dsimp only
    rw [Finmap.lookup_insert_of_ne _ h]

lemma editFile_ok (h : editFile doc file = .ok doc') :
    ∃ text out, doc.textById file.2.1 = some text ∧
      untrackedText text file.2.2 = some out ∧
      doc' = { doc with files := doc.files.insert file.2.1 (.text out) } := by
  unfold editFile at h
  split at h
  · rename_i edited hedited
    cases h
    unfold Document.untrackedEdits at hedited
    obtain ⟨out, hout, rfl⟩ := Option.map_eq_some_iff.1 hedited
    obtain ⟨text, htext, hout⟩ := Option.bind_eq_some_iff.1 hout
    exact ⟨text, out, htext, hout, rfl⟩
  · cases h

/-- What stays of a document whose texts are edited. -/
structure Edited (doc doc' : Document) : Prop where
  paths : doc'.paths = doc.paths
  assets : doc'.assets = doc.assets
  texts : ∀ id, (doc'.textById id).isSome = (doc.textById id).isSome
  files : ∀ id, id ∈ doc'.files → id ∈ doc.files

lemma Edited.refl (doc : Document) : Edited doc doc := ⟨rfl, rfl, fun _ => rfl, fun _ => id⟩

lemma Edited.trans {doc doc' doc'' : Document} (h : Edited doc doc') (h' : Edited doc' doc'') :
    Edited doc doc'' :=
  ⟨h'.paths.trans h.paths, h'.assets.trans h.assets, fun id => (h'.texts id).trans (h.texts id),
    fun id hid => h.files id (h'.files id hid)⟩

lemma edited_of_editFile (h : editFile doc file = .ok doc') : Edited doc doc' := by
  obtain ⟨text, out, htext, -, rfl⟩ := editFile_ok h
  refine ⟨rfl, rfl, fun id => ?_, fun id hid => ?_⟩
  · rw [textById_insert]
    split_ifs with hid
    · rw [hid, htext]
      rfl
    · rfl
  · rcases Finmap.mem_insert.1 hid with rfl | hid
    · exact mem_files htext
    · exact hid

lemma edited_of_foldlM (h : files.foldlM editFile doc = .ok doc') : Edited doc doc' := by
  induction files generalizing doc with
  | nil =>
    obtain rfl := Except.ok.inj h
    exact Edited.refl doc
  | cons file files ih =>
    rw [foldlM_cons] at h
    obtain ⟨doc₁, hfile, h⟩ := bind_ok h
    exact (edited_of_editFile hfile).trans (ih h)

/-- Edits of different files that can be applied alone can be applied together. -/
lemma editFiles_ok (doc : Document) (hids : (files.map (·.2.1)).Nodup) (h : ∀ f ∈ files, ∃ out,
      ((doc.textById f.2.1).bind fun text => untrackedText text f.2.2) = some out) :
    ∃ doc', files.foldlM editFile doc = .ok doc' ∧
      (∀ f ∈ files, doc'.textById f.2.1 =
        (doc.textById f.2.1).bind fun text => untrackedText text f.2.2) ∧
      ∀ id, id ∉ files.map (·.2.1) → doc'.textById id = doc.textById id := by
  induction files generalizing doc with
  | nil => exact ⟨doc, rfl, nofun, fun _ _ => rfl⟩
  | cons file files ih =>
    rw [map_cons, nodup_cons] at hids
    obtain ⟨out, hout⟩ := h file mem_cons_self
    have hedit : editFile doc file =
        .ok { doc with files := doc.files.insert file.2.1 (.text out) } := by
      unfold editFile Document.untrackedEdits
      rw [hout]
      rfl
    have hsame : ∀ f ∈ files, ({ doc with
        files := doc.files.insert file.2.1 (.text out) } : Document).textById f.2.1 =
          doc.textById f.2.1 := by
      intro f hf
      rw [textById_insert, if_neg]
      exact fun hid => hids.1 (hid ▸ mem_map_of_mem hf)
    obtain ⟨doc', hdoc', hin, hout'⟩ := ih _ hids.2 fun f hf => by
      rw [hsame f hf]
      exact h f (mem_cons_of_mem _ hf)
    refine ⟨doc', ?_, fun f hf => ?_, fun id hid => ?_⟩
    · rw [foldlM_cons, hedit]
      exact hdoc'
    · rcases mem_cons.1 hf with rfl | hf
      · rw [hout' _ hids.1, textById_insert, if_pos rfl, hout]
      · rw [hin f hf, hsame f hf]
    · rw [map_cons, mem_cons, not_or] at hid
      rw [hout' _ hid.2, textById_insert, if_neg hid.1]

/-- How often a path is deleted. -/
def deletions (delete : List DeleteFile) (path : Path) : ℕ := (delete.map (·.path)).count path

lemma deletions_cons (f : DeleteFile) (delete : List DeleteFile) (path : Path) :
    deletions (f :: delete) path = deletions delete path + if f.path = path then 1 else 0 := by
  unfold deletions
  rw [map_cons, count_cons]
  simp

lemma deletions_pos {delete : List DeleteFile} :
    0 < deletions delete path ↔ path ∈ delete.map (·.path) := count_pos_iff

/-- The ids that deleting removes. -/
def Gone (tree : SourceTree) (delete : List DeleteFile) (doc : Document) (id : Path) : Prop :=
  ∃ path, path ∈ tree.files ∧ id ∈ (doc.holders path).take (deletions delete path)

lemma removePath_ok (h : doc.removePath path = some doc') :
    ∃ id, (doc.holders path).head? = some id ∧
      doc' = { doc with paths := doc.paths.erase id, files := doc.files.erase id } := by
  unfold Document.removePath Document.idByPath at h
  obtain ⟨id, hid, rfl⟩ := Option.map_eq_some_iff.1 h
  exact ⟨id, hid, rfl⟩

lemma pathOf_erase (doc : Document) (id j : Path) :
    ({ doc with paths := doc.paths.erase id, files := doc.files.erase id } : Document).pathOf j =
      if j = id then none else doc.pathOf j := by
  unfold Document.pathOf
  split_ifs with h
  · rw [h, Finmap.lookup_erase]
  · dsimp only
    rw [Finmap.lookup_erase_ne h]

lemma textById_erase (doc : Document) (id j : Path) :
    ({ doc with paths := doc.paths.erase id, files := doc.files.erase id } : Document).textById
      j = if j = id then none else doc.textById j := by
  unfold Document.textById
  split_ifs with h
  · rw [h, Finmap.lookup_erase]
  · dsimp only
    rw [Finmap.lookup_erase_ne h]

lemma holders_erase (doc : Document) (id path : Path) :
    ({ doc with paths := doc.paths.erase id, files := doc.files.erase id } : Document).holders
      path = (doc.holders path).filter fun j => j ≠ id := by
  unfold Document.holders
  rw [sortedKeys_erase, filter_filter, filter_filter]
  refine filter_congr fun j _ => ?_
  rw [pathOf_erase]
  by_cases h : j = id <;> simp [h]

/-- Deleting a file removes the first id under its path, and nothing of another path. -/
structure Removed (path id : Path) (ids : List Path) (doc doc' : Document) : Prop where
  here : doc.holders path = id :: ids
  left : doc'.holders path = ids
  others : ∀ q, q ≠ path → doc'.holders q = doc.holders q
  pathOf : ∀ j, doc'.pathOf j = if j = id then none else doc.pathOf j
  textById : ∀ j, doc'.textById j = if j = id then none else doc.textById j
  assets : doc'.assets = doc.assets
  files : ∀ j, j ∈ doc'.files → j ∈ doc.files
  paths : ∀ j, j ∈ doc'.paths → j ∈ doc.paths

lemma removed_of_removePath (h : doc.removePath path = some doc') :
    ∃ id ids, Removed path id ids doc doc' := by
  obtain ⟨id, hid, rfl⟩ := removePath_ok h
  obtain ⟨ids, hids⟩ := head?_eq_some_iff.1 hid
  have hnodup := holders_nodup doc path
  rw [hids, nodup_cons] at hnodup
  refine ⟨id, ids, hids, ?_, fun q hq => ?_, pathOf_erase doc id, textById_erase doc id, rfl,
    fun j hj => (Finmap.mem_erase.1 hj).2, fun j hj => (Finmap.mem_erase.1 hj).2⟩
  · rw [holders_erase, hids, filter_cons_of_neg (by simp), filter_eq_self]
    exact fun j hj => decide_eq_true fun hno => hnodup.1 (hno ▸ hj)
  · rw [holders_erase, filter_eq_self]
    refine fun j hj => decide_eq_true fun hno => hq ?_
    have hpath : doc.pathOf id = some path := mem_holders.1 (hids ▸ mem_cons_self)
    rw [mem_holders, hno, hpath] at hj
    exact (Option.some.inj hj).symm

section Delete
variable {tree : SourceTree} {delete : List DeleteFile} {f : DeleteFile} {doc doc' : Document}

variable {ids : List Path} {doc'' : Document}

lemma gone_cons (hp : f.path ∈ tree.files) (h : Removed f.path id ids doc doc') (j : Path) :
    Gone tree (f :: delete) doc j ↔ j = id ∨ Gone tree delete doc' j := by
  constructor
  · rintro ⟨q, hq, hj⟩
    rw [deletions_cons] at hj
    by_cases hpath : f.path = q
    · subst hpath
      rw [if_pos rfl, h.here, take_succ_cons, mem_cons] at hj
      refine hj.imp_right fun hj => ⟨f.path, hp, ?_⟩
      rwa [h.left]
    · rw [if_neg hpath, Nat.add_zero] at hj
      refine .inr ⟨q, hq, ?_⟩
      rwa [h.others q (Ne.symm hpath)]
  · rintro (rfl | ⟨q, hq, hj⟩)
    · refine ⟨f.path, hp, ?_⟩
      rw [deletions_cons, if_pos rfl, h.here, take_succ_cons]
      exact mem_cons_self
    · refine ⟨q, hq, ?_⟩
      rw [deletions_cons]
      by_cases hpath : f.path = q
      · subst hpath
        rw [if_pos rfl, h.here, take_succ_cons]
        rw [h.left] at hj
        exact mem_cons_of_mem _ hj
      · rw [if_neg hpath, Nat.add_zero]
        rwa [h.others q (Ne.symm hpath)] at hj

lemma gone_cons_asset (hp : f.path ∉ tree.files) (h : doc'.holders = doc.holders) (j : Path) :
    Gone tree (f :: delete) doc j ↔ Gone tree delete doc' j := by
  unfold Gone
  refine exists_congr fun q => and_congr_right fun hq => ?_
  rw [deletions_cons, if_neg fun hno : f.path = q => hp (hno ▸ hq), h, Nat.add_zero]

lemma deleteFile_ok (h : deleteFile tree doc f = .ok doc') :
    (f.path ∈ tree.files ∧ ∃ id ids, Removed f.path id ids doc doc') ∨
      (f.path ∉ tree.files ∧ f.path ∈ doc.assets ∧
        doc' = { doc with assets := doc.assets.erase f.path }) := by
  unfold deleteFile at h
  by_cases hp : f.path ∈ tree.files
  · rw [if_pos hp] at h
    cases hremove : doc.removePath f.path with
    | none =>
      rw [hremove] at h
      cases h
    | some removed =>
      rw [hremove] at h
      cases h
      exact .inl ⟨hp, removed_of_removePath hremove⟩
  · rw [if_neg hp] at h
    unfold Document.removeAsset at h
    by_cases hasset : f.path ∈ doc.assets
    · rw [if_pos hasset] at h
      exact .inr ⟨hp, hasset, (Except.ok.inj h).symm⟩
    · rw [if_neg hasset] at h
      cases h

/-- What a run of deletions leaves of a document. -/
structure Deleted (tree : SourceTree) (delete : List DeleteFile) (doc doc' : Document) :
    Prop where
  holders : ∀ q, q ∉ tree.files → doc'.holders q = doc.holders q
  pathOf : ∀ id, ¬ Gone tree delete doc id → doc'.pathOf id = doc.pathOf id
  textById : ∀ id, ¬ Gone tree delete doc id → doc'.textById id = doc.textById id
  gone : ∀ id, Gone tree delete doc id → doc'.textById id = none
  removed : ∀ q, q ∉ tree.files → q ∈ delete.map (·.path) → doc'.assets.lookup q = none
  assets : ∀ q, q ∈ tree.files ∨ q ∉ delete.map (·.path) →
    doc'.assets.lookup q = doc.assets.lookup q
  files : ∀ id, id ∈ doc'.files → id ∈ doc.files
  paths : ∀ id, id ∈ doc'.paths → id ∈ doc.paths

/-- When a run of deletions finds every file. -/
def Deletable (tree : SourceTree) (delete : List DeleteFile) (doc : Document) : Prop :=
  ∀ path ∈ delete.map (·.path),
    (path ∈ tree.files → deletions delete path ≤ (doc.holders path).length) ∧
    (path ∉ tree.files → path ∈ doc.assets ∧ deletions delete path = 1)

lemma not_gone_nil (j : Path) : ¬ Gone tree [] doc j := by
  rintro ⟨q, -, hj⟩
  exact absurd hj not_mem_nil

lemma Deleted.cons_text (hp : f.path ∈ tree.files) (hstep : Removed f.path id ids doc doc')
    (h : Deleted tree delete doc' doc'') : Deleted tree (f :: delete) doc doc'' := by
  have hgone : ∀ j, Gone tree (f :: delete) doc j ↔ j = id ∨ Gone tree delete doc' j :=
    gone_cons hp hstep
  refine ⟨fun q hq => ?_, fun j hj => ?_, fun j hj => ?_, fun j hj => ?_, fun q hq hmem => ?_,
    fun q hq => ?_, fun j hj => hstep.files j (h.files j hj),
    fun j hj => hstep.paths j (h.paths j hj)⟩
  · rw [h.holders q hq, hstep.others q fun hno => hq (hno ▸ hp)]
  · rw [hgone, not_or] at hj
    rw [h.pathOf j hj.2, hstep.pathOf, if_neg hj.1]
  · rw [hgone, not_or] at hj
    rw [h.textById j hj.2, hstep.textById, if_neg hj.1]
  · rw [hgone] at hj
    by_cases hlater : Gone tree delete doc' j
    · exact h.gone j hlater
    · rw [h.textById j hlater, hstep.textById, if_pos (hj.resolve_right hlater)]
  · rcases mem_cons.1 hmem with rfl | hmem
    · exact absurd hp hq
    · exact h.removed q hq hmem
  · rw [h.assets q (hq.imp_right fun hno hmem => hno (mem_cons_of_mem _ hmem)),
      hstep.assets]

lemma Deleted.cons_asset (hp : f.path ∉ tree.files)
    (h : Deleted tree delete { doc with assets := doc.assets.erase f.path } doc'') :
    Deleted tree (f :: delete) doc doc'' := by
  have hgone : ∀ j, Gone tree (f :: delete) doc j ↔
      Gone tree delete { doc with assets := doc.assets.erase f.path } j :=
    gone_cons_asset hp rfl
  refine ⟨h.holders, fun j hj => h.pathOf j (hgone j |>.not.1 hj),
    fun j hj => h.textById j (hgone j |>.not.1 hj), fun j hj => h.gone j ((hgone j).1 hj),
    fun q hq hmem => ?_, fun q hq => ?_, h.files, h.paths⟩
  · by_cases hlater : q ∈ delete.map (·.path)
    · exact h.removed q hq hlater
    · rw [h.assets q (.inr hlater), (mem_cons.1 hmem).resolve_right hlater]
      exact Finmap.lookup_erase _ _
  · rw [h.assets q (hq.imp_right fun hno hmem => hno (mem_cons_of_mem _ hmem))]
    refine Finmap.lookup_erase_ne fun hno => ?_
    rcases hq with hq | hq
    · exact hp (hno ▸ hq)
    · exact hq (hno ▸ mem_cons_self)

lemma deleted_of_foldlM (h : delete.foldlM (deleteFile tree) doc = .ok doc') :
    Deleted tree delete doc doc' := by
  induction delete generalizing doc with
  | nil =>
    cases h
    exact ⟨fun _ _ => rfl, fun _ _ => rfl, fun _ _ => rfl, fun j hj => absurd hj (not_gone_nil j),
      nofun, fun _ _ => rfl, fun _ => id, fun _ => id⟩
  | cons f delete ih =>
    rw [foldlM_cons] at h
    obtain ⟨doc₁, hstep, h⟩ := bind_ok h
    rcases deleteFile_ok hstep with ⟨hp, id, ids, hremoved⟩ | ⟨hp, -, rfl⟩
    · exact (ih h).cons_text hp hremoved
    · exact (ih h).cons_asset hp

lemma deletable_cons_text (hp : f.path ∈ tree.files) (hstep : Removed f.path id ids doc doc') :
    Deletable tree (f :: delete) doc ↔ Deletable tree delete doc' := by
  have hlength : ∀ path, deletions (f :: delete) path ≤ (doc.holders path).length ↔
      deletions delete path ≤ (doc'.holders path).length := by
    intro path
    rw [deletions_cons]
    by_cases hpath : f.path = path
    · subst hpath
      rw [if_pos rfl, hstep.here, hstep.left, length_cons, Nat.add_le_add_iff_right]
    · rw [if_neg hpath, Nat.add_zero, hstep.others path (Ne.symm hpath)]
  constructor
  · intro h path hpath
    obtain ⟨hin, hout⟩ := h path (mem_cons_of_mem _ hpath)
    refine ⟨fun hfile => (hlength path).1 (hin hfile), fun hfile => ?_⟩
    have hne : f.path ≠ path := fun hno => hfile (hno ▸ hp)
    rw [deletions_cons, if_neg hne, Nat.add_zero] at hout
    rw [hstep.assets]
    exact hout hfile
  · intro h path hpath
    refine ⟨fun hfile => (hlength path).2 ?_, fun hfile => ?_⟩
    · by_cases hlater : path ∈ delete.map (·.path)
      · exact (h path hlater).1 hfile
      · rw [← deletions_pos, not_lt, Nat.le_zero] at hlater
        rw [hlater]
        exact Nat.zero_le _
    · have hne : f.path ≠ path := fun hno => hfile (hno ▸ hp)
      have hlater := (mem_cons.1 hpath).resolve_left (Ne.symm hne)
      rw [deletions_cons, if_neg hne, Nat.add_zero, ← hstep.assets]
      exact (h path hlater).2 hfile

lemma deletable_cons_asset (hp : f.path ∉ tree.files) (hin : f.path ∈ doc.assets) :
    Deletable tree (f :: delete) doc ↔
      Deletable tree delete { doc with assets := doc.assets.erase f.path } := by
  have hcount : ∀ path, f.path ≠ path → deletions (f :: delete) path = deletions delete path :=
    fun path hne => by rw [deletions_cons, if_neg hne, Nat.add_zero]
  constructor
  · intro h path hpath
    obtain ⟨hfiles, hassets⟩ := h path (mem_cons_of_mem _ hpath)
    have hne : path ∉ tree.files → f.path ≠ path := by
      rintro hfile rfl
      have hone := (hassets hfile).2
      rw [deletions_cons, if_pos rfl] at hone
      exact absurd (deletions_pos.2 hpath) (by omega)
    refine ⟨fun hfile => ?_, fun hfile => ⟨?_, ?_⟩⟩
    · rw [hcount path fun hno => hp (hno ▸ hfile)] at hfiles
      exact hfiles hfile
    · exact Finmap.mem_erase.2 ⟨(hne hfile).symm, (hassets hfile).1⟩
    · rw [← hcount path (hne hfile)]
      exact (hassets hfile).2
  · intro h path hpath
    by_cases hne : f.path = path
    · subst hne
      refine ⟨fun hfile => absurd hfile hp, fun _ => ⟨hin, ?_⟩⟩
      rw [deletions_cons, if_pos rfl]
      by_contra hmore
      have hlater : f.path ∈ delete.map (·.path) := deletions_pos.1 (by omega)
      exact Finmap.notMem_erase_self ((h f.path hlater).2 hp).1
    · have hlater := (mem_cons.1 hpath).resolve_left (Ne.symm hne)
      obtain ⟨hfiles, hassets⟩ := h path hlater
      rw [hcount path hne]
      exact ⟨hfiles, fun hfile => ⟨(Finmap.mem_erase.1 (hassets hfile).1).2, (hassets hfile).2⟩⟩

lemma deleteFile_of_deletable (h : Deletable tree (f :: delete) doc) :
    ∃ doc', deleteFile tree doc f = .ok doc' := by
  obtain ⟨hfiles, hassets⟩ := h f.path mem_cons_self
  unfold deleteFile
  by_cases hp : f.path ∈ tree.files
  · have hlength := hfiles hp
    rw [deletions_cons, if_pos rfl] at hlength
    rw [if_pos hp]
    unfold Document.removePath Document.idByPath
    cases hids : doc.holders f.path with
    | nil =>
      rw [hids, length_nil] at hlength
      omega
    | cons id ids => exact ⟨_, rfl⟩
  · rw [if_neg hp]
    unfold Document.removeAsset
    rw [if_pos (hassets hp).1]
    exact ⟨_, rfl⟩

/-- A run of deletions succeeds exactly when it finds every file. -/
lemma deletes_ok_iff : (∃ doc', delete.foldlM (deleteFile tree) doc = .ok doc') ↔
    Deletable tree delete doc := by
  induction delete generalizing doc with
  | nil => exact iff_of_true ⟨doc, rfl⟩ nofun
  | cons f delete ih =>
    rw [foldlM_cons]
    constructor
    · rintro ⟨doc', h⟩
      obtain ⟨doc₁, hstep, h⟩ := bind_ok h
      have hrest := ih.1 ⟨doc', h⟩
      rcases deleteFile_ok hstep with ⟨hp, id, ids, hremoved⟩ | ⟨hp, hin, rfl⟩
      · exact (deletable_cons_text hp hremoved).2 hrest
      · exact (deletable_cons_asset hp hin).2 hrest
    · intro h
      obtain ⟨doc₁, hstep⟩ := deleteFile_of_deletable h
      rw [hstep]
      refine ih.2 ?_
      rcases deleteFile_ok hstep with ⟨hp, id, ids, hremoved⟩ | ⟨hp, hin, rfl⟩
      · exact (deletable_cons_text hp hremoved).1 h
      · exact (deletable_cons_asset hp hin).1 h

end Delete

section Create
variable {mint : ℕ → Path} {doc : Document} {k : ℕ} {f : CreateFile}

/-- The ids that are still to be minted are not in the document. -/
def Fresh (mint : ℕ → Path) (doc : Document) (k : ℕ) : Prop :=
  ∀ j, k ≤ j → mint j ∉ doc.files ∧ mint j ∉ doc.paths

/-- Only what is no text may stand under a path. -/
def Document.Textless (doc : Document) (path : Path) : Prop :=
  ∀ id, doc.pathOf id = some path → doc.textById id = none

lemma putText_filed (hno : ¬ doc.Unfiled f.path) (htext : doc.Textless f.path) :
    Document.putText mint (doc, k) f.path f.text = (doc, k) := by
  unfold Document.putText Document.idByPath
  cases hids : doc.holders f.path with
  | nil => exact absurd (holders_eq_nil.1 hids) hno
  | cons id ids =>
    have hid : doc.pathOf id = some f.path := mem_holders.1 (hids ▸ mem_cons_self)
    dsimp only [head?_cons]
    rw [htext id hid]
    rfl

lemma putText_unfiled (h : doc.Unfiled f.path) :
    Document.putText mint (doc, k) f.path f.text = ({ doc with
      files := doc.files.insert (mint k) (.text (normaliseEndings f.text))
      paths := doc.paths.insert (mint k) (.string f.path) }, k + 1) := by
  unfold Document.putText Document.idByPath
  rw [holders_eq_nil.2 h]
  rfl

section Unfiled
variable (doc f) (id : Path)

lemma pathOf_put (j : Path) : ({ doc with
    files := doc.files.insert id (.text (normaliseEndings f.text))
    paths := doc.paths.insert id (.string f.path) } : Document).pathOf j =
      if j = id then some f.path else doc.pathOf j := by
  unfold Document.pathOf
  split_ifs with h
  · rw [h, Finmap.lookup_insert]
  · dsimp only
    rw [Finmap.lookup_insert_of_ne _ h]

lemma textById_put (j : Path) : ({ doc with
    files := doc.files.insert id (.text (normaliseEndings f.text))
    paths := doc.paths.insert id (.string f.path) } : Document).textById j =
      if j = id then some (normaliseEndings f.text) else doc.textById j := by
  unfold Document.textById
  split_ifs with h
  · rw [h, Finmap.lookup_insert]
  · dsimp only
    rw [Finmap.lookup_insert_of_ne _ h]

end Unfiled

/-- What new texts leave of a document, path by path. -/
structure Created (create : List CreateFile) (doc doc' : Document) : Prop where
  assets : doc'.assets = doc.assets
  others : ∀ path, path ∉ create.map (·.path) → ∀ id body,
    doc'.Named id path body ↔ doc.Named id path body
  created : ∀ f ∈ create, doc.Unfiled f.path → ∃ id, ∀ j body,
    doc'.Named j f.path body ↔ j = id ∧ body = normaliseEndings f.text
  filed : ∀ f ∈ create, ¬ doc.Unfiled f.path → ∀ id body, ¬ doc'.Named id f.path body

variable {create : List CreateFile}

lemma Created.cons_filed (hpath : f.path ∉ create.map (·.path)) (hno : ¬ doc.Unfiled f.path)
    (htext : doc.Textless f.path) (h : Created create doc doc') :
    Created (f :: create) doc doc' := by
  refine ⟨h.assets, fun path hp => h.others path fun hin => hp (mem_cons_of_mem _ hin),
    fun g hg hfree => ?_, fun g hg hfiled => ?_⟩
  · rcases mem_cons.1 hg with rfl | hg
    · exact absurd hfree hno
    · exact h.created g hg hfree
  · rcases mem_cons.1 hg with rfl | hg
    · intro id body hnamed
      obtain ⟨hbody, hid⟩ := (h.others g.path hpath id body).1 hnamed
      rw [htext id hid] at hbody
      cases hbody
    · exact h.filed g hg hfiled

lemma Created.cons_unfiled (hpath : f.path ∉ create.map (·.path)) (hfresh : id ∉ doc.paths)
    (hfree : doc.Unfiled f.path) (h : Created create { doc with
      files := doc.files.insert id (.text (normaliseEndings f.text))
      paths := doc.paths.insert id (.string f.path) } doc') : Created (f :: create) doc doc' := by
  have hold : ∀ j path, doc.pathOf j = some path → j ≠ id := by
    rintro j path hj rfl
    exact hfresh (mem_paths hj)
  have hfiled : ∀ path, path ≠ f.path → (({ doc with
      files := doc.files.insert id (.text (normaliseEndings f.text))
      paths := doc.paths.insert id (.string f.path) } : Document).Unfiled path ↔
        doc.Unfiled path) := by
    intro path hp
    refine forall_congr' fun j => ?_
    rw [pathOf_put]
    split_ifs with hj
    · refine iff_of_true (fun hno => hp (Option.some.inj hno).symm) fun hno => ?_
      exact hold j path hno hj
    · rfl
  have hne : ∀ g ∈ create, g.path ≠ f.path := by
    intro g hg hno
    exact hpath (hno ▸ mem_map_of_mem hg)
  refine ⟨h.assets, fun path hp j body => ?_, fun g hg hunfiled => ?_, fun g hg hno => ?_⟩
  · rw [map_cons, mem_cons, not_or] at hp
    rw [h.others path hp.2]
    unfold Document.Named
    rw [textById_put, pathOf_put]
    split_ifs with hj
    · refine iff_of_false (fun hno => hp.1 (Option.some.inj hno.2).symm) fun hno => ?_
      exact hold j path hno.2 hj
    · rfl
  · rcases mem_cons.1 hg with rfl | hg
    · refine ⟨id, fun j body => ?_⟩
      rw [h.others g.path hpath]
      unfold Document.Named
      rw [textById_put, pathOf_put]
      split_ifs with hj
      · rw [Option.some.injEq]
        exact ⟨fun hno => ⟨hj, hno.1.symm⟩, fun hno => ⟨hno.2.symm, rfl⟩⟩
      · exact iff_of_false (fun hno => hunfiled j hno.2) fun hno => hj hno.1
    · exact h.created g hg ((hfiled g.path (hne g hg)).2 hunfiled)
  · rcases mem_cons.1 hg with rfl | hg
    · exact absurd hfree hno
    · exact h.filed g hg ((hfiled g.path (hne g hg)).not.2 hno)

/-- New texts at paths where no text is, each at its own. -/
lemma creates_ok (hmint : mint.Injective) (hfresh : Fresh mint doc k)
    (hpaths : (create.map (·.path)).Nodup) (htext : ∀ f ∈ create, doc.Textless f.path) :
    Created create doc
      (create.foldl (fun s f => Document.putText mint s f.path f.text) (doc, k)).1 := by
  induction create generalizing doc k with
  | nil => exact ⟨rfl, fun _ _ _ _ => Iff.rfl, nofun, nofun⟩
  | cons f create ih =>
    rw [map_cons, nodup_cons] at hpaths
    rw [foldl_cons]
    by_cases hfree : doc.Unfiled f.path
    · rw [putText_unfiled hfree]
      refine Created.cons_unfiled hpaths.1 (hfresh k le_rfl).2 hfree (ih ?_ hpaths.2 ?_)
      · intro j hj
        have hne : mint j ≠ mint k := fun hno => absurd (hmint hno) (by omega)
        obtain ⟨hfiles, hids⟩ := hfresh j (by omega)
        exact ⟨fun hin => (Finmap.mem_insert.1 hin).elim hne hfiles,
          fun hin => (Finmap.mem_insert.1 hin).elim hne hids⟩
      · intro g hg id hid
        rw [pathOf_put] at hid
        rw [textById_put]
        split_ifs at hid ⊢ with hj
        · exact absurd (Option.some.inj hid ▸ mem_map_of_mem hg) hpaths.1
        · exact htext g (mem_cons_of_mem _ hg) id hid
    · have hf := htext f mem_cons_self
      rw [putText_filed hfree hf]
      exact Created.cons_filed hpaths.1 hfree hf
        (ih hfresh hpaths.2 fun g hg => htext g (mem_cons_of_mem _ hg))

end Create

lemma digestAt_putAsset {q : Path} (h : digestOk digest = true) :
    (doc.putAsset path digest).digestAt q = if q = path then some digest else doc.digestAt q := by
  unfold Document.putAsset Document.digestAt
  split_ifs with hq
  · rw [hq, Finmap.lookup_insert]
    unfold digestOk at h
    rw [Bool.and_eq_true, decide_eq_true_iff, all_eq_true] at h
    refine if_pos ⟨h.1, all_eq_true.2 fun c hc => ?_⟩
    rw [h.2 c hc, Bool.true_or]
  · dsimp only
    rw [Finmap.lookup_insert_of_ne _ hq]

/-- What binaries leave of a document. -/
structure PutAll (put : List PutBinary) (doc doc' : Document) : Prop where
  files : doc'.files = doc.files
  paths : doc'.paths = doc.paths
  others : ∀ q, q ∉ put.map (·.path) → doc'.digestAt q = doc.digestAt q
  here : ∀ q, q ∈ put.map (·.path) →
    ∃ f ∈ put, f.path = q ∧ doc'.digestAt q = some f.hash

/-- Binaries are named at their paths, the last one of each path. -/
lemma puts_ok {put : List PutBinary} (doc : Document) (h : ∀ f ∈ put, digestOk f.hash = true) :
    PutAll put doc (put.foldl (fun doc f => doc.putAsset f.path f.hash) doc) := by
  induction put generalizing doc with
  | nil => exact ⟨rfl, rfl, fun _ _ => rfl, nofun⟩
  | cons f put ih =>
    have hf : ∀ q, (doc.putAsset f.path f.hash).digestAt q =
        if q = f.path then some f.hash else doc.digestAt q :=
      fun q => digestAt_putAsset (h f mem_cons_self)
    have hput : PutAll put (doc.putAsset f.path f.hash) _ :=
      ih _ fun g hg => h g (mem_cons_of_mem _ hg)
    refine ⟨hput.files, hput.paths, fun q hq => ?_, fun q hq => ?_⟩
    · rw [map_cons, mem_cons, not_or] at hq
      rw [foldl_cons, hput.others q hq.2, hf, if_neg hq.1]
    · rw [foldl_cons]
      by_cases hlater : q ∈ put.map (·.path)
      · obtain ⟨g, hg, hpath, hdigest⟩ := hput.here q hlater
        exact ⟨g, mem_cons_of_mem _ hg, hpath, hdigest⟩
      · obtain rfl := (mem_cons.1 hq).resolve_right hlater
        refine ⟨f, mem_cons_self, rfl, ?_⟩
        rw [hput.others _ hlater, hf, if_pos rfl]

end LibrePaper.Source
