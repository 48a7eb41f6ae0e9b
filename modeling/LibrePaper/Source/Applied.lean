import LibrePaper.Source.Placement
import LibrePaper.Source.Stages

/-!
# The document after an accepted change

The tree that a settled document reads as, and what is left of the document when a change is
applied that was accepted against it.
-/
namespace LibrePaper.Source
open Library Anchors List

section Reads
variable {u : Unicode} {rules : Rules} {doc : Document} {tree : SourceTree}

variable {id path : Path} {body : List Char}

lemma text_mem_iff :
    .text id path body ∈ candidates u rules doc ↔
      doc.Named id path body ∧ admission u rules path = .ok .text := by
  rw [text_mem_candidates]
  exact and_assoc.symm

lemma Document.Named.unique {path' : Path} {body' : List Char} (h : doc.Named id path body)
    (h' : doc.Named id path' body') : path = path' ∧ body = body' :=
  ⟨Option.some.inj (h.2.symm.trans h'.2), Option.some.inj (h.1.symm.trans h'.1)⟩

/-- A tree holds what a document asks for, each at its path, and no two ask for one. -/
structure Reads (u : Unicode) (rules : Rules) (doc : Document) (tree : SourceTree) : Prop where
  files : ∀ path file, tree.files.lookup path = some file ↔
    ∃ raw, doc.Named file.fileId raw file.text ∧ normalise u raw = path ∧
      admission u rules raw = .ok .text
  assets : ∀ path digest, tree.assets.lookup path = some digest ↔
    ∃ raw, doc.digestAt raw = some digest ∧ normalise u raw = path ∧
      admission u rules raw = .ok .asset
  beside : ∀ c ∈ candidates u rules doc, ∀ d ∈ candidates u rules doc, c ≠ d → Beside u c d

lemma reads_of_settled {hash : List Char → String} (h : Settled (project u rules doc hash))
    (revision : String) : Reads u rules doc (treeOf (project u rules doc hash) revision) := by
  refine ⟨fun path file => ?_, fun path digest => ?_, settled_iff_beside.1 h⟩
  · rw [lookup_tree_files h]
    refine exists_congr fun raw => ?_
    rw [text_mem_iff, and_assoc, and_comm (a := normalise u raw = path)]
  · rw [lookup_tree_assets h]
    refine exists_congr fun raw => ?_
    rw [asset_mem_candidates, and_assoc, and_comm (a := normalise u raw = path)]

variable (h : Reads u rules doc tree)
include h

lemma Reads.stored (hpath : path ∈ tree.files ∨ path ∈ tree.assets) :
    normalise u path = path := by
  rcases hpath with hpath | hpath
  · obtain ⟨file, hfile⟩ := Finmap.mem_iff.1 hpath
    obtain ⟨raw, -, rfl, -⟩ := (h.files _ _).1 hfile
    exact normalise_normalise u raw
  · obtain ⟨digest, hdigest⟩ := Finmap.mem_iff.1 hpath
    obtain ⟨raw, -, rfl, -⟩ := (h.assets _ _).1 hdigest
    exact normalise_normalise u raw

lemma Reads.text (hpath : path ∈ tree.files) : admission u rules path = .ok .text := by
  obtain ⟨file, hfile⟩ := Finmap.mem_iff.1 hpath
  obtain ⟨raw, -, rfl, hok⟩ := (h.files _ _).1 hfile
  rwa [admission_normalise]

lemma Reads.binary (hpath : path ∈ tree.assets) : admission u rules path = .ok .asset := by
  obtain ⟨digest, hdigest⟩ := Finmap.mem_iff.1 hpath
  obtain ⟨raw, -, rfl, hok⟩ := (h.assets _ _).1 hdigest
  rwa [admission_normalise]

lemma Reads.kind (hpath : path ∈ tree.files) : path ∉ tree.assets := by
  intro hasset
  have hkind := (h.text hpath).symm.trans (h.binary hasset)
  cases Except.ok.inj hkind

lemma Reads.id_inj {p q : Path} {file file' : SourceFile}
    (hp : tree.files.lookup p = some file) (hq : tree.files.lookup q = some file')
    (hid : file.fileId = file'.fileId) : p = q := by
  obtain ⟨raw, hnamed, rfl, -⟩ := (h.files _ _).1 hp
  obtain ⟨raw', hnamed', rfl, -⟩ := (h.files _ _).1 hq
  rw [hid] at hnamed
  rw [(hnamed.unique hnamed').1]

/-- Two assets do not ask for one path. -/
lemma Reads.asset_inj {raw raw' : Path} {digest digest' : String}
    (hraw : doc.digestAt raw = some digest) (hok : admission u rules raw = .ok .asset)
    (hraw' : doc.digestAt raw' = some digest') (hname : normalise u raw = normalise u raw') :
    raw = raw' := by
  have hok' : admission u rules raw' = .ok .asset := by
    rw [← admission_normalise, ← hname, admission_normalise, hok]
  have hc := asset_mem_candidates.2 ⟨hraw, hok⟩
  have hd := asset_mem_candidates.2 ⟨hraw', hok'⟩
  by_contra hne
  refine (h.beside _ hc _ hd ?_).name_ne hname
  intro hno
  exact hne (Candidate.asset.inj hno).1

end Reads

lemma mapM_ok {α β ε : Type} {f : α → Except ε β} {g : α → β} {items : List α}
    (h : ∀ a ∈ items, f a = .ok (g a)) : items.mapM f = .ok (items.map g) := by
  induction items with
  | nil => rfl
  | cons a items ih =>
    rw [mapM_cons, h a mem_cons_self, ih fun c hc => h c (mem_cons_of_mem _ hc)]
    rfl

variable {change : SourceChange} {path id : Path} {tree : SourceTree} {delete : List DeleteFile}
  {doc doc' : Document} {body : List Char}

lemma mem_patchesOf {p : Patch} :
    p ∈ patchesOf change path ↔ p ∈ change.patches ∧ p.path = path := by
  unfold patchesOf
  rw [mem_sortByKey, mem_filter, decide_eq_true_iff]

lemma mem_patchedPaths : path ∈ patchedPaths change ↔ ∃ p ∈ change.patches, p.path = path := by
  unfold patchedPaths
  rw [mem_sortByKey, mem_dedup, mem_map]

lemma patchedPaths_nodup (change : SourceChange) : (patchedPaths change).Nodup := by
  unfold patchedPaths
  exact (sortByKey_perm _ _).nodup_iff.2 (nodup_dedup _)

section Accepted
variable {u : Unicode} {rules : Rules} {maxFiles : ℕ} {tree : SourceTree}
  {change : SourceChange} (h : Accepted u rules maxFiles tree change)
include h

/-- The patches of one file become edits of its text. -/
lemma fileEdits_ok (hpath : path ∈ patchedPaths change) :
    ∃ file edits out, tree.files.lookup path = some file ∧
      fileEdits tree change path = .ok (path, file.fileId, edits) ∧
      untrackedText file.text edits = some out ∧
      Replaced 0 file.text (patchesOf change path) out := by
  obtain ⟨p, hp, rfl⟩ := mem_patchedPaths.1 hpath
  obtain ⟨file, hfile⟩ := h.patches p hp
  have hreads : ∀ q ∈ patchesOf change p.path,
      rangeMatches file.text q.start q.stop q.captured = true := by
    intro q hq
    obtain ⟨hq, hsame⟩ := mem_patchesOf.1 hq
    obtain ⟨file', hfile'⟩ := h.patches q hq
    have hfiles := hsame ▸ hfile'.present
    rw [Option.some.inj (hfile.present.symm.trans hfiles)]
    exact hfile'.reads
  have hasc : Ascends 0 ((patchesOf change p.path).map fun q => (q.start, q.stop)) := by
    have hsorted : (patchesOf change p.path).map (fun q => (q.start, q.stop)) =
        sortByKey (fun r : ℕ × ℕ => toLex r)
          ((change.patches.filter fun q => q.path = p.path).map fun q => (q.start, q.stop)) :=
      map_insertionSort _ _ _ _ fun _ _ _ _ => Iff.rfl
    have hconflict : anyConflict agentPatch
        ((patchesOf change p.path).map fun q => (q.start, q.stop)) = false := by
      rw [hsorted]
      exact h.overlaps p hp
    refine ascends_of_anyConflict hconflict (fun r hr => ?_) fun r _ => Nat.zero_le _
    obtain ⟨q, hq, rfl⟩ := mem_map.1 hr
    obtain ⟨front, rest, -, hfront, hstop⟩ := rangeMatches_split (hreads q hq)
    dsimp only
    omega
  obtain ⟨edits, out, hedits, hout, hreplaced⟩ := patches_land p.path hreads hasc
  refine ⟨file, edits, out, hfile.present, ?_, hout, hreplaced⟩
  unfold fileEdits
  rw [hfile.present]
  dsimp only
  rw [hedits]
  rfl

end Accepted

/-- What the patches of a change leave of a document. -/
structure Patched (tree : SourceTree) (change : SourceChange) (doc doc' : Document) : Prop where
  edited : Edited doc doc'
  patched : ∀ p ∈ change.patches, ∃ file out, tree.files.lookup p.path = some file ∧
    Replaced 0 file.text (patchesOf change p.path) out ∧ doc'.textById file.fileId = some out
  others : ∀ id, (∀ p ∈ change.patches, ∀ file, tree.files.lookup p.path = some file →
    file.fileId ≠ id) → doc'.textById id = doc.textById id

section Stages
variable {u : Unicode} {rules : Rules} {maxFiles : ℕ} {doc : Document} {tree : SourceTree}
  {change : SourceChange} (hread : Reads u rules doc tree)
  (h : Accepted u rules maxFiles tree change)
include hread h

lemma patches_ok : ∃ files doc',
    (patchedPaths change).mapM (fileEdits tree change) = .ok files ∧
      files.foldlM editFile doc = .ok doc' ∧ Patched tree change doc doc' := by
  set found : Path → Path × Path × List Edit :=
    fun path => (fileEdits tree change path).toOption.getD (path, [], []) with hfound
  have hok : ∀ path ∈ patchedPaths change, ∃ file out, tree.files.lookup path = some file ∧
      fileEdits tree change path = .ok (found path) ∧ (found path).2.1 = file.fileId ∧
      doc.textById file.fileId = some file.text ∧
      untrackedText file.text (found path).2.2 = some out ∧
      Replaced 0 file.text (patchesOf change path) out := by
    intro path hpath
    obtain ⟨file, edits, out, hfile, hedits, hout, hreplaced⟩ := fileEdits_ok h hpath
    have hsame : found path = (path, file.fileId, edits) := by
      rw [hfound]
      dsimp only
      rw [hedits]
      rfl
    obtain ⟨raw, hnamed, -, -⟩ := (hread.files _ _).1 hfile
    rw [hsame]
    exact ⟨file, out, hfile, hedits, rfl, hnamed.1, hout, hreplaced⟩
  have hids : (((patchedPaths change).map found).map (·.2.1)).Nodup := by
    rw [map_map]
    refine Nodup.map_on (fun p hp q hq heq => ?_) (patchedPaths_nodup change)
    obtain ⟨file, out, hfile, -, hid, -⟩ := hok p hp
    obtain ⟨file', out', hfile', -, hid', -⟩ := hok q hq
    exact hread.id_inj hfile hfile' (hid.symm.trans (heq.trans hid'))
  obtain ⟨doc', hdoc', hin, hout⟩ := editFiles_ok doc hids fun f hf => by
    obtain ⟨path, hpath, rfl⟩ := mem_map.1 hf
    obtain ⟨file, out, -, -, hid, htext, hout, -⟩ := hok path hpath
    rw [hid, htext]
    exact ⟨out, hout⟩
  refine ⟨_, doc', mapM_ok fun path hpath => ?_, hdoc', edited_of_foldlM hdoc', fun p hp => ?_,
    fun id hid => ?_⟩
  · obtain ⟨file, out, -, hedits, -⟩ := hok path hpath
    exact hedits
  · have hpath := mem_patchedPaths.2 ⟨p, hp, rfl⟩
    obtain ⟨file, out, hfile, -, hsame, htext, hout', hreplaced⟩ := hok p.path hpath
    refine ⟨file, out, hfile, hreplaced, ?_⟩
    have hpatched := hin _ (mem_map_of_mem hpath)
    rw [hsame, htext] at hpatched
    exact hpatched.trans hout'
  · refine hout id fun hmem => ?_
    obtain ⟨f, hf, rfl⟩ := mem_map.1 hmem
    obtain ⟨path, hpath, rfl⟩ := mem_map.1 hf
    obtain ⟨p, hp, rfl⟩ := mem_patchedPaths.1 hpath
    obtain ⟨file, out, hfile, -, hsame, -⟩ := hok p.path hpath
    exact hid p hp file hfile hsame.symm

end Stages

lemma Edited.gone_iff (h : Edited doc doc') (id : Path) :
    Gone tree delete doc' id ↔ Gone tree delete doc id := by
  unfold Gone
  simp only [holders_congr h.paths]

lemma Edited.deletable_iff (h : Edited doc doc') :
    Deletable tree delete doc' ↔ Deletable tree delete doc := by
  unfold Deletable
  simp only [holders_congr h.paths, h.assets]

lemma Edited.named (h : Edited doc doc') (hnamed : doc'.Named id path body) :
    ∃ old, doc.Named id path old := by
  have htext := h.texts id
  rw [hnamed.1, Option.isSome_some] at htext
  obtain ⟨old, hold⟩ := Option.isSome_iff_exists.1 htext.symm
  exact ⟨old, hold, (pathOf_congr h.paths id).symm.trans hnamed.2⟩

lemma Edited.named_of (h : Edited doc doc') (hnamed : doc.Named id path body) :
    ∃ new, doc'.Named id path new := by
  have htext := h.texts id
  rw [hnamed.1, Option.isSome_some] at htext
  obtain ⟨new, hnew⟩ := Option.isSome_iff_exists.1 htext
  exact ⟨new, hnew, (pathOf_congr h.paths id).trans hnamed.2⟩

lemma Deleted.named_iff (h : Deleted tree delete doc doc') (id path : Path) (body : List Char) :
    doc'.Named id path body ↔ ¬ Gone tree delete doc id ∧ doc.Named id path body := by
  by_cases hgone : Gone tree delete doc id
  · refine iff_of_false (fun hnamed => ?_) fun hno => hno.1 hgone
    exact absurd (hnamed.1.symm.trans (h.gone id hgone)) nofun
  · unfold Document.Named
    rw [h.textById id hgone, h.pathOf id hgone]
    exact ⟨fun hnamed => ⟨hgone, hnamed⟩, And.right⟩

/-- What an accepted change leaves of the document. -/
structure Applied (tree : SourceTree) (change : SourceChange) (doc edited doc' : Document) :
    Prop where
  patched : Patched tree change doc edited
  named : ∀ path, path ∉ change.create.map (·.path) → ∀ id body, doc'.Named id path body ↔
    ¬ Gone tree change.delete doc id ∧ edited.Named id path body
  created : ∀ f ∈ change.create, doc.Unfiled f.path → ∃ id, ∀ j body,
    doc'.Named j f.path body ↔ j = id ∧ body = normaliseEndings f.text
  filed : ∀ f ∈ change.create, ¬ doc.Unfiled f.path → ∀ id body, ¬ doc'.Named id f.path body
  put : ∀ q, q ∈ change.putBinary.map (·.path) →
    ∃ f ∈ change.putBinary, f.path = q ∧ doc'.digestAt q = some f.hash
  removed : ∀ q, q ∉ change.putBinary.map (·.path) → q ∉ tree.files →
    q ∈ change.delete.map (·.path) → doc'.digestAt q = none
  kept : ∀ q, q ∉ change.putBinary.map (·.path) →
    q ∈ tree.files ∨ q ∉ change.delete.map (·.path) → doc'.digestAt q = doc.digestAt q

/-- A change is applied when its patches and its deletions are. -/
lemma applyPatchEdits_ok {mint : ℕ → Path} : applyPatchEdits mint doc tree change = .ok doc' ↔
      ∃ files edited deleted, (patchedPaths change).mapM (fileEdits tree change) = .ok files ∧
        files.foldlM editFile doc = .ok edited ∧
        change.delete.foldlM (deleteFile tree) edited = .ok deleted ∧
        doc' = change.putBinary.foldl (fun doc f => doc.putAsset f.path f.hash)
          (change.create.foldl (fun s f => Document.putText mint s f.path f.text)
            (deleted, 0)).1 := by
  unfold applyPatchEdits
  constructor
  · intro h
    obtain ⟨files, hfiles, h⟩ := bind_ok h
    obtain ⟨edited, hedited, h⟩ := bind_ok h
    obtain ⟨deleted, hdeleted, h⟩ := bind_ok h
    exact ⟨files, edited, deleted, hfiles, hedited, hdeleted, (Except.ok.inj h).symm⟩
  · rintro ⟨files, edited, deleted, hfiles, hedited, hdeleted, rfl⟩
    simp only [hfiles, hedited, hdeleted, bind, Except.bind, pure, Except.pure]

section Apply
variable {u : Unicode} {rules : Rules} {maxFiles : ℕ} {doc doc' : Document} {tree : SourceTree}
  {change : SourceChange} {mint : ℕ → Path} (hread : Reads u rules doc tree)
  (h : Accepted u rules maxFiles tree change)
include hread h

/-- An accepted change is applied exactly when every deletion finds its file. -/
lemma apply_ok_iff : (∃ doc', applyPatchEdits mint doc tree change = .ok doc') ↔
    Deletable tree change.delete doc := by
  obtain ⟨files, edited, hfiles, hedited, hpatched⟩ := patches_ok hread h
  rw [← hpatched.edited.deletable_iff, ← deletes_ok_iff]
  constructor
  · rintro ⟨doc', hok⟩
    obtain ⟨files', edited', deleted, hfiles', hedited', hdeleted, -⟩ := applyPatchEdits_ok.1 hok
    obtain rfl := Except.ok.inj (hfiles.symm.trans hfiles')
    obtain rfl := Except.ok.inj (hedited.symm.trans hedited')
    exact ⟨deleted, hdeleted⟩
  · rintro ⟨deleted, hdeleted⟩
    exact ⟨_, applyPatchEdits_ok.2 ⟨files, edited, deleted, hfiles, hedited, hdeleted, rfl⟩⟩

/-- No text stands under a path that an accepted change creates. -/
lemma create_textless {f : CreateFile} (hf : f ∈ change.create) : doc.Textless f.path := by
  intro id hid
  obtain ⟨hstored, hok, hfile, -⟩ := h.operations.creates f hf
  by_contra htext
  obtain ⟨body, hbody⟩ := Option.ne_none_iff_exists'.1 htext
  refine hfile (Finmap.mem_of_lookup_eq_some ((hread.files f.path ⟨id, body⟩).2 ?_))
  exact ⟨f.path, ⟨hbody, hid⟩, hstored, hok⟩

omit hread in
lemma create_paths_nodup : (change.create.map (·.path)).Nodup := by
  have hkeys := h.operations.keys
  unfold addedPaths at hkeys
  rw [map_append, nodup_append] at hkeys
  exact Nodup.of_map _ hkeys.1

lemma applied_of_ok (hmint : mint.Injective) (hfresh : Fresh mint doc 0)
    (hok : applyPatchEdits mint doc tree change = .ok doc') :
    ∃ edited, Applied tree change doc edited doc' := by
  obtain ⟨files, edited, hfiles, hedited, hpatched⟩ := patches_ok hread h
  obtain ⟨files', edited', deleted, hfiles', hedited', hdelete, rfl⟩ := applyPatchEdits_ok.1 hok
  obtain rfl := Except.ok.inj (hfiles.symm.trans hfiles')
  obtain rfl := Except.ok.inj (hedited.symm.trans hedited')
  have hdeleted := deleted_of_foldlM hdelete
  have hunfiled : ∀ f ∈ change.create, (deleted.Unfiled f.path ↔ doc.Unfiled f.path) := by
    intro f hf
    rw [← holders_eq_nil, ← holders_eq_nil,
      hdeleted.holders _ (h.operations.creates f hf).noFile, holders_congr hpatched.edited.paths]
  have htextless : ∀ f ∈ change.create, deleted.Textless f.path := by
    intro f hf id hid
    by_contra htext
    obtain ⟨body, hbody⟩ := Option.ne_none_iff_exists'.1 htext
    have hnamed := (hdeleted.named_iff id f.path body).1 ⟨hbody, hid⟩
    obtain ⟨old, hold⟩ := hpatched.edited.named hnamed.2
    exact absurd (hold.1.symm.trans (create_textless hread h hf id hold.2)) nofun
  have hminted : Fresh mint deleted 0 := by
    intro j hj
    obtain ⟨hin, hids⟩ := hfresh j hj
    refine ⟨fun hmem => hin (hpatched.edited.files _ (hdeleted.files _ hmem)), fun hmem => ?_⟩
    have hmem := hdeleted.paths _ hmem
    rw [hpatched.edited.paths] at hmem
    exact hids hmem
  have hcreated := creates_ok hmint hminted (create_paths_nodup h) htextless
  set created := (change.create.foldl (fun s f => Document.putText mint s f.path f.text)
    (deleted, 0)).1
  have hput := puts_ok created fun f hf => (h.operations.puts f hf).digest
  set final := change.putBinary.foldl (fun doc f => doc.putAsset f.path f.hash) created
  have hnamed : ∀ id path body, final.Named id path body ↔ created.Named id path body := by
    intro id path body
    unfold Document.Named
    rw [textById_congr (congrArg (Finmap.lookup id) hput.files), pathOf_congr hput.paths]
  refine ⟨edited, hpatched, fun path hpath id body => ?_, fun f hf hfree => ?_,
    fun f hf hfiled id body => ?_, hput.here, fun q hq hfile hmem => ?_, fun q hq hkept => ?_⟩
  · rw [hnamed, hcreated.others path hpath, hdeleted.named_iff, hpatched.edited.gone_iff]
  · obtain ⟨id, hid⟩ := hcreated.created f hf ((hunfiled f hf).2 hfree)
    exact ⟨id, fun j body => (hnamed j f.path body).trans (hid j body)⟩
  · rw [hnamed]
    exact hcreated.filed f hf ((hunfiled f hf).not.2 hfiled) id body
  · rw [hput.others q hq, digestAt_congr hcreated.assets, Document.digestAt,
      hdeleted.removed q hfile hmem]
  · rw [hput.others q hq, digestAt_congr hcreated.assets,
      ← digestAt_congr hpatched.edited.assets q, Document.digestAt, Document.digestAt,
      hdeleted.assets q hkept]

end Apply

end LibrePaper.Source
