import LibrePaper.Source.Applied

/-!
# An accepted change does what it says

An accepted change leaves the tree it describes exactly when the document, the tree and the
change satisfy conditions that the checks leave out.
-/
namespace LibrePaper.Source
open Library Anchors List

/-- A path of the tree that the change does not delete. -/
def Kept (tree : SourceTree) (change : SourceChange) (path : Path) : Prop :=
  (path ∈ tree.files ∨ path ∈ tree.assets) ∧ path ∉ change.delete.map (·.path)

/-- What the checks leave out: what is deleted is filed under its own spelling and deleted
often enough but not too often, no path is deleted and put, or put with two digests, a new
file finds no id under its path, and no new path is a directory of a file, nor below one. -/
structure Performable (u : Unicode) (doc : Document) (tree : SourceTree)
    (change : SourceChange) : Prop where
  texts : ∀ f ∈ change.delete, ∀ file, tree.files.lookup f.path = some file →
    deletions change.delete f.path ≤ (doc.holders f.path).length ∧
      file.fileId ∈ (doc.holders f.path).take (deletions change.delete f.path)
  binaries : ∀ f ∈ change.delete, f.path ∈ tree.assets →
    doc.digestAt f.path ≠ none ∧ deletions change.delete f.path = 1
  disjoint : ∀ f ∈ change.putBinary, f.path ∉ change.delete.map (·.path)
  agree : ∀ f ∈ change.putBinary, ∀ g ∈ change.putBinary, f.path = g.path → f.hash = g.hash
  replaced : ∀ f ∈ change.putBinary, f.path ∈ tree.assets → doc.digestAt f.path ≠ none
  unfiled : ∀ f ∈ change.create, doc.Unfiled f.path
  beside : ∀ a ∈ addedPaths tree change, ∀ b,
    Kept tree change b ∨ b ∈ addedPaths tree change →
      above (collisionKey u a) (collisionKey u b) = false ∧
        above (collisionKey u b) (collisionKey u a) = false

/-- What a change says of the tree that it leaves. -/
structure Landed (maxFiles : ℕ) (tree tree' : SourceTree) (change : SourceChange) : Prop where
  patched : ∀ p ∈ change.patches, ∃ file out, tree.files.lookup p.path = some file ∧
    Replaced 0 file.text (patchesOf change p.path) out ∧
      tree'.files.lookup p.path = some ⟨file.fileId, out⟩
  deleted : ∀ f ∈ change.delete, f.path ∉ tree'.files ∧ f.path ∉ tree'.assets
  created : ∀ f ∈ change.create, ∃ id,
    tree'.files.lookup f.path = some ⟨id, normaliseEndings f.text⟩
  put : ∀ f ∈ change.putBinary, tree'.assets.lookup f.path = some f.hash
  others : ∀ path, (∀ p ∈ change.patches, p.path ≠ path) →
    path ∉ change.delete.map (·.path) → path ∉ change.create.map (·.path) →
    path ∉ change.putBinary.map (·.path) →
      tree'.files.lookup path = tree.files.lookup path ∧
        tree'.assets.lookup path = tree.assets.lookup path
  count : tree.size ≤ maxFiles → addedPaths tree change ≠ [] → tree'.size ≤ maxFiles

/-- The paths of a tree. -/
def SourceTree.paths (tree : SourceTree) : Finset Path := tree.files.keys ∪ tree.assets.keys

variable {tree : SourceTree} {path : Path} {u : Unicode} {rules : Rules} {doc : Document}
  {c d : Candidate}

lemma mem_paths_iff : path ∈ tree.paths ↔ path ∈ tree.files ∨ path ∈ tree.assets := by
  unfold SourceTree.paths
  rw [Finset.mem_union, Finmap.mem_keys, Finmap.mem_keys]

lemma Reads.size (h : Reads u rules doc tree) : tree.size = tree.paths.card := by
  unfold SourceTree.size SourceTree.paths
  rw [Finset.card_union_of_disjoint]
  rw [Finset.disjoint_left]
  intro path hfile hasset
  exact h.kind (Finmap.mem_keys.1 hfile) (Finmap.mem_keys.1 hasset)

/-- Every path of a tree is the name of a candidate. -/
lemma Reads.candidate (h : Reads u rules doc tree)
    (hpath : path ∈ tree.files ∨ path ∈ tree.assets) :
    ∃ c ∈ candidates u rules doc, c.name u = path := by
  rcases hpath with hpath | hpath
  · obtain ⟨file, hfile⟩ := Finmap.mem_iff.1 hpath
    obtain ⟨raw, hnamed, rfl, hok⟩ := (h.files _ _).1 hfile
    exact ⟨_, text_mem_iff.2 ⟨hnamed, hok⟩, rfl⟩
  · obtain ⟨digest, hasset⟩ := Finmap.mem_iff.1 hpath
    obtain ⟨raw, hdigest, rfl, hok⟩ := (h.assets _ _).1 hasset
    exact ⟨_, asset_mem_candidates.2 ⟨hdigest, hok⟩, rfl⟩

section Added
variable {u : Unicode} {rules : Rules} {maxFiles : ℕ} {tree : SourceTree}
  {change : SourceChange} (h : Accepted u rules maxFiles tree change)

lemma mem_addedPaths : path ∈ addedPaths tree change ↔
    path ∈ change.create.map (·.path) ∨
      ∃ f ∈ change.putBinary, f.path = path ∧ tree.assets.lookup path = none := by
  unfold addedPaths
  rw [mem_append, mem_map (l := change.putBinary.filter _)]
  refine or_congr_right (exists_congr fun f => ?_)
  rw [mem_filter, Option.isNone_iff_eq_none]
  constructor
  · rintro ⟨⟨hf, hnone⟩, rfl⟩
    exact ⟨hf, rfl, hnone⟩
  · rintro ⟨hf, rfl, hnone⟩
    exact ⟨⟨hf, hnone⟩, rfl⟩

include h

lemma added_absent (hpath : path ∈ addedPaths tree change) :
    path ∉ tree.files ∧ path ∉ tree.assets := by
  rcases mem_addedPaths.1 hpath with hmem | ⟨f, hf, rfl, hnone⟩
  · obtain ⟨f, hf, rfl⟩ := mem_map.1 hmem
    have hok := h.operations.creates f hf
    exact ⟨hok.noFile, hok.noAsset⟩
  · exact ⟨(h.operations.puts f hf).noFile, Finmap.lookup_eq_none.1 hnone⟩

lemma added_stored (hpath : path ∈ addedPaths tree change) : normalise u path = path := by
  rcases mem_addedPaths.1 hpath with hmem | ⟨f, hf, rfl, -⟩
  · obtain ⟨f, hf, rfl⟩ := mem_map.1 hmem
    exact (h.operations.creates f hf).stored
  · exact (h.operations.puts f hf).stored

lemma deleted_present (hpath : path ∈ change.delete.map (·.path)) :
    path ∈ tree.files ∨ path ∈ tree.assets := by
  obtain ⟨f, hf, rfl⟩ := mem_map.1 hpath
  rcases (h.operations.deletes f hf).present with hfile | ⟨-, sha, hsha⟩
  · exact .inl hfile
  · exact .inr (Finmap.mem_of_lookup_eq_some hsha)

variable {a b : Path}

lemma added_key_ne (ha : a ∈ addedPaths tree change) (hb : Kept tree change b) :
    collisionKey u a ≠ collisionKey u b := by
  intro hkey
  refine h.operations.clash a ha ?_
  rw [hkey]
  unfold keptKeys
  refine mem_map_of_mem (mem_filter.2 ⟨?_, ?_⟩)
  · rw [mem_append, mem_sortedKeys, mem_sortedKeys]
    exact hb.1
  · rw [Bool.not_eq_true', any_eq_false]
    intro f hf hno
    exact hb.2 (mem_map.2 ⟨f, hf, decide_eq_true_iff.1 hno⟩)

lemma added_key_inj (ha : a ∈ addedPaths tree change) (hb : b ∈ addedPaths tree change)
    (hkey : collisionKey u a = collisionKey u b) : a = b :=
  inj_on_of_nodup_map h.operations.keys ha hb hkey

end Added

lemma gone_path {delete : List DeleteFile} {id : Path} (h : Gone tree delete doc id) :
    ∃ path ∈ delete.map (·.path), path ∈ tree.files ∧ doc.pathOf id = some path := by
  obtain ⟨path, hpath, hid⟩ := h
  have hpos : 0 < deletions delete path := by
    by_contra hno
    rw [Nat.eq_zero_of_not_pos hno] at hid
    cases hid
  exact ⟨path, deletions_pos.1 hpos, hpath, mem_holders.1 (mem_of_mem_take hid)⟩

lemma above_self (key : Path) : above key key = false := by
  unfold above
  rw [Bool.eq_false_iff]
  intro hno
  have hlength := (List.isPrefixOf_iff_prefix.1 hno).length_le
  rw [length_append, length_singleton] at hlength
  omega

lemma candidate_ext (hc : c ∈ candidates u rules doc) (hd : d ∈ candidates u rules doc)
    (hkind : c.kind = d.kind) (hkey : c.key = d.key) : c = d := by
  cases c with
  | text id path body =>
    cases d with
    | text id' path' body' =>
      obtain rfl : id = id' := hkey
      obtain ⟨hpath, hbody⟩ := (text_mem_iff.1 hc).1.unique (text_mem_iff.1 hd).1
      rw [hpath, hbody]
    | asset path' digest' => cases hkind
  | asset path digest =>
    cases d with
    | text id' path' body' => cases hkind
    | asset path' digest' =>
      obtain rfl : path = path' := append_cancel_left hkey
      have hdigest := (asset_mem_candidates.1 hc).1.symm.trans (asset_mem_candidates.1 hd).1
      rw [Option.some.inj hdigest]

section Performable
variable {u : Unicode} {rules : Rules} {maxFiles : ℕ} {doc edited doc' : Document}
  {tree : SourceTree} {change : SourceChange} (hread : Reads u rules doc tree)
  (h : Accepted u rules maxFiles tree change) (hp : Performable u doc tree change)

/-- A candidate that was there before, but for its content. -/
def Candidate.Same (c d : Candidate) : Prop :=
  c.kind = d.kind ∧ c.key = d.key ∧ c.requested = d.requested

include hread h hp

omit hread in
lemma deletable_of_performable : Deletable tree change.delete doc := by
  intro path hpath
  obtain ⟨f, hf, rfl⟩ := mem_map.1 hpath
  refine ⟨fun hfile => ?_, fun hfile => ?_⟩
  · obtain ⟨file, hlookup⟩ := Finmap.mem_iff.1 hfile
    exact (hp.texts f hf file hlookup).1
  · have hasset := (deleted_present h hpath).resolve_left hfile
    obtain ⟨hdigest, hone⟩ := hp.binaries f hf hasset
    obtain ⟨digest, hdigest⟩ := Option.ne_none_iff_exists'.1 hdigest
    exact ⟨mem_assets hdigest, hone⟩

variable (ha : Applied tree change doc edited doc')
include ha

lemma candidate_cases (hc : c ∈ candidates u rules doc') :
    (∃ c₀ ∈ candidates u rules doc, c₀.Same c ∧ Kept tree change (c.name u)) ∨
      (c.requested ∈ addedPaths tree change) := by
  cases c with
  | text id raw body =>
    obtain ⟨hnamed, hok⟩ := text_mem_iff.1 hc
    by_cases hcreate : raw ∈ change.create.map (·.path)
    · exact .inr (mem_addedPaths.2 (.inl hcreate))
    · obtain ⟨hgone, hedited⟩ := (ha.named raw hcreate id body).1 hnamed
      obtain ⟨old, hold⟩ := ha.patched.edited.named hedited
      have hfile : tree.files.lookup (normalise u raw) = some ⟨id, old⟩ :=
        (hread.files _ _).2 ⟨raw, hold, rfl, hok⟩
      refine .inl ⟨.text id raw old, text_mem_iff.2 ⟨hold, hok⟩, ⟨rfl, rfl, rfl⟩,
        .inl (Finmap.mem_of_lookup_eq_some hfile), fun hdelete => hgone ?_⟩
      obtain ⟨f, hf, hpath⟩ := mem_map.1 hdelete
      have hname : f.path = normalise u raw := hpath
      exact ⟨f.path, hname ▸ Finmap.mem_of_lookup_eq_some hfile,
        (hp.texts f hf _ (hname ▸ hfile)).2⟩
  | asset raw digest =>
    obtain ⟨hdigest, hok⟩ := asset_mem_candidates.1 hc
    by_cases hput : raw ∈ change.putBinary.map (·.path)
    · obtain ⟨f, hf, rfl⟩ := mem_map.1 hput
      have hstored := (h.operations.puts f hf).stored
      by_cases hasset : f.path ∈ tree.assets
      · obtain ⟨old, hold⟩ := Option.ne_none_iff_exists'.1 (hp.replaced f hf hasset)
        refine .inl ⟨.asset f.path old, asset_mem_candidates.2 ⟨hold, hok⟩, ⟨rfl, rfl, rfl⟩, ?_⟩
        change Kept tree change (normalise u f.path)
        rw [hstored]
        exact ⟨.inr hasset, hp.disjoint f hf⟩
      · exact .inr (mem_addedPaths.2
          (.inr ⟨f, hf, rfl, Finmap.lookup_eq_none.2 hasset⟩))
    · by_cases hkept : raw ∈ tree.files ∨ raw ∉ change.delete.map (·.path)
      · rw [ha.kept raw hput hkept] at hdigest
        have hasset : tree.assets.lookup (normalise u raw) = some digest :=
          (hread.assets _ _).2 ⟨raw, hdigest, rfl, hok⟩
        refine .inl ⟨.asset raw digest, asset_mem_candidates.2 ⟨hdigest, hok⟩,
          ⟨rfl, rfl, rfl⟩, .inr (Finmap.mem_of_lookup_eq_some hasset), fun hdelete => ?_⟩
        obtain ⟨f, hf, hpath⟩ := mem_map.1 hdelete
        have hname : f.path = normalise u raw := hpath
        have hmem : f.path ∈ tree.assets := hname ▸ Finmap.mem_of_lookup_eq_some hasset
        obtain ⟨old, hold⟩ := Option.ne_none_iff_exists'.1 (hp.binaries f hf hmem).1
        have hsame : raw = f.path := by
          refine hread.asset_inj hdigest hok hold ?_
          rw [hname, normalise_normalise]
        rcases hkept with hfile | hkept
        · exact hread.kind hfile (hsame ▸ hmem)
        · exact hkept (hsame ▸ mem_map_of_mem hf)
      · rw [not_or, not_not] at hkept
        rw [ha.removed raw hput hkept.1 hkept.2] at hdigest
        cases hdigest

omit hread in
lemma new_unique (hc : c ∈ candidates u rules doc') (hd : d ∈ candidates u rules doc')
    (hnew : c.requested ∈ addedPaths tree change) (hsame : c.requested = d.requested) : c = d := by
  have hkind : c.kind = d.kind := by
    have hc := (mem_candidates.1 hc).2
    rw [hsame, (mem_candidates.1 hd).2] at hc
    exact (Except.ok.inj hc).symm
  refine candidate_ext hc hd hkind ?_
  cases c with
  | asset raw digest =>
    cases d with
    | text id' raw' body' => cases hkind
    | asset raw' digest' => exact congrArg ("asset:".toList ++ ·) hsame
  | text id raw body =>
    cases d with
    | asset raw' digest' => cases hkind
    | text id' raw' body' =>
      obtain rfl : raw = raw' := hsame
      obtain ⟨hnamed, hok⟩ := text_mem_iff.1 hc
      obtain ⟨hnamed', -⟩ := text_mem_iff.1 hd
      rcases mem_addedPaths.1 hnew with hcreate | ⟨f, hf, hpath, -⟩
      · obtain ⟨f, hf, hpath⟩ := mem_map.1 hcreate
        obtain rfl : f.path = raw := hpath
        obtain ⟨j, hj⟩ := ha.created f hf (hp.unfiled f hf)
        exact ((hj id body).1 hnamed).1.trans ((hj id' body').1 hnamed').1.symm
      · have hput := (h.operations.puts f hf).kind
        rw [hpath] at hput
        cases Except.ok.inj (hok.symm.trans hput)

/-- Nothing is dropped or renamed after a change that can be performed. -/
lemma beside_after : ∀ c ∈ candidates u rules doc', ∀ d ∈ candidates u rules doc', c ≠ d →
    Beside u c d := by
  have hnew : ∀ c : Candidate, c.requested ∈ addedPaths tree change →
      c.name u = c.requested := fun _ => added_stored h
  have hbeside : ∀ c d : Candidate, c.requested ∈ addedPaths tree change →
      Kept tree change (d.name u) ∨ d.name u ∈ addedPaths tree change →
      collisionKey u (c.name u) ≠ collisionKey u (d.name u) → Beside u c d := by
    intro c d hc hd hkey
    have hc' := hc
    rw [← hnew c hc] at hc'
    obtain ⟨hup, hdown⟩ := hp.beside _ hc' _ hd
    unfold Beside apart
    rw [hup, hdown, decide_eq_true hkey]
    rfl
  intro c hc d hd hne
  rcases candidate_cases hread h hp ha hc with ⟨c₀, hc₀, hsame, hkept⟩ | hadded
  · rcases candidate_cases hread h hp ha hd with ⟨d₀, hd₀, hsame', hkept'⟩ | hadded
    · have hb : Beside u c₀ d₀ := by
        refine hread.beside c₀ hc₀ d₀ hd₀ fun heq => hne ?_
        rw [heq] at hsame
        exact candidate_ext hc hd (hsame.1.symm.trans hsame'.1) (hsame.2.1.symm.trans hsame'.2.1)
      unfold Beside Candidate.name at hb ⊢
      rwa [hsame.2.2, hsame'.2.2] at hb
    · refine (hbeside d c hadded (.inl hkept) ?_).symm
      have hadded' := hadded
      rw [← hnew d hadded] at hadded'
      exact added_key_ne h hadded' hkept
  · have hadded' := hadded
    rw [← hnew c hadded] at hadded'
    rcases candidate_cases hread h hp ha hd with ⟨d₀, hd₀, hsame, hkept⟩ | hlater
    · exact hbeside c d hadded (.inl hkept) (added_key_ne h hadded' hkept)
    · have hlater' := hlater
      rw [← hnew d hlater] at hlater'
      refine hbeside c d hadded (.inr hlater') fun hkey => hne ?_
      refine new_unique h hp ha hc hd hadded ?_
      rw [← hnew c hadded, ← hnew d hlater]
      exact added_key_inj h hadded' hlater' hkey

end Performable

section Landed
variable {u : Unicode} {rules : Rules} {maxFiles : ℕ} {doc edited doc' : Document}
  {tree tree' : SourceTree} {change : SourceChange} (hread : Reads u rules doc tree)
  (h : Accepted u rules maxFiles tree change) (ha : Applied tree change doc edited doc')
  (hread' : Reads u rules doc' tree')
include hread h ha hread'

variable {file : SourceFile} {digest : String} {f : DeleteFile}

/-- A text of the tree that is not deleted is still there, with the text after the patches. -/
lemma file_after (hfile : tree.files.lookup path = some file)
    (hkept : path ∉ change.delete.map (·.path)) {out : List Char}
    (hout : edited.textById file.fileId = some out) :
    tree'.files.lookup path = some ⟨file.fileId, out⟩ := by
  obtain ⟨raw, hnamed, rfl, hok⟩ := (hread.files _ _).1 hfile
  refine (hread'.files _ _).2 ⟨raw, (ha.named raw ?_ _ _).2 ⟨fun hgone => ?_, hout, ?_⟩, rfl, hok⟩
  · intro hcreate
    obtain ⟨f, hf, hpath⟩ := mem_map.1 hcreate
    obtain rfl : f.path = raw := hpath
    have hcreate := h.operations.creates f hf
    refine hcreate.noFile ?_
    rw [← hcreate.stored]
    exact Finmap.mem_of_lookup_eq_some hfile
  · obtain ⟨q, hq, hqfile, hqpath⟩ := gone_path hgone
    obtain rfl := Option.some.inj (hnamed.2.symm.trans hqpath)
    rw [hread.stored (.inl hqfile)] at hkept
    exact hkept hq
  · rw [pathOf_congr ha.patched.edited.paths]
    exact hnamed.2

lemma file_stays (hfile : tree.files.lookup path = some file)
    (hkept : path ∉ change.delete.map (·.path)) (hpatch : ∀ p ∈ change.patches, p.path ≠ path) :
    tree'.files.lookup path = some file := by
  refine file_after hread h ha hread' hfile hkept ?_
  obtain ⟨raw, hnamed, -, -⟩ := (hread.files _ _).1 hfile
  rw [ha.patched.others file.fileId fun p hp file' hfile' hid => hpatch p hp
    (hread.id_inj hfile' hfile hid)]
  exact hnamed.1

lemma asset_stays (hasset : tree.assets.lookup path = some digest)
    (hkept : path ∉ change.delete.map (·.path)) (hput : path ∉ change.putBinary.map (·.path)) :
    tree'.assets.lookup path = some digest := by
  obtain ⟨raw, hdigest, rfl, hok⟩ := (hread.assets _ _).1 hasset
  refine (hread'.assets _ _).2 ⟨raw, ?_, rfl, hok⟩
  rw [ha.kept raw, hdigest]
  · intro hmem
    obtain ⟨f, hf, hpath⟩ := mem_map.1 hmem
    obtain rfl : f.path = raw := hpath
    rw [(h.operations.puts f hf).stored] at hput
    exact hput hmem
  · refine .inr fun hmem => ?_
    have hpresent := deleted_present h hmem
    rw [hread.stored hpresent] at hkept
    exact hkept hmem

section Performable
variable (hp : Performable u doc tree change)
include hp

/-- What is in the tree afterwards was there and is kept, or is added. -/
lemma path_after (hpath : path ∈ tree'.files ∨ path ∈ tree'.assets) :
    Kept tree change path ∨ path ∈ addedPaths tree change := by
  have hcase : ∀ c ∈ candidates u rules doc', c.name u = path →
      Kept tree change path ∨ path ∈ addedPaths tree change := by
    intro c hc hname
    rcases candidate_cases hread h hp ha hc with ⟨c₀, -, -, hkept⟩ | hadded
    · exact .inl (hname ▸ hkept)
    · have hstored : c.name u = c.requested := added_stored h hadded
      rw [← hname, hstored]
      exact .inr hadded
  rcases hpath with hpath | hpath
  · obtain ⟨file, hfile⟩ := Finmap.mem_iff.1 hpath
    obtain ⟨raw, hnamed, rfl, hok⟩ := (hread'.files _ _).1 hfile
    exact hcase _ (text_mem_iff.2 ⟨hnamed, hok⟩) rfl
  · obtain ⟨digest, hdigest⟩ := Finmap.mem_iff.1 hpath
    obtain ⟨raw, hdigest', rfl, hok⟩ := (hread'.assets _ _).1 hdigest
    exact hcase _ (asset_mem_candidates.2 ⟨hdigest', hok⟩) rfl

omit hread in
lemma created_after {f : CreateFile} (hf : f ∈ change.create) :
    ∃ id, tree'.files.lookup f.path = some ⟨id, normaliseEndings f.text⟩ := by
  obtain ⟨id, hid⟩ := ha.created f hf (hp.unfiled f hf)
  have hok := h.operations.creates f hf
  exact ⟨id, (hread'.files _ _).2 ⟨f.path, (hid _ _).2 ⟨rfl, rfl⟩, hok.stored, hok.kind⟩⟩

omit hread in
lemma put_after {f : PutBinary} (hf : f ∈ change.putBinary) :
    tree'.assets.lookup f.path = some f.hash := by
  obtain ⟨g, hg, hpath, hdigest⟩ := ha.put f.path (mem_map_of_mem hf)
  have hok := h.operations.puts f hf
  rw [hp.agree g hg f hf hpath] at hdigest
  exact (hread'.assets _ _).2 ⟨f.path, hdigest, hok.stored, hok.kind⟩

lemma others_after (hpatch : ∀ p ∈ change.patches, p.path ≠ path)
    (hdelete : path ∉ change.delete.map (·.path)) (hcreate : path ∉ change.create.map (·.path))
    (hput : path ∉ change.putBinary.map (·.path)) :
    tree'.files.lookup path = tree.files.lookup path ∧
      tree'.assets.lookup path = tree.assets.lookup path := by
  have hback : path ∈ tree'.files ∨ path ∈ tree'.assets →
      path ∈ tree.files ∨ path ∈ tree.assets := by
    intro hpath
    rcases path_after hread h ha hread' hp hpath with hkept | hadded
    · exact hkept.1
    · rcases mem_addedPaths.1 hadded with hmem | ⟨f, hf, rfl, -⟩
      · exact absurd hmem hcreate
      · exact absurd (mem_map_of_mem hf) hput
  constructor
  · cases hfile : tree.files.lookup path with
    | some file => exact file_stays hread h ha hread' hfile hdelete hpatch
    | none =>
      rw [Finmap.lookup_eq_none]
      intro hmem
      rcases hback (.inl hmem) with hold | hold
      · exact Finmap.lookup_eq_none.1 hfile hold
      · have hkind := (hread'.text hmem).symm.trans (hread.binary hold)
        cases Except.ok.inj hkind
  · cases hasset : tree.assets.lookup path with
    | some digest => exact asset_stays hread h ha hread' hasset hdelete hput
    | none =>
      rw [Finmap.lookup_eq_none]
      intro hmem
      rcases hback (.inr hmem) with hold | hold
      · have hkind := (hread'.binary hmem).symm.trans (hread.text hold)
        cases Except.ok.inj hkind
      · exact Finmap.lookup_eq_none.1 hasset hold

lemma size_after : tree'.size ≤
    tree.size - removedCount tree change + (addedPaths tree change).length := by
  have hremoved : removedCount tree change =
      ((change.delete.map (·.path)).toFinset ∩ tree.paths).card := by
    unfold removedCount
    rw [← toFinset_card_of_nodup ((nodup_dedup _).filter _)]
    congr 1
    ext path
    simp [mem_paths_iff]
  have hsub : tree'.paths ⊆ tree.paths \ (change.delete.map (·.path)).toFinset ∪
      (addedPaths tree change).toFinset := by
    intro path hpath
    rw [mem_paths_iff] at hpath
    rw [Finset.mem_union, Finset.mem_sdiff, mem_toFinset, mem_toFinset, mem_paths_iff]
    exact path_after hread h ha hread' hp hpath
  calc tree'.size = tree'.paths.card := hread'.size
    _ ≤ (tree.paths \ (change.delete.map (·.path)).toFinset).card +
        (addedPaths tree change).toFinset.card :=
      (Finset.card_le_card hsub).trans (Finset.card_union_le _ _)
    _ ≤ tree.size - removedCount tree change + (addedPaths tree change).length := by
      rw [Finset.card_sdiff, ← hremoved, hread.size]
      exact Nat.add_le_add_left (toFinset_card_le _) _

/-- A change that can be performed leaves the tree that it describes. -/
lemma landed : Landed maxFiles tree tree' change := by
  refine ⟨fun p hp' => ?_, fun f hf => ?_, fun f => created_after h ha hread' hp,
    fun f => put_after h ha hread' hp, fun path => others_after hread h ha hread' hp,
    fun _ hadded => ?_⟩
  · obtain ⟨file, out, hfile, hreplaced, hout⟩ := ha.patched.patched p hp'
    refine ⟨file, out, hfile, hreplaced, file_after hread h ha hread' hfile ?_ hout⟩
    intro hmem
    obtain ⟨f, hf, hpath⟩ := mem_map.1 hmem
    exact (h.operations.deletes f hf).unpatched p hp' hpath.symm
  · rw [← not_or]
    intro hmem
    have hdelete : f.path ∈ change.delete.map (·.path) := mem_map_of_mem hf
    rcases path_after hread h ha hread' hp hmem with hkept | hadded
    · exact hkept.2 hdelete
    · rcases deleted_present h hdelete with hold | hold
      · exact (added_absent h hadded).1 hold
      · exact (added_absent h hadded).2 hold
  · exact (size_after hread h ha hread' hp).trans (h.operations.count hadded)

end Performable

variable (hland : Landed maxFiles tree tree' change)
include hland

lemma deleted_text (hf : f ∈ change.delete) (hfile : tree.files.lookup f.path = some file) :
    file.fileId ∈ (doc.holders f.path).take (deletions change.delete f.path) := by
  obtain ⟨raw, hnamed, hname, hok⟩ := (hread.files _ _).1 hfile
  by_contra hout
  have hgone : ¬ Gone tree change.delete doc file.fileId := by
    rintro ⟨q, hq, hid⟩
    have hpath := mem_holders.1 (mem_of_mem_take hid)
    obtain rfl := Option.some.inj (hnamed.2.symm.trans hpath)
    rw [hread.stored (.inl hq)] at hname
    rw [hname] at hid
    exact hout hid
  have hcreate : raw ∉ change.create.map (·.path) := by
    intro hmem
    obtain ⟨g, hg, rfl⟩ := mem_map.1 hmem
    have hcreate := h.operations.creates g hg
    rw [hcreate.stored] at hname
    exact hcreate.noFile (hname ▸ Finmap.mem_of_lookup_eq_some hfile)
  obtain ⟨new, hnew⟩ := ha.patched.edited.named_of hnamed
  have hafter := (ha.named raw hcreate _ _).2 ⟨hgone, hnew⟩
  refine (hland.deleted f hf).1 (Finmap.mem_of_lookup_eq_some
    ((hread'.files f.path ⟨file.fileId, new⟩).2 ⟨raw, hafter, hname, hok⟩))

omit hread' hland in
/-- A binary that is filed under another spelling of its path stays there. -/
lemma misspelt_stays {raw : Path} (hdigest : doc.digestAt raw = some digest)
    (hnew : normalise u raw ≠ raw) : doc'.digestAt raw = some digest := by
  rw [ha.kept raw, hdigest]
  · intro hin
    obtain ⟨g, hg, rfl⟩ := mem_map.1 hin
    exact hnew (h.operations.puts g hg).stored
  · exact .inr fun hin => hnew (hread.stored (deleted_present h hin))

lemma deleted_binary (hf : f ∈ change.delete) (hmem : f.path ∈ tree.assets) :
    doc.digestAt f.path ≠ none := by
  obtain ⟨digest, hasset⟩ := Finmap.mem_iff.1 hmem
  obtain ⟨raw, hdigest, hname, hok⟩ := (hread.assets _ _).1 hasset
  by_cases hraw : raw = f.path
  · rw [← hraw, hdigest]
    exact nofun
  · have hafter := misspelt_stays hread h ha hdigest fun hno => hraw (hno.symm.trans hname)
    exact absurd (Finmap.mem_of_lookup_eq_some
      ((hread'.assets _ _).2 ⟨raw, hafter, hname, hok⟩)) (hland.deleted f hf).2

omit hland in
lemma replaced_binary {f : PutBinary} (hf : f ∈ change.putBinary)
    (hmem : f.path ∈ tree.assets) : doc.digestAt f.path ≠ none := by
  obtain ⟨digest, hasset⟩ := Finmap.mem_iff.1 hmem
  obtain ⟨raw, hdigest, hname, hok⟩ := (hread.assets _ _).1 hasset
  by_cases hraw : raw = f.path
  · rw [← hraw, hdigest]
    exact nofun
  · have hafter := misspelt_stays hread h ha hdigest fun hno => hraw (hno.symm.trans hname)
    obtain ⟨g, -, -, hg⟩ := ha.put f.path (mem_map_of_mem hf)
    refine absurd (hread'.asset_inj hafter hok hg ?_) hraw
    rw [hname, (h.operations.puts f hf).stored]

lemma created_unfiled {f : CreateFile} (hf : f ∈ change.create) : doc.Unfiled f.path := by
  by_contra hfiled
  obtain ⟨id, hlookup⟩ := hland.created f hf
  obtain ⟨raw, hnamed, hname, hok⟩ := (hread'.files _ _).1 hlookup
  by_cases hcreate : raw ∈ change.create.map (·.path)
  · obtain ⟨g, hg, rfl⟩ := mem_map.1 hcreate
    rw [(h.operations.creates g hg).stored] at hname
    rw [hname] at hnamed
    exact ha.filed f hf hfiled _ _ hnamed
  · obtain ⟨-, hedited⟩ := (ha.named raw hcreate _ _).1 hnamed
    obtain ⟨old, hold⟩ := ha.patched.edited.named hedited
    exact (h.operations.creates f hf).noFile (Finmap.mem_of_lookup_eq_some
      ((hread.files f.path ⟨id, old⟩).2 ⟨raw, hold, hname, hok⟩))

lemma kept_after (hkept : Kept tree change path ∨ path ∈ addedPaths tree change) :
    path ∈ tree'.files ∨ path ∈ tree'.assets := by
  rcases hkept with ⟨hmem | hmem, hdelete⟩ | hadded
  · obtain ⟨file, hfile⟩ := Finmap.mem_iff.1 hmem
    obtain ⟨raw, hnamed, -, -⟩ := (hread.files _ _).1 hfile
    obtain ⟨new, hnew⟩ := ha.patched.edited.named_of hnamed
    exact .inl (Finmap.mem_of_lookup_eq_some (file_after hread h ha hread' hfile hdelete hnew.1))
  · by_cases hput : path ∈ change.putBinary.map (·.path)
    · obtain ⟨f, hf, rfl⟩ := mem_map.1 hput
      exact .inr (Finmap.mem_of_lookup_eq_some (hland.put f hf))
    · obtain ⟨digest, hasset⟩ := Finmap.mem_iff.1 hmem
      exact .inr (Finmap.mem_of_lookup_eq_some (asset_stays hread h ha hread' hasset hdelete hput))
  · rcases mem_addedPaths.1 hadded with hmem | ⟨f, hf, rfl, -⟩
    · obtain ⟨f, hf, rfl⟩ := mem_map.1 hmem
      obtain ⟨id, hlookup⟩ := hland.created f hf
      exact .inl (Finmap.mem_of_lookup_eq_some hlookup)
    · exact .inr (Finmap.mem_of_lookup_eq_some (hland.put f hf))

lemma performable_of_landed (hok : Deletable tree change.delete doc) :
    Performable u doc tree change := by
  refine ⟨fun f hf file hfile => ⟨?_, deleted_text hread h ha hread' hland hf hfile⟩,
    fun f hf hmem => ⟨deleted_binary hread h ha hread' hland hf hmem, ?_⟩, fun f hf hin => ?_,
    fun f hf g hg hpath => ?_, fun _ => replaced_binary hread h ha hread',
    fun _ => created_unfiled hread h ha hread' hland, fun a hadded b hb => ?_⟩
  · exact (hok f.path (mem_map_of_mem hf)).1 (Finmap.mem_of_lookup_eq_some hfile)
  · exact ((hok f.path (mem_map_of_mem hf)).2 fun hfile => hread.kind hfile hmem).2
  · obtain ⟨g, hg, hpath⟩ := mem_map.1 hin
    exact (hland.deleted g hg).2 (hpath ▸ Finmap.mem_of_lookup_eq_some (hland.put f hf))
  · have hhash := hland.put f hf
    rw [hpath, hland.put g hg] at hhash
    exact (Option.some.inj hhash).symm
  · by_cases hsame : a = b
    · rw [hsame, above_self]
      exact ⟨rfl, rfl⟩
    · obtain ⟨c, hc, hcname⟩ := hread'.candidate
        (kept_after hread h ha hread' hland (.inr hadded))
      obtain ⟨d, hd, hdname⟩ := hread'.candidate (kept_after hread h ha hread' hland hb)
      have hbeside := hread'.beside c hc d hd fun hno => hsame (hcname ▸ hno ▸ hdname)
      unfold Beside apart at hbeside
      rw [hcname, hdname, Bool.and_eq_true, Bool.and_eq_true, Bool.not_eq_true',
        Bool.not_eq_true'] at hbeside
      exact ⟨hbeside.1.2, hbeside.2⟩

end Landed

section Performs
variable (u : Unicode) (rules : Rules) (maxFiles : ℕ) (hash : List Char → String)
  (mint : ℕ → Path) (doc : Document) (revision later : String) (change : SourceChange)

/-- The tree that a document is read as. -/
def treeAt : SourceTree := treeOf (project u rules doc hash) revision

/-- A change is applied, nothing is dropped or renamed, and the tree is as it says. -/
def Performs : Prop :=
  ∃ doc', applyPatchEdits mint doc (treeAt u rules hash doc revision) change = .ok doc' ∧
    Settled (project u rules doc' hash) ∧
    Landed maxFiles (treeAt u rules hash doc revision) (treeAt u rules hash doc' later) change

variable {u rules maxFiles hash mint doc revision later change}

lemma performs_of_performable
    (h : Accepted u rules maxFiles (treeAt u rules hash doc revision) change)
    (hmint : mint.Injective) (hfresh : Fresh mint doc 0)
    (hset : Settled (project u rules doc hash))
    (hp : Performable u doc (treeAt u rules hash doc revision) change) :
    Performs u rules maxFiles hash mint doc revision later change := by
  have hread := reads_of_settled hset revision
  obtain ⟨doc', hok⟩ := (apply_ok_iff hread h).2 (deletable_of_performable h hp)
  obtain ⟨edited, ha⟩ := applied_of_ok hread h hmint hfresh hok
  have hset' : Settled (project u rules doc' hash) :=
    settled_iff_beside.2 (beside_after hread h hp ha)
  exact ⟨doc', hok, hset', landed hread h ha (reads_of_settled hset' later) hp⟩

lemma performable_of_performs
    (h : Accepted u rules maxFiles (treeAt u rules hash doc revision) change)
    (hmint : mint.Injective) (hfresh : Fresh mint doc 0)
    (hset : Settled (project u rules doc hash))
    (hperforms : Performs u rules maxFiles hash mint doc revision later change) :
    Performable u doc (treeAt u rules hash doc revision) change := by
  have hread := reads_of_settled hset revision
  obtain ⟨doc', hok, hset', hland⟩ := hperforms
  obtain ⟨edited, ha⟩ := applied_of_ok hread h hmint hfresh hok
  exact performable_of_landed hread h ha (reads_of_settled hset' later) hland
    ((apply_ok_iff hread h).1 ⟨doc', hok⟩)

/-- Editing texts moves and drops what was moved and dropped before. -/
lemma Edited.settled {doc' : Document} (h : Edited doc doc')
    (hset : Settled (project u rules doc' hash)) : Settled (project u rules doc hash) := by
  have hafter : ∀ c ∈ candidates u rules doc, ∃ d ∈ candidates u rules doc', c.Same d := by
    intro c hc
    cases c with
    | text id raw body =>
      obtain ⟨hnamed, hok⟩ := text_mem_iff.1 hc
      obtain ⟨new, hnew⟩ := h.named_of hnamed
      exact ⟨.text id raw new, text_mem_iff.2 ⟨hnew, hok⟩, rfl, rfl, rfl⟩
    | asset raw digest =>
      obtain ⟨hdigest, hok⟩ := asset_mem_candidates.1 hc
      rw [← digestAt_congr h.assets] at hdigest
      exact ⟨.asset raw digest, asset_mem_candidates.2 ⟨hdigest, hok⟩, rfl, rfl, rfl⟩
  rw [settled_iff_beside] at hset ⊢
  intro c hc d hd hne
  obtain ⟨c', hc', hsame⟩ := hafter c hc
  obtain ⟨d', hd', hsame'⟩ := hafter d hd
  have hbeside : Beside u c' d' := by
    refine hset c' hc' d' hd' fun heq => hne ?_
    rw [← heq] at hsame'
    exact candidate_ext hc hd (hsame.1.trans hsame'.1.symm) (hsame.2.1.trans hsame'.2.1.symm)
  unfold Beside Candidate.name at hbeside ⊢
  rwa [hsame.2.2, hsame'.2.2]

/-- A change without file operations leaves what was moved or dropped where it is. -/
lemma settled_of_performs (hnone : change.hasFileOperations = false)
    (hperforms : Performs u rules maxFiles hash mint doc revision later change) :
    Settled (project u rules doc hash) := by
  obtain ⟨doc', hok, hset', -⟩ := hperforms
  obtain ⟨hcreate, hdelete, hput⟩ := hasFileOperations_eq_false.1 hnone
  obtain ⟨files, edited, deleted, -, hedited, hdeleted, rfl⟩ := applyPatchEdits_ok.1 hok
  rw [hdelete] at hdeleted
  cases hdeleted
  rw [hcreate, hput] at hset'
  exact (edited_of_foldlM hedited).settled hset'

/-- An accepted change does what it says when nothing was moved or dropped before and the
change can be performed; and it does so only then, when nothing was moved or dropped before or
the change has no file operations. -/
theorem change_performs {origin : Origin}
    (h : validateSourceChange u hash rules maxFiles (treeAt u rules hash doc revision) change
      origin = .ok ())
    (hmint : mint.Injective) (hfresh : Fresh mint doc 0) :
    (Settled (project u rules doc hash) ∧
      Performable u doc (treeAt u rules hash doc revision) change →
        Performs u rules maxFiles hash mint doc revision later change) ∧
    (Settled (project u rules doc hash) ∨ change.hasFileOperations = false →
      Performs u rules maxFiles hash mint doc revision later change →
        Settled (project u rules doc hash) ∧
          Performable u doc (treeAt u rules hash doc revision) change) := by
  have haccept := accepted_of_validate h
  refine ⟨fun ⟨hset, hp⟩ => performs_of_performable haccept hmint hfresh hset hp,
    fun hcase hperforms => ?_⟩
  have hset := hcase.elim id fun hnone => settled_of_performs hnone hperforms
  exact ⟨hset, performable_of_performs haccept hmint hfresh hset hperforms⟩

end Performs

/-- Paths of plain characters. -/
def plain : Unicode := ⟨id, id, id, String.ofList, fun _ => rfl⟩

/-- A deployment that accepts texts with one extension. -/
def texRules : Rules := ⟨[['.', 't', 'e', 'x']], [], [], 512, 8⟩

/-- A project with one file. -/
def oneFile : Document where
  files := Finmap.insert ['f'] (.text ['x']) ∅
  paths := Finmap.insert ['f'] (.string ['a', '.', 't', 'e', 'x']) ∅
  assets := ∅

/-- A change that creates one file. -/
def creating (path : Path) : SourceChange where
  operation := ⟨['s'], "v2.0.00000000000000000000000000000000".toList⟩
  baseTree := "head"
  consistency := .unchangedDependencies
  dependencies := []
  patches := []
  create := [⟨path, ['y']⟩]
  delete := []
  putBinary := []

/-- Ids that are minted one after the other. -/
def minted (n : ℕ) : Path := List.replicate (n + 2) 'm'

lemma minted_injective : minted.Injective := by
  intro m n h
  have hlength := congrArg length h
  unfold minted at hlength
  rw [length_replicate, length_replicate] at hlength
  omega

lemma minted_fresh : Fresh minted oneFile 0 := by
  intro j _
  have hne : minted j ≠ ['f'] := by
    intro hno
    have hlength := congrArg length hno
    unfold minted at hlength
    rw [length_replicate] at hlength
    exact absurd hlength (by simp)
  refine ⟨fun hin => ?_, fun hin => ?_⟩
  · exact (Finmap.mem_insert.1 hin).elim hne Finmap.notMem_empty
  · exact (Finmap.mem_insert.1 hin).elim hne Finmap.notMem_empty

lemma oneFile_read : Settled (project plain texRules oneFile fun _ => "") ∧
    (treeAt plain texRules (fun _ => "") oneFile "head").paths = {"a.tex".toList} ∧
    ∀ path ∈ ["a.tex/b.tex".toList, "b.tex".toList],
      validateSourceChange plain (fun _ => "") texRules 10
        (treeAt plain texRules (fun _ => "") oneFile "head") (creating path) .agent = .ok () := by
  rw [settled_iff]
  decide +kernel

lemma oneFile_settled : Settled (project plain texRules oneFile fun _ => "") := oneFile_read.1

lemma create_below_accepted : validateSourceChange plain (fun _ => "") texRules 10
    (treeAt plain texRules (fun _ => "") oneFile "head")
    (creating "a.tex/b.tex".toList) .agent = .ok () :=
  oneFile_read.2.2 _ mem_cons_self

/-- A file that is created below another file is accepted and dropped. -/
theorem created_below_dropped : ¬ ∀ (u : Unicode) (rules : Rules) (maxFiles : ℕ)
    (hash : List Char → String) (mint : ℕ → Path) (doc : Document) (revision later : String)
    (change : SourceChange) (origin : Origin), mint.Injective → Fresh mint doc 0 →
    Settled (project u rules doc hash) →
    validateSourceChange u hash rules maxFiles (treeAt u rules hash doc revision) change
      origin = .ok () → Performs u rules maxFiles hash mint doc revision later change := by
  intro hall
  have hperforms := hall plain texRules 10 (fun _ => "") minted oneFile "head" ""
    (creating "a.tex/b.tex".toList) .agent minted_injective minted_fresh oneFile_settled
    create_below_accepted
  have hp := performable_of_performs (accepted_of_validate create_below_accepted)
    minted_injective minted_fresh oneFile_settled hperforms
  have hpath : "a.tex".toList ∈ (treeAt plain texRules (fun _ => "") oneFile "head").paths := by
    rw [oneFile_read.2.1]
    exact Finset.mem_singleton_self _
  obtain ⟨-, hdown⟩ := hp.beside "a.tex/b.tex".toList (by decide) "a.tex".toList
    (.inl ⟨mem_paths_iff.1 hpath, by decide⟩)
  exact absurd hdown (by decide)

lemma create_beside_accepted : validateSourceChange plain (fun _ => "") texRules 10
    (treeAt plain texRules (fun _ => "") oneFile "head")
    (creating "b.tex".toList) .agent = .ok () :=
  oneFile_read.2.2 _ (mem_cons_of_mem _ mem_cons_self)

lemma create_beside_performable : Performable plain oneFile
    (treeAt plain texRules (fun _ => "") oneFile "head") (creating "b.tex".toList) := by
  have hpaths : (treeAt plain texRules (fun _ => "") oneFile "head").paths =
      {"a.tex".toList} := oneFile_read.2.1
  have hadded : addedPaths (treeAt plain texRules (fun _ => "") oneFile "head")
      (creating "b.tex".toList) = ["b.tex".toList] := by decide
  refine ⟨nofun, nofun, nofun, nofun, nofun, fun f hf id hid => ?_, fun a ha b hb => ?_⟩
  · obtain rfl := mem_singleton.1 hf
    have hmem := mem_paths hid
    rcases Finmap.mem_insert.1 hmem with rfl | hmem
    · exact absurd hid (by decide)
    · exact Finmap.notMem_empty hmem
  · rw [hadded] at ha hb
    obtain rfl := mem_singleton.1 ha
    rcases hb with hkept | hb
    · have hmem := mem_paths_iff.2 hkept.1
      rw [hpaths, Finset.mem_singleton] at hmem
      rw [hmem]
      decide
    · obtain rfl := mem_singleton.1 hb
      decide

theorem change_performs_created : Performs plain texRules 10 (fun _ => "") minted oneFile "head" ""
    (creating "b.tex".toList) :=
  (change_performs create_beside_accepted minted_injective minted_fresh).1
    ⟨oneFile_settled, create_beside_performable⟩

end LibrePaper.Source
