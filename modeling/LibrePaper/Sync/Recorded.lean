import LibrePaper.Sync.Chain

/-!
# The chain records each version's tree

The tree of every commit of the chain holds the files of its version, none of the known paths
that the version has dropped, and otherwise what the tree it was started from holds.
-/
namespace LibrePaper.Sync
open Library Source List

variable {p q : Path}

lemma prefix_of_nameOf (h : nameOf p <+: nameOf q) : p <+: q :=
  prefix_of_utf8_prefix (prefix_map_iff_of_injective UInt8.toFin_injective |>.mp h)

lemma nameOf_injective : Function.Injective nameOf := fun _ _ h =>
  (prefix_of_nameOf (h ▸ prefix_refl _)).eq_of_length_le
    (prefix_of_nameOf (h ▸ prefix_refl _)).length_le

lemma below_nameOf (h : Below slash (nameOf p) (nameOf q)) : Below '/' p q := by
  refine prefix_of_nameOf ?_
  have happend : nameOf (p ++ ['/']) = nameOf p ++ [slash] := by
    rw [nameOf, utf8, flatMap_append, map_append]
    rfl
  exact happend ▸ h

variable {ω γ : Type}

lemma foldl_updateIndex_remove (index : GitTree ω) (removals : List Path) :
    (removals.map fun path => IndexInfo.remove (nameOf path)).foldl updateIndex index =
      index.dropAll (removals.map nameOf) := by
  rw [foldl_map, Forest.dropAll, foldl_map]
  rfl

/-- The entry that is written for a file. -/
def entryFor (base : Option (GitTree ω)) (file : Path × ω) : Name × TreeEntry ω :=
  (nameOf file.1,
    ⟨if modeAt (base.getD ∅) file.1 = some .executable then .executable else .file, file.2⟩)

lemma overlay_eq (base : Option (GitTree ω)) (entries : List (Path × ω))
    (removals : List Path) : overlay base entries removals =
      ((base.getD ∅).dropAll (removals.map nameOf)).putAll (entries.map (entryFor base)) := by
  rw [overlay, foldl_append, foldl_updateIndex_remove, foldl_map, Forest.putAll, foldl_map]
  rfl

variable {base : Option (GitTree ω)} {entries : List (Path × ω)} {removals : List Path}

/-- Every entry that is written is in the tree. -/
lemma get?_overlay_of_mem (hnodup : (entries.map Prod.fst).Nodup)
    (hapart : ∀ a ∈ entries, ∀ b ∈ entries, ¬Below '/' a.1 b.1) {file : Path × ω}
    (hfile : file ∈ entries) :
    (overlay base entries removals).get? (nameOf file.1) = some (entryFor base file).2 := by
  rw [overlay_eq]
  refine Forest.get?_putAll_of_mem _ ?_ (mem_map_of_mem hfile)
  rw [pairwise_map]
  refine (pairwise_map.1 hnodup).imp_of_mem fun {a b} ha hb hne => ⟨?_, ?_, ?_⟩
  · exact fun h => hne (nameOf_injective h)
  · exact fun h => hapart a ha b hb (below_nameOf h)
  · exact fun h => hapart b hb a ha (below_nameOf h)

/-- A name that no entry is written to keeps what it had, unless it is taken out or in the way of
an entry. -/
lemma get?_overlay_of_notMem {name : Name} (h : name ∉ entries.map fun file => nameOf file.1) :
    (overlay base entries removals).get? name =
      if (∀ file ∈ entries, Forest.Clear slash (nameOf file.1) name) ∧
        name ∉ removals.map nameOf then (base.getD ∅).get? name else none := by
  have hnames : (entries.map (entryFor base)).map Prod.fst =
      entries.map fun file => nameOf file.1 := by
    rw [map_map]
    rfl
  have hiff : (∀ e ∈ entries.map (entryFor base), Forest.Clear slash e.1 name) ↔
      ∀ file ∈ entries, Forest.Clear slash (nameOf file.1) name := forall_mem_map
  rw [overlay_eq, Forest.get?_putAll_of_notMem _ (hnames ▸ h), Forest.get?_dropAll]
  by_cases hclear : ∀ file ∈ entries, Forest.Clear slash (nameOf file.1) name
  · rw [if_pos (hiff.2 hclear)]
    by_cases hremoved : name ∈ removals.map nameOf
    · rw [if_pos hremoved, if_neg fun h => h.2 hremoved]
    · rw [if_neg hremoved, if_pos ⟨hclear, hremoved⟩]
  · rw [if_neg fun h => hclear (hiff.1 h), if_neg fun h => hclear h.1]

section Commit
variable {digest : Bytes → String} {hashObject : Bytes → ω} {treeOf : γ → GitTree ω}
  {version : Version digest γ}

/-- The object of contents with a digest. -/
def BlobOf (digest : Bytes → String) (hashObject : Bytes → ω) (sha : String) (blob : ω) : Prop :=
  ∃ bytes, digest bytes = sha ∧ hashObject bytes = blob

/-- Every blob that is remembered has the digest it is remembered under. -/
def Chain.Stored (digest : Bytes → String) (hashObject : Bytes → ω) (chain : Chain ω γ) : Prop :=
  ∀ sha blob, chain.blobs.lookup sha = some blob → BlobOf digest hashObject sha blob

/-- What writing blobs leaves of a chain. -/
structure Chain.Grows (digest : Bytes → String) (hashObject : Bytes → ω)
    (chain after : Chain ω γ) : Prop where
  tip : after.tip = chain.tip
  known : after.known = chain.known
  stored : after.Stored digest hashObject

variable {path : Path} {record : FileRecord} {chain after : Chain ω γ} {repo : Repo treeOf}
  {tree : GitTree ω} {commit : γ}

/-- The bytes of a file have the digest of its record. -/
lemma digest_bytes {bytes : Bytes} (hfile : version.files.lookup path = some record)
    (h : version.bytes path record = .ok bytes) : digest bytes = record.sha := by
  unfold Version.bytes at h
  cases hkind : record.kind with
  | text =>
    rw [hkind] at h
    cases htext : version.texts.lookup path with
    | none => simp [htext] at h
    | some text =>
      obtain rfl : utf8 text = bytes := by simpa [htext] using h
      exact version.texts_verified path record text hfile hkind htext
  | asset =>
    rw [hkind] at h
    cases hasset : version.assets.lookup record.sha with
    | none => simp [hasset] at h
    | some asset =>
      obtain rfl : asset = bytes := by simpa [hasset] using h
      exact version.assets_verified _ _ hasset

lemma blob_spec {blob : ω} (hfile : version.files.lookup path = some record)
    (hstored : chain.Stored digest hashObject)
    (h : chain.blob hashObject version path record = .ok (blob, after)) :
    BlobOf digest hashObject record.sha blob ∧ chain.Grows digest hashObject after := by
  unfold Chain.blob at h
  cases hlookup : chain.blobs.lookup record.sha with
  | some id =>
    rw [hlookup] at h
    cases h
    exact ⟨hstored _ _ hlookup, rfl, rfl, hstored⟩
  | none =>
    rw [hlookup] at h
    obtain ⟨bytes, hbytes, h⟩ := bind_eq_ok.1 h
    cases h
    have hdigest := digest_bytes hfile hbytes
    refine ⟨⟨bytes, hdigest, rfl⟩, rfl, rfl, fun sha blob hsha => ?_⟩
    by_cases hsame : sha = record.sha
    · subst hsame
      rw [Finmap.lookup_insert] at hsha
      cases hsha
      exact ⟨bytes, hdigest, rfl⟩
    · rw [Finmap.lookup_insert_of_ne _ hsame] at hsha
      exact hstored sha blob hsha

/-- The entries of a version are its files that are not excluded, each with its blob. -/
lemma gather_spec {files : List (Path × FileRecord)}
    (hfiles : ∀ file ∈ files, version.files.lookup file.1 = some file.2)
    (hstored : chain.Stored digest hashObject)
    (h : chain.gather hashObject version files = .ok (entries, after)) :
    entries.map Prod.fst = (files.map Prod.fst).filter (· ∉ version.excluded) ∧
      (∀ entry ∈ entries, ∃ record, version.files.lookup entry.1 = some record ∧
        BlobOf digest hashObject record.sha entry.2) ∧
      chain.Grows digest hashObject after := by
  induction files generalizing chain entries with
  | nil =>
    cases h
    exact ⟨rfl, fun _ h => absurd h not_mem_nil, rfl, rfl, hstored⟩
  | cons file files ih =>
    obtain ⟨path, record⟩ := file
    rw [forall_mem_cons] at hfiles
    by_cases hexcluded : path ∈ version.excluded
    · rw [Chain.gather, if_pos hexcluded] at h
      rw [map_cons, filter_cons_of_neg (by simpa using hexcluded)]
      exact ih hfiles.2 hstored h
    · rw [Chain.gather, if_neg hexcluded] at h
      obtain ⟨⟨blob, middle⟩, hblob, h⟩ := bind_eq_ok.1 h
      obtain ⟨⟨entries, last⟩, hrest, h⟩ := bind_eq_ok.1 h
      cases h
      obtain ⟨hof, hgrows⟩ := blob_spec hfiles.1 hstored hblob
      obtain ⟨hpaths, hall, hlast⟩ := ih hfiles.2 hgrows.stored hrest
      rw [map_cons, map_cons, filter_cons_of_pos (by simpa using hexcluded), hpaths]
      exact ⟨rfl, forall_mem_cons.2 ⟨⟨record, hfiles.1, hof⟩, hall⟩,
        hlast.tip.trans hgrows.tip, hlast.known.trans hgrows.known, hlast.stored⟩

/-- A tree holds the files of a version that are not excluded, none of the known paths that the
version has dropped, and under the names that can stand beside the files what the tree it was
started from holds. -/
structure Version.Records (version : Version digest γ) (hashObject : Bytes → ω)
    (known : Finset Path) (base tree : GitTree ω) : Prop where
  files : ∀ path record, version.files.lookup path = some record → path ∉ version.excluded →
    ∃ bytes, digest bytes = record.sha ∧ tree.get? (nameOf path) =
      some ⟨if modeAt base path = some .executable then .executable else .file, hashObject bytes⟩
  dropped : ∀ path ∈ known, path ∉ version.files → path ∉ version.excluded →
    tree.get? (nameOf path) = none
  kept : ∀ name,
    (∀ path ∈ version.files, path ∉ version.excluded → Forest.Clear slash (nameOf path) name) →
    (∀ path ∈ known, path ∉ version.files → path ∉ version.excluded → nameOf path ≠ name) →
    tree.get? name = base.get? name

lemma mem_removals : path ∈ chain.removals version ↔
    path ∈ chain.known ∧ path ∉ version.files ∧ path ∉ version.excluded := by
  rw [Chain.removals, mem_filter, Finset.mem_sort, decide_eq_true_eq]

lemma written_spec {parents : List γ} (hstored : chain.Stored digest hashObject)
    (h : chain.written hashObject repo version = .ok (after, parents, tree)) :
    chain.Grows digest hashObject after ∧ version.Records hashObject chain.known
      (((repo.start chain.tip (version.pushed.filter repo.hasCommit)).1.map treeOf).getD ∅)
      tree := by
  obtain ⟨⟨entries, gathered⟩, hgather, h⟩ := bind_eq_ok.1 h
  cases h
  obtain ⟨hpaths, hall, hgrows⟩ :=
    gather_spec (fun _ => mem_listed.1) hstored hgather
  rw [keys_listed] at hpaths
  have hmem : ∀ path, path ∈ entries.map Prod.fst ↔
      path ∈ version.files ∧ path ∉ version.excluded := fun path => by
    rw [hpaths, mem_filter, mem_sortedKeys, decide_eq_true_eq]
  have hnodup : (entries.map Prod.fst).Nodup := hpaths ▸ (sortedKeys_nodup _).filter _
  have hfile : ∀ entry ∈ entries, entry.1 ∈ version.files ∧ entry.1 ∉ version.excluded :=
    fun entry hentry => (hmem entry.1).1 (mem_map_of_mem hentry)
  have hnames : ∀ name, (∀ path ∈ version.files, path ∉ version.excluded → nameOf path ≠ name) →
      name ∉ entries.map fun file => nameOf file.1 := by
    intro name hne hname
    obtain ⟨entry, hentry, rfl⟩ := mem_map.1 hname
    exact hne entry.1 (hfile entry hentry).1 (hfile entry hentry).2 rfl
  refine ⟨hgrows, ?_, ?_, ?_⟩
  · intro path record hlookup hexcluded
    obtain ⟨entry, hentry, rfl⟩ := mem_map.1
      ((hmem path).2 ⟨Finmap.mem_of_lookup_eq_some hlookup, hexcluded⟩)
    obtain ⟨_, hrecord, bytes, hdigest, hblob⟩ := hall entry hentry
    rw [hlookup] at hrecord
    cases hrecord
    refine ⟨bytes, hdigest, ?_⟩
    rw [get?_overlay_of_mem hnodup (fun a ha b hb =>
      version.apart a.1 (hfile a ha).1 b.1 (hfile b hb).1) hentry, hblob]
    rfl
  · intro path hknown hdropped hexcluded
    have hname := hnames (nameOf path) fun other hother _ heq => by
      rw [nameOf_injective heq] at hother
      exact hdropped hother
    rw [get?_overlay_of_notMem hname, if_neg fun h => h.2 (mem_map_of_mem
      (mem_removals.2 ⟨hknown, hdropped, hexcluded⟩))]
  · intro name hclear hdropped
    have hname := hnames name fun path hpath hexcluded heq =>
      (hclear path hpath hexcluded).1 heq.symm
    have hstays : (∀ entry ∈ entries, Forest.Clear slash (nameOf entry.1) name) ∧
        name ∉ (chain.removals version).map nameOf := by
      refine ⟨fun entry hentry => hclear _ (hfile entry hentry).1 (hfile entry hentry).2, ?_⟩
      intro hremoved
      obtain ⟨path, hpath, heq⟩ := mem_map.1 hremoved
      obtain ⟨hknown, hfile, hexcluded⟩ := mem_removals.1 hpath
      exact hdropped path hknown hfile hexcluded heq
    rw [get?_overlay_of_notMem hname, if_pos hstays]
    rfl

/-- How a commit was come by: made for a tree, pushed with it, or the tip that has it already. -/
inductive Chain.Answered (repo : Repo treeOf) (version : Version digest γ) (chain : Chain ω γ)
    (tree : GitTree ω) (commit : γ) : Prop where
  | made (parents : List γ) (h : commit = repo.commitTree tree parents)
  | adopted (pushed : version.pushed = some commit) (held : repo.hasCommit commit)
      (same : treeOf commit = tree)
  | unchanged (skip : version.skipIfUnchanged) (tip : chain.tip = some commit)
      (same : treeOf commit = tree)

variable [DecidableEq ω] [DecidableEq γ]

lemma commit_spec (hstored : chain.Stored digest hashObject)
    (h : chain.commit hashObject repo version = .ok (after, commit)) :
    ∃ gathered parents tree,
      chain.written hashObject repo version = .ok (gathered, parents, tree) ∧
      chain.Answered repo version tree commit ∧ after.tip = some commit ∧
      after.Stored digest hashObject ∧ chain.known ⊆ after.known ∧
      (version.skipIfUnchanged = false →
        after.known = chain.known ∪ (version.files.keys \ version.excluded)) := by
  obtain ⟨⟨gathered, parents, tree⟩, hwritten, h⟩ := bind_eq_ok.1 h
  obtain ⟨hgrows, -⟩ := written_spec hstored hwritten
  refine ⟨gathered, parents, tree, hwritten, ?_⟩
  dsimp only at h
  cases hskip : (if version.skipIfUnchanged then chain.tip else none).filter (treeOf · = tree) with
  | some tip =>
    rw [hskip] at h
    cases h
    obtain ⟨htip, hsame⟩ := Option.filter_eq_some_iff.1 hskip
    cases hflag : version.skipIfUnchanged with
    | false => simp [hflag] at htip
    | true =>
      rw [hflag, if_pos rfl] at htip
      exact ⟨.unchanged hflag htip (of_decide_eq_true hsame), hgrows.tip.trans htip, hgrows.stored,
        hgrows.known.ge, nofun⟩
  | none =>
    rw [hskip] at h
    cases h
    refine ⟨?_, rfl, hgrows.stored, hgrows.known ▸ Finset.subset_union_left,
      fun _ => by rw [← hgrows.known]⟩
    cases hadopted : (version.pushed.filter repo.hasCommit).filter fun own =>
        parents = [own] ∧ treeOf own = tree with
    | none => exact .made parents rfl
    | some own =>
      obtain ⟨hpushed, hsame⟩ := Option.filter_eq_some_iff.1 hadopted
      obtain ⟨hpushed, hheld⟩ := Option.filter_eq_some_iff.1 hpushed
      exact .adopted hpushed hheld (of_decide_eq_true hsame).2

end Commit

/-- The digest of no bytes as it is, and one that nothing is lost in for all others. -/
def plainDigest (bytes : Bytes) : String :=
  if bytes = [] then "e3b0c44298fc1c149afbf4c8996fb92427ae41e4649b934ca495991b7852b855"
  else String.ofList ('-' :: hex bytes)

/-- A tree whose objects are their bytes, and that is its own commit. -/
abbrev PlainTree := GitTree Bytes

def emptyText : FileRecord := ⟨.text, plainDigest []⟩

/-- The version with one empty text. -/
def oneFile (path : Path) (excluded : Finset Path) : Version plainDigest PlainTree where
  files := Finmap.singleton path emptyText
  texts := Finmap.singleton path []
  assets := ∅
  skipIfUnchanged := false
  pushed := none
  excluded := excluded
  texts_verified := by
    intro p found text h _ htext
    obtain rfl : p = path := by simpa using Finmap.mem_of_lookup_eq_some h
    rw [Finmap.lookup_singleton_eq] at h htext
    cases h
    cases htext
    rfl
  assets_verified := by
    intro sha bytes h
    simp at h
  apart := by
    intro p hp q hq h
    rw [Finmap.mem_singleton] at hp hq
    exact h.ne (hp.trans hq.symm)

end LibrePaper.Sync
