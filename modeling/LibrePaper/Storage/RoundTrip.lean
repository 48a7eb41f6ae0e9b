import LibrePaper.Library.Fallible
import LibrePaper.Storage.SourceArchive

/-!
# Source archives round-trip

What the encoder accepts is decoded to the same files, in the order of their paths, exactly
when the tar stream stays within the limit of the decoder; the encoder does not look at it.
-/
namespace LibrePaper.Storage
open Library Source List

/-- A file that the encoder accepts. -/
def Accepted (limits : ArchiveLimits) (file : SourceFile) : Prop :=
  lenUtf8 file.path ≤ 4096 ∧ relPath file.path = true ∧
    ∀ path bytes, file = .inline path bytes →
      bytes.length ≤ limits.inlineFileBytes ∧ isUtf8 bytes = true

section
variable {c : Crates} {limits : ArchiveLimits}

variable {path : Path} {logical n : ℕ} {files : List SourceFile} {found paths : List Path}
  {archive : SourceArchive} {e : EncodedArchive} {m : AList fun _ : Path => Bytes}
  {l : List (Path × Bytes)} {body : Bytes}

lemma validatePath_ok :
    validatePath c path = .ok () ↔ lenUtf8 path ≤ 4096 ∧ relPath path = true := by
  unfold validatePath invalid
  split_ifs with h
  · constructor
    · nofun
    · rintro ⟨hlen, hrel⟩
      rw [hrel, Bool.not_true, Bool.or_false, decide_eq_true_iff] at h
      exact absurd hlen (by omega)
  · rw [Bool.not_eq_true, Bool.or_eq_false_iff, decide_eq_false_iff_not, Bool.not_eq_false'] at h
    exact ⟨fun _ => ⟨by omega, h.2⟩, fun _ => rfl⟩

lemma checkFile_ok {file : SourceFile} (h : checkFile c limits logical file = .ok n) :
    Accepted limits file := by
  unfold checkFile at h
  obtain ⟨_, hpath, h⟩ := bind_eq_ok.1 h
  obtain ⟨hlen, hrel⟩ := validatePath_ok.1 hpath
  refine ⟨hlen, hrel, ?_⟩
  rintro path bytes rfl
  obtain ⟨hsize, h⟩ := else_of_ok h
  obtain ⟨hutf, _⟩ := else_of_ok h
  rw [Bool.not_eq_true, Bool.not_eq_false'] at hutf
  exact ⟨by omega, hutf⟩

lemma checkFiles_ok (h : checkFiles c limits logical files = .ok n) :
    ∀ file ∈ files, Accepted limits file := by
  induction files generalizing logical with
  | nil => nofun
  | cons file rest ih =>
    unfold checkFiles at h
    obtain ⟨m, hfile, hrest⟩ := bind_eq_ok.1 h
    intro f hf
    rcases mem_cons.1 hf with rfl | hf
    · exact checkFile_ok hfile
    · exact ih hrest f hf

lemma firstDuplicate_none (h : firstDuplicate found paths = none) :
    paths.Nodup ∧ ∀ p ∈ paths, p ∉ found := by
  induction paths generalizing found with
  | nil => exact ⟨nodup_nil, nofun⟩
  | cons path rest ih =>
    unfold firstDuplicate at h
    split_ifs at h with hmem
    obtain ⟨hnodup, hrest⟩ := ih h
    refine ⟨nodup_cons.2 ⟨fun hp => hrest path hp mem_cons_self, hnodup⟩, ?_⟩
    intro p hp
    rcases mem_cons.1 hp with rfl | hp
    · exact hmem
    · exact fun hf => hrest p hp (mem_cons_of_mem _ hf)

lemma firstDuplicate_of_nodup (hnodup : paths.Nodup) (h : ∀ p ∈ paths, p ∉ found) :
    firstDuplicate found paths = none := by
  induction paths generalizing found with
  | nil => rfl
  | cons path rest ih =>
    obtain ⟨hnot, hrest⟩ := nodup_cons.1 hnodup
    unfold firstDuplicate
    rw [if_neg (h path mem_cons_self)]
    refine ih hrest fun p hp => ?_
    rw [mem_cons, not_or]
    exact ⟨fun heq => hnot (heq ▸ hp), h p (mem_cons_of_mem _ hp)⟩

lemma rejectDuplicatePaths_ok : rejectDuplicatePaths c paths = .ok () ↔ paths.Nodup := by
  unfold rejectDuplicatePaths
  constructor
  · intro h
    cases hd : firstDuplicate [] paths with
    | none => exact (firstDuplicate_none hd).1
    | some p =>
      rw [hd] at h
      cases h
  · intro h
    rw [firstDuplicate_of_nodup h fun p _ hp => by cases hp]

lemma sorted_perm (files : List SourceFile) : (sorted files).Perm files :=
  perm_insertionSort _ files

lemma sorted_pairwise (files : List SourceFile) :
    (sorted files).Pairwise fun left right => left.path ≤ right.path := by
  have : Std.Total fun left right : SourceFile => left.path ≤ right.path :=
    ⟨fun a b => le_total a.path b.path⟩
  have : IsTrans SourceFile fun left right => left.path ≤ right.path :=
    ⟨fun _ _ _ h => le_trans h⟩
  exact pairwise_insertionSort _ files

/-- Files with different paths come in one order, however they were given. -/
lemma sorted_eq {other : List SourceFile} (h : other.Perm files)
    (hnodup : (files.map SourceFile.path).Nodup) : sorted other = sorted files := by
  have hperm : (sorted other).Perm (sorted files) :=
    ((sorted_perm other).trans h).trans (sorted_perm files).symm
  refine hperm.eq_of_pairwise ?_ (sorted_pairwise other) (sorted_pairwise files)
  intro a b ha hb hab hba
  have ha' : a ∈ files := ((sorted_perm other).trans h).mem_iff.1 ha
  have hb' : b ∈ files := (sorted_perm files).mem_iff.1 hb
  exact inj_on_of_nodup_map hnodup ha' hb' (le_antisymm hab hba)

/-- What an archive comes to that the encoder accepts. -/
structure Encoded (c : Crates) (archive : SourceArchive) (limits : ArchiveLimits)
    (e : EncodedArchive) : Prop where
  format : archive.sourceFormat ∈ formats
  count : archive.files.length ≤ limits.files
  nodup : ((sorted archive.files).map SourceFile.path).Nodup
  accepted : ∀ file ∈ sorted archive.files, Accepted limits file
  inline : inlineBytes (sorted archive.files) ≤ limits.sourceBytes
  bytes : e.bytes = c.compress (c.pack (membersOf c archive.sourceFormat (sorted archive.files)))
  compressed : e.bytes.length ≤ limits.archiveBytes

lemma validateFormat_ok {format : List Char} :
    validateFormat c format = .ok () ↔ format ∈ formats := by
  unfold validateFormat invalid
  split_ifs with h
  · exact ⟨fun _ => h, fun _ => rfl⟩
  · constructor
    · nofun
    · exact fun hf => absurd hf h

lemma encode_ok (h : encode c archive limits = .ok e) : Encoded c archive limits e := by
  unfold encode at h
  obtain ⟨_, hformat, h⟩ := bind_eq_ok.1 h
  obtain ⟨hcount, h⟩ := else_of_ok h
  obtain ⟨_, hdup, h⟩ := bind_eq_ok.1 h
  obtain ⟨logical, hfiles, h⟩ := bind_eq_ok.1 h
  obtain ⟨hinline, h⟩ := else_of_ok h
  obtain ⟨hsize, h⟩ := else_of_ok h
  cases h
  exact ⟨validateFormat_ok.1 hformat, by omega, rejectDuplicatePaths_ok.1 hdup,
    checkFiles_ok hfiles, by omega, rfl, Nat.not_lt.1 hsize⟩

lemma nodup_of_sorted (h : ((sorted files).map SourceFile.path).Nodup) :
    (files.map SourceFile.path).Nodup :=
  ((sorted_perm files).map _).nodup_iff.1 h

/-- The encoded bytes do not depend on the order of the files. -/
lemma encode_perm (h : encode c archive limits = .ok e) (hperm : files.Perm archive.files) :
    encode c ⟨archive.sourceFormat, files⟩ limits = .ok e := by
  have hsorted := sorted_eq hperm (nodup_of_sorted (encode_ok h).nodup)
  unfold encode at h ⊢
  dsimp only
  rw [hsorted, hperm.length_eq]
  exact h

/-- What passes the checks is encoded. -/
lemma encode_of (hformat : archive.sourceFormat ∈ formats)
    (hcount : archive.files.length ≤ limits.files)
    (hnodup : ((sorted archive.files).map SourceFile.path).Nodup)
    (hfiles : checkFiles c limits 0 (sorted archive.files) = .ok logical)
    (hinline : inlineBytes (sorted archive.files) ≤ limits.sourceBytes)
    (hsize : (c.compress (c.pack (membersOf c archive.sourceFormat
      (sorted archive.files)))).length ≤ limits.archiveBytes) :
    ∃ e, encode c archive limits = .ok e := by
  unfold encode
  rw [validateFormat_ok.2 hformat, ok_bind, if_neg (Nat.not_lt.2 hcount)]
  dsimp only
  rw [rejectDuplicatePaths_ok.2 hnodup, ok_bind, hfiles, ok_bind, if_neg (Nat.not_lt.2 hinline),
    if_neg (Nat.not_lt.2 hsize)]
  exact ⟨_, rfl⟩

/-- The map holds exactly these bodies. -/
def Holds (m : AList fun _ : Path => Bytes) (l : List (Path × Bytes)) : Prop :=
  ∀ path body, m.lookup path = some body ↔ (path, body) ∈ l

lemma Holds.notMem (h : Holds m l) (hp : path ∉ l.map Prod.fst) : path ∉ m := by
  intro hmem
  obtain ⟨body, hbody⟩ := Option.isSome_iff_exists.1 (AList.lookup_isSome.2 hmem)
  exact hp (mem_map.2 ⟨(path, body), (h path body).1 hbody, rfl⟩)

lemma Holds.insert (h : Holds m l) (hp : path ∉ l.map Prod.fst) :
    Holds (m.insert path body) (l ++ [(path, body)]) := by
  intro q b
  rw [mem_append, mem_singleton, Prod.mk.injEq]
  by_cases hq : q = path
  · subst hq
    rw [AList.lookup_insert, Option.some.injEq]
    constructor
    · exact fun hb => .inr ⟨rfl, hb.symm⟩
    · rintro (hmem | ⟨_, hb⟩)
      · exact absurd (mem_map.2 ⟨(q, b), hmem, rfl⟩) hp
      · exact hb.symm
  · rw [AList.lookup_insert_ne hq, h q b]
    exact ⟨.inl, fun hmem => hmem.resolve_right fun hb => hq hb.1⟩

lemma Holds.erase (h : Holds m ((path, body) :: l)) (hp : path ∉ l.map Prod.fst) :
    Holds (m.erase path) l := by
  intro q b
  by_cases hq : q = path
  · subst hq
    rw [AList.lookup_erase]
    constructor
    · nofun
    · exact fun hmem => absurd (mem_map.2 ⟨(q, b), hmem, rfl⟩) hp
  · rw [AList.lookup_erase_ne hq, h q b, mem_cons, Prod.mk.injEq]
    exact ⟨fun hmem => hmem.resolve_left fun hb => hq hb.1, .inr⟩

lemma Holds.entries_nil (h : Holds m []) : m.entries = [] := by
  cases he : m.entries with
  | nil => rfl
  | cons e rest =>
    have hl : m.lookup e.1 = some e.2 := AList.mem_lookup_iff.2 (by rw [he]; exact mem_cons_self)
    cases (h e.1 e.2).1 hl

/-- A member of the archive as it is read back. -/
def asRead (m : Path × Bytes) : Option TarEntry := some ⟨true, some m.1, m.2⟩

/-- A text file of the archive is put under its path. -/
lemma readMember_inline {m : Members} (hlen : lenUtf8 path ≤ 4096) (hrel : relPath path = true)
    (hnew : path ∉ m.inline) :
    readMember c m (FILE_PREFIX ++ path) body =
      .ok { m with inline := m.inline.insert path body } := by
  have hne : FILE_PREFIX ++ path ≠ MANIFEST_PATH := by nofun
  have hprefix : FILE_PREFIX.isPrefixOf (FILE_PREFIX ++ path) = true :=
    isPrefixOf_iff_prefix.2 (prefix_append _ _)
  have hdrop : (FILE_PREFIX ++ path).drop FILE_PREFIX.length = path := drop_left
  unfold readMember
  rw [if_neg hne, if_pos hprefix, hdrop]
  dsimp only
  rw [validatePath_ok.2 ⟨hlen, hrel⟩, ok_bind, if_neg hnew]

/-- The text files of the archive are read one after the other. -/
lemma readMembers_inline {files : List (Path × Bytes)} {done : List (Path × Bytes)} {m : Members}
    (hm : Holds m.inline done) (hnodup : ((done ++ files).map Prod.fst).Nodup)
    (hvalid : ∀ f ∈ files, lenUtf8 f.1 ≤ 4096 ∧ relPath f.1 = true) :
    ∃ m', readMembers c m (files.map fun f => asRead (FILE_PREFIX ++ f.1, f.2)) = .ok m' ∧
      m'.manifest = m.manifest ∧ Holds m'.inline (done ++ files) := by
  induction files generalizing m done with
  | nil => exact ⟨m, rfl, rfl, by rw [append_nil]; exact hm⟩
  | cons f files ih =>
    obtain ⟨hlen, hrel⟩ := hvalid f mem_cons_self
    have hf : f.1 ∉ done.map Prod.fst := by
      rw [map_append, map_cons, nodup_append] at hnodup
      intro hmem
      exact hnodup.2.2 _ hmem _ mem_cons_self rfl
    have hnew : f.1 ∉ m.inline := hm.notMem hf
    have hnodup' : (((done ++ [f]) ++ files).map Prod.fst).Nodup := by
      rw [append_assoc]
      exact hnodup
    have hinsert : Holds ({ m with inline := m.inline.insert f.1 f.2 } : Members).inline
        (done ++ [f]) := hm.insert hf
    obtain ⟨m', hread, hmanifest, hholds⟩ := ih hinsert hnodup'
      fun g hg => hvalid g (mem_cons_of_mem _ hg)
    refine ⟨m', ?_, hmanifest, by rw [append_assoc] at hholds; exact hholds⟩
    rw [map_cons]
    unfold readMembers asRead
    dsimp only
    rw [Bool.not_true, if_neg (by decide), readMember_inline hlen hrel hnew, ok_bind]
    exact hread

lemma parseDigest_hex (d : Digest) : parseDigest (hex d.1) = some d := by
  unfold parseDigest
  rw [unhex_hex, Option.bind_some, dif_pos d.2]

lemma manifestFile_path (file : SourceFile) : (manifestFile c file).path = file.path := by
  cases file
  all_goals rfl

lemma inlineFiles_fst_sublist (files : List SourceFile) :
    ((inlineFiles files).map Prod.fst).Sublist (files.map SourceFile.path) := by
  induction files with
  | nil => exact Sublist.refl _
  | cons file files ih =>
    cases file with
    | inline path bytes => exact ih.cons_cons path
    | asset path assetId digest bytes mediaType => exact ih.cons path

/-- The manifest and the bodies come to the files again. -/
lemma readFiles_manifest {files : List SourceFile} {m : AList fun _ : Path => Bytes} {total : ℕ}
    (hm : Holds m (inlineFiles files)) (hnodup : (files.map SourceFile.path).Nodup)
    (hvalid : ∀ f ∈ files, Accepted limits f) :
    ∃ total' left, readFiles c m total (files.map (manifestFile c)) = .ok (files, total', left) ∧
      left.entries = [] ∧ total' ≤ total + inlineBytes files := by
  induction files generalizing m total with
  | nil => exact ⟨total, m, rfl, hm.entries_nil, Nat.le_add_right _ _⟩
  | cons file files ih =>
    obtain ⟨hlen, hrel, hbody⟩ := hvalid file mem_cons_self
    obtain ⟨hnot, hrest⟩ := nodup_cons.1 hnodup
    have hpath : validatePath c (manifestFile c file).path = .ok () := by
      rw [manifestFile_path]
      exact validatePath_ok.2 ⟨hlen, hrel⟩
    have hvalid' : ∀ f ∈ files, Accepted limits f := fun f hf => hvalid f (mem_cons_of_mem _ hf)
    cases file with
    | inline path bytes =>
      have hl : m.lookup path = some bytes := (hm path bytes).2 mem_cons_self
      have hfresh : path ∉ (inlineFiles files).map Prod.fst :=
        fun hmem => hnot ((inlineFiles_fst_sublist files).subset hmem)
      have hread : readFile c m (manifestFile c (.inline path bytes)) =
          .ok (.inline path bytes, bytes.length, m.erase path) := by
        unfold readFile manifestFile
        dsimp only
        rw [hl]
        dsimp only
        rw [if_neg (by simp), (hbody path bytes rfl).2, Bool.not_true, if_neg (by decide)]
      obtain ⟨total', left, hrun, hleft, hle⟩ :=
        @ih (m.erase path) (saturatingAdd total bytes.length) (hm.erase hfresh) hrest hvalid'
      refine ⟨total', left, ?_, hleft, ?_⟩
      · rw [map_cons]
        unfold readFiles
        rw [hpath, ok_bind, hread, ok_bind]
        dsimp only
        rw [hrun, ok_bind]
      · have hsat : saturatingAdd total bytes.length ≤ total + bytes.length := min_le_left _ _
        have hsum : inlineBytes (.inline path bytes :: files) =
            bytes.length + inlineBytes files := rfl
        omega
    | asset path assetId digest bytes mediaType =>
      have hread : readFile c m (manifestFile c (.asset path assetId digest bytes mediaType)) =
          .ok (.asset path assetId digest bytes mediaType, 0, m) := by
        unfold readFile manifestFile
        dsimp only
        rw [parseDigest_hex]
      obtain ⟨total', left, hrun, hleft, hle⟩ := @ih m (saturatingAdd total 0) hm hrest hvalid'
      refine ⟨total', left, ?_, hleft, ?_⟩
      · rw [map_cons]
        unfold readFiles
        rw [hpath, ok_bind, hread, ok_bind]
        dsimp only
        rw [hrun, ok_bind]
      · have hsat : saturatingAdd total 0 ≤ total + 0 := min_le_left _ _
        have hsum : inlineBytes (.asset path assetId digest bytes mediaType :: files) =
            inlineBytes files := rfl
        omega

end

/-- A manifest entry, but for its digest, which always takes 64 characters. -/
def stated : SourceFile → ManifestFile
  | .inline path bytes => .inline path (hex (List.replicate 32 0)) bytes.length
  | .asset path assetId _ bytes mediaType =>
    .asset path assetId (hex (List.replicate 32 0)) bytes mediaType

def manifestBytes (format : List Char) (files : List SourceFile) : ℕ :=
  lenUtf8 (Manifest.json ⟨ARCHIVE_FORMAT_VERSION, format, files.map stated⟩)

/-- The length of the tar stream. -/
def streamBytes (archive : SourceArchive) : ℕ :=
  Tar.size ((lenUtf8 MANIFEST_PATH, manifestBytes archive.sourceFormat (sorted archive.files)) ::
    (inlineFiles (sorted archive.files)).map fun f => (lenUtf8 (FILE_PREFIX ++ f.1), f.2.length))

section
variable {c : Crates} {limits : ArchiveLimits}

/-- Each item but the last has a comma after it. -/
lemma width_commas (l : List (List Char)) : width Char.utf8Size (commas l) =
    (l.map (width Char.utf8Size)).sum + (l.length - 1) := by
  induction l with
  | nil => rfl
  | cons text l ih =>
    cases l with
    | nil => rfl
    | cons next l =>
      have hcomma : ','.utf8Size = 1 := rfl
      unfold commas
      rw [width_append, width_cons, ih, hcomma]
      simp only [map_cons, sum_cons, length_cons, Nat.add_sub_cancel]
      omega

lemma width_manifestFile (file : SourceFile) :
    lenUtf8 (manifestFile c file).json = lenUtf8 (stated file).json := by
  unfold lenUtf8
  cases file with
  | inline path bytes =>
    have hd := (c.digest bytes).2
    unfold manifestFile stated ManifestFile.json
    simp only [width_append, width_quoted_hex, hd, length_replicate]
  | asset path assetId digest bytes mediaType =>
    have hd := digest.2
    unfold manifestFile stated ManifestFile.json
    simp only [width_append, width_quoted_hex, hd, length_replicate]

lemma width_manifestOf (format : List Char) (files : List SourceFile) :
    lenUtf8 (manifestOf c format files).json = manifestBytes format files := by
  unfold manifestBytes manifestOf Manifest.json lenUtf8
  simp only [width_append]
  have hfiles : width Char.utf8Size (commas ((files.map (manifestFile c)).map ManifestFile.json)) =
      width Char.utf8Size (commas ((files.map stated).map ManifestFile.json)) := by
    rw [width_commas, width_commas]
    simp only [map_map, length_map]
    congr 2
    exact map_congr_left fun file _ => width_manifestFile file
  rw [hfiles]

/-- What is assumed of the crates for one archive: the tar stream has the blocks of its format,
and each of the three layers reads back what it wrote. A byte sequence fits into memory. -/
structure Lossless (c : Crates) (archive : SourceArchive) : Prop where
  size : ∀ members, (c.pack members).length =
    Tar.size (members.map fun m => (lenUtf8 m.1, m.2.length))
  members : c.unpack (c.pack (membersOf c archive.sourceFormat (sorted archive.files))) =
    (membersOf c archive.sourceFormat (sorted archive.files)).map asRead
  stream : c.decompress (c.compress (c.pack (membersOf c archive.sourceFormat
      (sorted archive.files)))) =
    some (c.pack (membersOf c archive.sourceFormat (sorted archive.files)))
  manifest : c.parse (utf8 (manifestOf c archive.sourceFormat (sorted archive.files)).json) =
    some (manifestOf c archive.sourceFormat (sorted archive.files))
  fits : (c.pack (membersOf c archive.sourceFormat (sorted archive.files))).length ≤ usizeMax

variable {archive : SourceArchive} {e : EncodedArchive}

lemma Lossless.length (h : Lossless c archive) :
    (c.pack (membersOf c archive.sourceFormat (sorted archive.files))).length =
      streamBytes archive := by
  rw [h.size]
  unfold membersOf streamBytes
  rw [map_cons, map_map, length_utf8]
  have hm := width_manifestOf (c := c) archive.sourceFormat (sorted archive.files)
  unfold lenUtf8 at hm ⊢
  rw [hm]
  rfl

/-- The decoder reads the members of the stream back. -/
lemma readMembers_membersOf (h : Lossless c archive) (he : Encoded c archive limits e) :
    ∃ m, readMembers c {} ((membersOf c archive.sourceFormat (sorted archive.files)).map asRead) =
        .ok m ∧
      m.manifest = some (manifestOf c archive.sourceFormat (sorted archive.files)) ∧
      Holds m.inline (inlineFiles (sorted archive.files)) := by
  have hempty : Holds (∅ : AList fun _ : Path => Bytes) [] := by
    intro path body
    constructor
    · nofun
    · nofun
  have hnodup : (([] ++ inlineFiles (sorted archive.files)).map Prod.fst).Nodup :=
    he.nodup.sublist (inlineFiles_fst_sublist _)
  have hvalid : ∀ f ∈ inlineFiles (sorted archive.files),
      lenUtf8 f.1 ≤ 4096 ∧ relPath f.1 = true := by
    intro f hf
    obtain ⟨file, hfile, hinline⟩ := mem_filterMap.1 hf
    obtain ⟨hlen, hrel, _⟩ := he.accepted file hfile
    cases file with
    | inline path bytes =>
      cases hinline
      exact ⟨hlen, hrel⟩
    | asset path assetId digest bytes mediaType => cases hinline
  obtain ⟨m, hread, hmanifest, hholds⟩ := readMembers_inline (c := c)
    (m := { manifest := some (manifestOf c archive.sourceFormat (sorted archive.files)) })
    hempty hnodup hvalid
  refine ⟨m, ?_, hmanifest, hholds⟩
  unfold membersOf asRead
  rw [map_cons, map_map]
  unfold readMembers readMember
  dsimp only
  rw [Bool.not_true, if_neg (by decide), if_pos rfl, if_neg (by decide), h.manifest]
  exact hread

/-- What the encoder accepts is put together again. -/
lemma assemble_ok {m : Members} (he : Encoded c archive limits e)
    (hmanifest : m.manifest = some (manifestOf c archive.sourceFormat (sorted archive.files)))
    (hholds : Holds m.inline (inlineFiles (sorted archive.files))) :
    assemble c limits m = .ok ⟨archive.sourceFormat, sorted archive.files⟩ := by
  obtain ⟨total, left, hrun, hleft, hle⟩ :=
    @readFiles_manifest c _ _ _ 0 hholds he.nodup he.accepted
  have hcount : ¬limits.files < ((sorted archive.files).map (manifestFile c)).length := by
    rw [length_map, (sorted_perm archive.files).length_eq]
    exact Nat.not_lt.2 he.count
  have hpaths : ((sorted archive.files).map (manifestFile c)).map ManifestFile.path =
      (sorted archive.files).map SourceFile.path := by
    rw [map_map]
    exact map_congr_left fun file _ => manifestFile_path file
  have htotal : ¬limits.sourceBytes < total := by
    have := he.inline
    omega
  unfold assemble manifestOf at *
  rw [hmanifest]
  dsimp only
  rw [if_neg (by simp), validateFormat_ok.2 he.format, ok_bind, if_neg hcount, hpaths,
    rejectDuplicatePaths_ok.2 he.nodup, ok_bind, hrun, ok_bind]
  dsimp only
  rw [if_neg (by simp [hleft]), if_neg htotal]

/-- The encoded archive is read back to the files in the order of their paths. -/
def ReadsBack (c : Crates) (archive : SourceArchive) (limits : ArchiveLimits)
    (e : EncodedArchive) : Prop :=
  ∃ files, decode c e.bytes limits = .ok ⟨archive.sourceFormat, files⟩ ∧
    files.Perm archive.files ∧ files.Pairwise fun left right => left.path < right.path

lemma decompress_encoded (h : Lossless c archive) (he : Encoded c archive limits e) :
    c.decompress e.bytes =
      some (c.pack (membersOf c archive.sourceFormat (sorted archive.files))) := by
  rw [he.bytes]
  exact h.stream

/-- A stream over the limit of the decoder is refused, though the encoder has made it. -/
lemma decode_too_large (h : Lossless c archive) (he : Encoded c archive limits e)
    (hbig : expandedLimit limits < streamBytes archive) :
    decode c e.bytes limits = invalid "expanded source archive exceeds limit" := by
  have hlen := h.length
  have hfits := h.fits
  unfold decode
  rw [if_neg (Nat.not_lt.2 he.compressed), decompress_encoded h he]
  apply if_pos
  rw [length_take]
  unfold saturatingAdd
  omega

lemma readsBack_iff (h : Lossless c archive) (he : Encoded c archive limits e) :
    ReadsBack c archive limits e ↔ streamBytes archive ≤ expandedLimit limits := by
  have hlen := h.length
  have hfits := h.fits
  constructor
  · rintro ⟨files, hdec, _⟩
    by_contra hbig
    rw [decode_too_large h he (Nat.lt_of_not_le hbig)] at hdec
    cases hdec
  · intro hle
    obtain ⟨m, hm, hmanifest, hholds⟩ := readMembers_membersOf h he
    have htake : (c.pack (membersOf c archive.sourceFormat (sorted archive.files))).take
        (saturatingAdd (expandedLimit limits) 1) =
        c.pack (membersOf c archive.sourceFormat (sorted archive.files)) := by
      apply take_of_length_le
      unfold saturatingAdd
      omega
    refine ⟨sorted archive.files, ?_, sorted_perm _, ?_⟩
    · unfold decode
      rw [if_neg (Nat.not_lt.2 he.compressed), decompress_encoded h he]
      dsimp only
      rw [htake, if_neg (by omega), h.members, hm, ok_bind]
      exact assemble_ok he hmanifest hholds
    · have hle := sorted_pairwise archive.files
      have hne : (sorted archive.files).Pairwise fun left right => left.path ≠ right.path :=
        pairwise_map.1 he.nodup
      exact (hle.and hne).imp fun hab => lt_of_le_of_ne hab.1 hab.2

/-- An archive that the encoder accepts is read back to the same files in the order of their
paths, and does not depend on the order in which they were given, exactly when its tar stream
stays within the limit of the decoder. -/
theorem archive_round_trips {archive : SourceArchive} {e : EncodedArchive}
    (h : Lossless c archive) (henc : encode c archive limits = .ok e) :
    (ReadsBack c archive limits e ∧ ∀ files, files.Perm archive.files →
      encode c ⟨archive.sourceFormat, files⟩ limits = .ok e) ↔
      streamBytes archive ≤ expandedLimit limits := by
  rw [readsBack_iff h (encode_ok henc)]
  exact ⟨And.left, fun hle => ⟨hle, fun _ => encode_perm henc⟩⟩

end

/-- Tar as its format describes it, and a stand-in for the compression that stores its input. -/
def written (digest : Bytes → Digest) : Crates where
  pack := Tar.pack
  unpack _ := []
  compress bytes := bytes
  decompress := some
  parse _ := none
  digest := digest
  debug path := "\"" ++ String.ofList path ++ "\""

/-- The same crates, which read back what they wrote for one archive. -/
def reading (digest : Bytes → Digest) (archive : SourceArchive) : Crates :=
  let members := membersOf (written digest) archive.sourceFormat (sorted archive.files)
  let manifest := manifestOf (written digest) archive.sourceFormat (sorted archive.files)
  { written digest with
    unpack := fun bytes => if bytes = Tar.pack members then members.map asRead else []
    parse := fun bytes => if bytes = utf8 manifest.json then some manifest else none }

lemma manifestOf_reading (digest : Bytes → Digest) (archive : SourceArchive)
    (files : List SourceFile) : manifestOf (reading digest archive) archive.sourceFormat files =
      manifestOf (written digest) archive.sourceFormat files := by
  have hfile : manifestFile (reading digest archive) = manifestFile (written digest) := by
    funext file
    cases file
    all_goals rfl
  unfold manifestOf
  rw [hfile]

lemma membersOf_reading (digest : Bytes → Digest) (archive : SourceArchive)
    (files : List SourceFile) : membersOf (reading digest archive) archive.sourceFormat files =
      membersOf (written digest) archive.sourceFormat files := by
  unfold membersOf
  rw [manifestOf_reading]

lemma reading_unpack (digest : Bytes → Digest) (archive : SourceArchive) (bytes : Bytes)
    (h : bytes = Tar.pack (membersOf (written digest) archive.sourceFormat
      (sorted archive.files))) : (reading digest archive).unpack bytes =
      (membersOf (written digest) archive.sourceFormat (sorted archive.files)).map asRead :=
  if_pos h

lemma reading_parse (digest : Bytes → Digest) (archive : SourceArchive) (bytes : Bytes)
    (h : bytes = utf8 (manifestOf (written digest) archive.sourceFormat
      (sorted archive.files)).json) : (reading digest archive).parse bytes =
      some (manifestOf (written digest) archive.sourceFormat (sorted archive.files)) :=
  if_pos h

lemma reading_stream (digest : Bytes → Digest) (archive : SourceArchive) (bytes : Bytes) :
    (reading digest archive).decompress ((reading digest archive).compress bytes) = some bytes :=
  rfl

lemma reading_pack (digest : Bytes → Digest) (archive : SourceArchive) :
    (reading digest archive).pack = Tar.pack := rfl

lemma reading_lossless (digest : Bytes → Digest) (archive : SourceArchive)
    (hfits : streamBytes archive ≤ usizeMax) : Lossless (reading digest archive) archive := by
  have hlength : (Tar.pack (membersOf (written digest) archive.sourceFormat
      (sorted archive.files))).length = streamBytes archive := by
    rw [Tar.length_pack]
    unfold membersOf streamBytes
    rw [map_cons, map_map, length_utf8]
    have hm := width_manifestOf (c := written digest) archive.sourceFormat (sorted archive.files)
    unfold lenUtf8 at hm ⊢
    rw [hm]
    rfl
  refine ⟨Tar.length_pack, ?_, ?_, ?_, ?_⟩
  · rw [membersOf_reading, reading_pack, reading_unpack digest archive _ rfl]
  · exact reading_stream digest archive _
  · rw [manifestOf_reading, reading_parse digest archive _ rfl]
  · rw [membersOf_reading, reading_pack, hlength]
    exact hfits

/-- The digests of the bodies of the examples. -/
def noteDigest (bytes : Bytes) : Digest :=
  if bytes = [] then
    ⟨[227, 176, 196, 66, 152, 252, 28, 20, 154, 251, 244, 200, 153, 111, 185, 36, 39, 174, 65, 228,
      100, 155, 147, 76, 164, 149, 153, 27, 120, 82, 184, 85], rfl⟩
  else
    ⟨[152, 234, 110, 79, 33, 111, 47, 180, 182, 159, 255, 155, 58, 68, 132, 44, 56, 104, 108, 166,
      133, 243, 245, 93, 196, 140, 93, 63, 177, 16, 123, 228], rfl⟩

def noteArchive : SourceArchive :=
  ⟨"markdown".toList, [.asset "plot.png".toList 7 ⟨List.replicate 32 9, rfl⟩ 2000000
    "image/png".toList, .inline "note.md".toList [104, 105, 10]]⟩

lemma noteArchive_encodes :
    (encode (reading noteDigest noteArchive) noteArchive {}).isOk = true ∧
      streamBytes noteArchive ≤ usizeMax ∧ streamBytes noteArchive ≤ expandedLimit {} := by
  decide +kernel

/-- A note and a figure are read back, the note first. -/
theorem archive_round_trips_note : ∃ e,
    encode (reading noteDigest noteArchive) noteArchive {} = .ok e ∧
    ReadsBack (reading noteDigest noteArchive) noteArchive {} e := by
  cases h : encode (reading noteDigest noteArchive) noteArchive {} with
  | error error =>
    have hok := noteArchive_encodes.1
    rw [h] at hok
    cases hok
  | ok e =>
    have hlossless : Lossless (reading noteDigest noteArchive) noteArchive :=
      reading_lossless _ _ noteArchive_encodes.2.1
    exact ⟨e, rfl, ((archive_round_trips hlossless h).2 noteArchive_encodes.2.2).1⟩

section
variable {c : Crates} {limits : ArchiveLimits} {files : List SourceFile}
  {archive : SourceArchive}

/-- A file that the decoder gives out. -/
def Given (file : SourceFile) : Prop :=
  lenUtf8 file.path ≤ 4096 ∧ relPath file.path = true ∧
    ∀ path bytes, file = .inline path bytes → isUtf8 bytes = true

lemma readFile_ok {inline left : AList fun _ : Path => Bytes} {listed : ManifestFile}
    {file : SourceFile} {n : ℕ} (h : readFile c inline listed = .ok (file, n, left)) :
    file.path = listed.path ∧ n = inlineBytes [file] ∧
      ∀ path bytes, file = .inline path bytes → isUtf8 bytes = true := by
  cases listed with
  | inline path digest bytes =>
    unfold readFile at h
    dsimp only at h
    split at h
    · cases h
    · obtain ⟨hmatch, h⟩ := else_of_ok h
      obtain ⟨hutf8, h⟩ := else_of_ok h
      cases h
      refine ⟨rfl, (not_not.1 (not_or.1 hmatch).1).symm, fun p b heq => ?_⟩
      cases heq
      simpa using hutf8
  | asset path assetId digest bytes mediaType =>
    unfold readFile at h
    dsimp only at h
    split at h
    · cases h
    · cases h
      exact ⟨rfl, rfl, fun p b heq => by cases heq⟩

lemma readFiles_ok {inline left : AList fun _ : Path => Bytes} {listed : List ManifestFile}
    {total out : ℕ} (htotal : total ≤ usizeMax)
    (h : readFiles c inline total listed = .ok (files, out, left)) :
    files.map SourceFile.path = listed.map ManifestFile.path ∧ (∀ file ∈ files, Given file) ∧
      out = saturatingAdd total (inlineBytes files) := by
  induction listed generalizing inline total files with
  | nil =>
    cases h
    exact ⟨rfl, fun _ hf => absurd hf not_mem_nil, (min_eq_left htotal).symm⟩
  | cons file listed ih =>
    unfold readFiles at h
    obtain ⟨_, hpath, h⟩ := bind_eq_ok.1 h
    obtain ⟨⟨read, n, next⟩, hread, h⟩ := bind_eq_ok.1 h
    obtain ⟨⟨rest, sum, last⟩, hrest, h⟩ := bind_eq_ok.1 h
    cases h
    obtain ⟨hsame, rfl, hutf8⟩ := readFile_ok hread
    obtain ⟨hlen, hrel⟩ := validatePath_ok.1 hpath
    obtain ⟨hpaths, hgiven, hsum⟩ := ih (min_le_right _ _) hrest
    refine ⟨congrArg₂ cons hsame hpaths, forall_mem_cons.2 ⟨?_, hgiven⟩, ?_⟩
    · exact ⟨hsame ▸ hlen, hsame ▸ hrel, hutf8⟩
    · have hcons : inlineBytes (read :: rest) = inlineBytes [read] + inlineBytes rest := by
        simp only [inlineBytes, inlineFiles, filterMap_cons, filterMap_nil]
        cases inlineFile read <;> simp
      rw [hsum, hcons]
      simp only [saturatingAdd]
      omega

/-- Whatever the stream holds, an archive that is decoded is of a known format, has no more files
than allowed, all with different paths that a project may have, its text files are texts, and they
take no more than allowed. -/
theorem decode_well_formed {bytes : Bytes} (h : decode c bytes limits = .ok archive) :
    archive.sourceFormat ∈ formats ∧ archive.files.length ≤ limits.files ∧
      (archive.files.map SourceFile.path).Nodup ∧ (∀ file ∈ archive.files, Given file) ∧
        min (inlineBytes archive.files) usizeMax ≤ limits.sourceBytes := by
  unfold decode at h
  obtain ⟨-, h⟩ := else_of_ok h
  split at h
  · cases h
  · dsimp only at h
    obtain ⟨-, h⟩ := else_of_ok h
    obtain ⟨m, -, h⟩ := bind_eq_ok.1 h
    unfold assemble at h
    split at h
    · cases h
    · obtain ⟨-, h⟩ := else_of_ok h
      obtain ⟨_, hformat, h⟩ := bind_eq_ok.1 h
      obtain ⟨hcount, h⟩ := else_of_ok h
      obtain ⟨_, hpaths, h⟩ := bind_eq_ok.1 h
      obtain ⟨⟨files, total, left⟩, hfiles, h⟩ := bind_eq_ok.1 h
      obtain ⟨-, h⟩ := else_of_ok h
      obtain ⟨hbytes, h⟩ := else_of_ok h
      cases h
      obtain ⟨hsame, hgiven, rfl⟩ := readFiles_ok (Nat.zero_le _) hfiles
      have hlength := congrArg length hsame
      rw [length_map, length_map] at hlength
      refine ⟨validateFormat_ok.1 hformat, hlength.le.trans (not_lt.1 hcount), ?_, hgiven, ?_⟩
      · rw [hsame]
        exact rejectDuplicatePaths_ok.1 hpaths
      · rwa [saturatingAdd, Nat.zero_add, not_lt] at hbytes

/-- The note and the figure are decoded, under different paths. -/
theorem decode_well_formed_note : ∃ bytes archive,
    decode (reading noteDigest noteArchive) bytes {} = .ok archive ∧
      (archive.files.map SourceFile.path).Nodup := by
  cases h : encode (reading noteDigest noteArchive) noteArchive {} with
  | error error =>
    have hok := noteArchive_encodes.1
    rw [h] at hok
    cases hok
  | ok e =>
    obtain ⟨files, hdecode, -⟩ := (readsBack_iff (reading_lossless _ _ noteArchive_encodes.2.1)
      (encode_ok h)).2 noteArchive_encodes.2.2
    exact ⟨e.bytes, _, hdecode, (decode_well_formed hdecode).2.2.1⟩

end

/-- A name of 4096 bytes, almost all of which are escaped in the manifest. -/
def longName (i : ℕ) : Path := Char.ofNat (0x4e00 + i) :: List.replicate 4093 '"'

def longNames (n : ℕ) : List SourceFile := (List.range n).map fun i => .inline (longName i) []

def longArchive (n : ℕ) : SourceArchive := ⟨"markdown".toList, longNames n⟩

lemma longArchive_files (n : ℕ) : (longArchive n).files = longNames n := rfl

lemma first_read : ∀ i < 1000, (Char.ofNat (0x4e00 + i)).toNat = 0x4e00 + i ∧
    (Char.ofNat (0x4e00 + i)).utf8Size = 3 ∧
    escapeJson (Char.ofNat (0x4e00 + i)) = [Char.ofNat (0x4e00 + i)] := by
  decide +kernel

lemma first_toNat (i : ℕ) (hi : i < 1000) : (Char.ofNat (0x4e00 + i)).toNat = 0x4e00 + i :=
  (first_read i hi).1

lemma first_utf8Size (i : ℕ) (hi : i < 1000) : (Char.ofNat (0x4e00 + i)).utf8Size = 3 :=
  (first_read i hi).2.1

lemma width_replicate (n : ℕ) (ch : Char) :
    width Char.utf8Size (replicate n ch) = n * ch.utf8Size := by
  induction n with
  | zero => rw [replicate_zero, width_nil, Nat.zero_mul]
  | succ n ih => rw [replicate_succ, width_cons, ih, Nat.succ_mul, Nat.add_comm]

variable {i n : ℕ} {file : SourceFile} {c : Crates} {files : List SourceFile}

lemma longName_width (hi : i < 1000) : lenUtf8 (longName i) = 4096 := by
  unfold lenUtf8 longName
  rw [width_cons, width_replicate, first_utf8Size i hi]
  decide

lemma longName_chars (hi : i < 1000) {ch : Char} (h : ch ∈ longName i) :
    ch = '"' ∨ 0x4e00 ≤ ch.toNat := by
  unfold longName at h
  rcases mem_cons.1 h with rfl | h
  · right
    rw [first_toNat i hi]
    omega
  · exact .inl (eq_of_mem_replicate h)

lemma longName_relPath (hi : i < 1000) : relPath (longName i) = true := by
  have hslash : '/' ∉ longName i := by
    intro hmem
    rcases longName_chars hi hmem with h | h
    · cases h
    · exact absurd h (by decide)
  have hback : '\\' ∉ longName i := by
    intro hmem
    rcases longName_chars hi hmem with h | h
    · cases h
    · exact absurd h (by decide)
  have hcontrol : (longName i).any (fun ch => ch.toNat < 0x20 || ch.toNat == 0x7f) = false := by
    rw [any_eq_false]
    intro ch hch
    rw [Bool.or_eq_true, decide_eq_true_iff, beq_iff_eq]
    rcases longName_chars hi hch with rfl | h
    · decide
    · omega
  have hhead : ((longName i).head? != some '/') = true := by
    rw [bne_iff_ne]
    intro heq
    exact hslash (mem_of_mem_head? heq)
  unfold relPath
  rw [hcontrol, hhead, splitOn_eq_singleton hslash,
    contains_iff_mem.not.2 hback |> Bool.eq_false_iff.2]
  obtain ⟨a, rest, hname⟩ : ∃ a rest, longName i = a :: '"' :: rest := ⟨_, _, rfl⟩
  rw [hname]
  simp

lemma longName_injective {j : ℕ} (hi : i < 1000) (hj : j < 1000) (h : longName i = longName j) :
    i = j := by
  have hfirst : Char.ofNat (0x4e00 + i) = Char.ofNat (0x4e00 + j) := (cons.inj h).1
  have hnat := congrArg Char.toNat hfirst
  rw [first_toNat i hi, first_toNat j hj] at hnat
  omega

lemma longNames_nodup (hn : n ≤ 1000) : ((longNames n).map SourceFile.path).Nodup := by
  unfold longNames
  rw [map_map]
  refine Nodup.map_on ?_ nodup_range
  intro i hi j hj h
  exact longName_injective ((mem_range.1 hi).trans_le hn) ((mem_range.1 hj).trans_le hn) h

lemma mem_longNames (h : file ∈ longNames n) : ∃ i < n, file = .inline (longName i) [] := by
  obtain ⟨i, hi, rfl⟩ := mem_map.1 h
  exact ⟨i, mem_range.1 hi, rfl⟩

/-- A file that takes no bytes and whose name may stand is accepted. -/
lemma checkFile_empty (hi : i < 1000) : checkFile c {} 0 (.inline (longName i) []) = .ok 0 := by
  have hpath : validatePath c (SourceFile.inline (longName i) []).path = .ok () :=
    validatePath_ok.2 ⟨(longName_width hi).le, longName_relPath hi⟩
  unfold checkFile
  rw [hpath]
  rfl

lemma checkFiles_empty (hn : n ≤ 1000)
    (h : ∀ file ∈ files, ∃ i < n, file = .inline (longName i) []) :
    checkFiles c {} 0 files = .ok 0 := by
  induction files with
  | nil => rfl
  | cons file files ih =>
    obtain ⟨i, hi, rfl⟩ := h file mem_cons_self
    unfold checkFiles
    rw [checkFile_empty (hi.trans_le hn), ok_bind]
    exact ih fun f hf => h f (mem_cons_of_mem _ hf)

/-- The names of the archive, without bodies, are what the stream holds after the manifest. -/
lemma inlineFiles_empty (h : ∀ file ∈ files, ∃ i < n, file = .inline (longName i) []) :
    inlineFiles files = files.map fun file => (file.path, []) := by
  induction files with
  | nil => rfl
  | cons file files ih =>
    obtain ⟨i, _, rfl⟩ := h file mem_cons_self
    have hrest := ih fun f hf => h f (mem_cons_of_mem _ hf)
    unfold inlineFiles at hrest ⊢
    rw [filterMap_cons_some (by rfl), hrest]
    rfl

lemma escapeJson_first (i : ℕ) (hi : i < 1000) :
    escapeJson (Char.ofNat (0x4e00 + i)) = [Char.ofNat (0x4e00 + i)] :=
  (first_read i hi).2.2

lemma width_escaped (n : ℕ) :
    width Char.utf8Size ((replicate n '"').flatMap escapeJson) = 2 * n := by
  induction n with
  | zero => rfl
  | succ n ih =>
    have hquote : width Char.utf8Size (escapeJson '"') = 2 := by decide
    rw [replicate_succ, flatMap_cons, width_append, ih, hquote]
    omega

/-- A name of 4096 bytes takes almost twice as many in the manifest. -/
lemma width_stated (hi : i < 1000) :
    width Char.utf8Size (stated (.inline (longName i) [])).json = 8302 := by
  have hname : width Char.utf8Size (quoted (longName i)) = 8191 := by
    unfold quoted longName
    rw [flatMap_cons, escapeJson_first i hi]
    simp only [width_append, width_cons, width_nil, width_escaped, first_utf8Size i hi]
    decide
  unfold stated ManifestFile.json
  simp only [width_append, hname, width_quoted_hex, length_replicate]
  decide

lemma sorted_longNames (h : file ∈ sorted (longNames n)) :
    ∃ i < n, file = .inline (longName i) [] :=
  mem_longNames ((sorted_perm _).mem_iff.1 h)

lemma sorted_longNames_length (n : ℕ) : (sorted (longNames n)).length = n := by
  rw [(sorted_perm _).length_eq]
  unfold longNames
  rw [length_map, length_range]

/-- The names once more, in the manifest. -/
lemma manifestBytes_longNames (hn : n ≤ 1000) :
    manifestBytes "markdown".toList (sorted (longNames n)) = 51 + n * 8302 + (n - 1) := by
  have hfiles : (((sorted (longNames n)).map stated).map ManifestFile.json).map
      (width Char.utf8Size) = replicate (sorted (longNames n)).length 8302 := by
    rw [map_map, map_map]
    refine map_eq_replicate_iff.2 ?_
    intro file hfile
    obtain ⟨i, hi, rfl⟩ := sorted_longNames hfile
    exact width_stated (hi.trans_le hn)
  have hopening : width Char.utf8Size "\x7b\"version\":".toList +
      width Char.utf8Size (number ARCHIVE_FORMAT_VERSION) +
      width Char.utf8Size ",\"source_format\":".toList +
      width Char.utf8Size (quoted "markdown".toList) +
      width Char.utf8Size ",\"files\":[".toList = 49 := by
    decide
  have hclosing : width Char.utf8Size [']', '\x7d'] = 2 := by decide
  unfold manifestBytes Manifest.json lenUtf8
  simp only [width_append, width_commas, hfiles, length_map, sorted_longNames_length,
    sum_replicate, Nat.nsmul_eq_mul, hopening, hclosing]
  omega

/-- Every name is in the stream twice, and its header pads it. -/
lemma streamBytes_longArchive (hn : n ≤ 1000) : streamBytes (longArchive n) =
    Tar.memberSize 13 (51 + n * 8302 + (n - 1)) + n * 5632 + 1024 := by
  have hmembers : ((inlineFiles (sorted (longNames n))).map fun f =>
      (lenUtf8 (FILE_PREFIX ++ f.1), f.2.length)) =
      replicate (sorted (longNames n)).length (4102, 0) := by
    rw [inlineFiles_empty fun _ => sorted_longNames, map_map]
    refine map_eq_replicate_iff.2 ?_
    intro file hfile
    obtain ⟨i, hi, rfl⟩ := sorted_longNames hfile
    have hname := longName_width (hi.trans_le hn)
    unfold lenUtf8 at hname
    unfold lenUtf8
    have hdir : width Char.utf8Size FILE_PREFIX = 6 := by decide
    rw [Function.comp_apply]
    dsimp only [SourceFile.path]
    rw [width_append, hname, hdir, length_nil]
  have hmember : Tar.memberSize 4102 0 = 5632 := by decide
  have hmanifest : lenUtf8 MANIFEST_PATH = 13 := by decide
  unfold streamBytes Tar.size
  rw [longArchive_files, hmembers, sorted_longNames_length, map_cons, map_replicate,
    sum_cons, sum_replicate, Nat.nsmul_eq_mul, hmanifest, hmember]
  unfold longArchive
  rw [manifestBytes_longNames hn]
  rfl

lemma inlineBytes_longNames (n : ℕ) : inlineBytes (sorted (longNames n)) = 0 := by
  unfold inlineBytes
  rw [inlineFiles_empty fun _ => sorted_longNames, map_map]
  exact sum_eq_zero fun k hk => by
    obtain ⟨_, _, rfl⟩ := mem_map.1 hk
    rfl

lemma streamBytes_longArchive_le (hn : n ≤ 1000) : streamBytes (longArchive n) ≤ 13936640 := by
  rw [streamBytes_longArchive hn]
  unfold Tar.memberSize Tar.padded Tar.BLOCK
  rw [if_neg (by decide)]
  omega

lemma streamBytes_thousand : streamBytes (longArchive 1000) = 13936640 := by
  rw [streamBytes_longArchive le_rfl]
  rfl

/-- Up to a thousand empty files with long names pass every check of the encoder. -/
lemma encode_longArchive (digest : Bytes → Digest) (hn : n ≤ 1000) :
    ∃ e, encode (reading digest (longArchive n)) (longArchive n) {} = .ok e := by
  have hstream := streamBytes_longArchive_le hn
  have hlossless : Lossless (reading digest (longArchive n)) (longArchive n) :=
    reading_lossless _ _ (hstream.trans (by decide))
  have hnodup : ((sorted (longNames n)).map SourceFile.path).Nodup :=
    ((sorted_perm _).map _).nodup_iff.2 (longNames_nodup hn)
  refine encode_of ?_ ?_ hnodup (checkFiles_empty hn fun _ => sorted_longNames) ?_ ?_
  · unfold longArchive formats
    exact mem_cons_self
  · rw [longArchive_files, ← (sorted_perm _).length_eq, sorted_longNames_length]
    exact hn.trans (by decide)
  · rw [longArchive_files, inlineBytes_longNames]
    exact Nat.zero_le _
  · have hlength := hlossless.length
    have hstored : ∀ bytes, (reading digest (longArchive n)).compress bytes = bytes := fun _ => rfl
    rw [hstored, hlength]
    exact hstream.trans (by decide)

/-- The decoder refuses a thousand of them all the same. -/
theorem long_names_lost : ∃ e,
    encode (reading noteDigest (longArchive 1000)) (longArchive 1000) {} = .ok e ∧
    decode (reading noteDigest (longArchive 1000)) e.bytes {} =
      invalid "expanded source archive exceeds limit" ∧
    ¬ReadsBack (reading noteDigest (longArchive 1000)) (longArchive 1000) {} e := by
  have hstream := streamBytes_thousand
  have hlossless : Lossless (reading noteDigest (longArchive 1000)) (longArchive 1000) :=
    reading_lossless _ _ (hstream.le.trans (by decide))
  have hbig : expandedLimit {} < streamBytes (longArchive 1000) := by
    rw [hstream]
    decide
  obtain ⟨e, he⟩ := encode_longArchive noteDigest (le_refl 1000)
  refine ⟨e, he, decode_too_large hlossless (encode_ok he) hbig, ?_⟩
  rw [readsBack_iff hlossless (encode_ok he)]
  exact Nat.not_le.2 hbig

end LibrePaper.Storage
