import LibrePaper.Zip.Reader

/-!
# What an archive cannot do

Whatever the bytes of an archive are, what is read from it stays inside the folder it is unpacked
into, within the limits, and is what the records of the directory state.
-/
namespace LibrePaper.Zip
open Library List
open Source (Path Unicode)
open Source.Browser (strip isSpace collisionKey)

/-- A path that stays inside the folder it is taken from. -/
structure Inside (path : Path) : Prop where
  relative : ¬['/'].isPrefixOf path
  noBackslash : '\\' ∉ path
  noDrive : drive path = false
  noControl : path.any control = false
  segments : ∀ part ∈ path.splitOn '/', part ≠ [] ∧ part ≠ ['.'] ∧ part ≠ ['.', '.']
  trimmed : ∀ part ∈ path.splitOn '/', strip isSpace part ≠ ['.'] ∧ strip isSpace part ≠ ['.', '.']

/-- Where the records of a directory are. -/
def positions (bytes : Bytes) : ℕ → ℕ → List ℕ
  | 0, _ => []
  | n + 1, pos => pos :: positions bytes n (pos + (recordAt bytes pos).span)

/-- Whether the record at a position is one of a file. -/
def isFile (bytes : Bytes) (pos : ℕ) : Bool :=
  (decode (encodedName bytes pos)).any fun name => !isFolder (recordAt bytes pos) name

/-- The records of files, as the record at the end tells where the directory is. -/
def fileRecords (bytes : Bytes) (eocd : ℕ) : List ℕ :=
  (positions bytes (numberAt bytes (eocd + 10) 2) (numberAt bytes (eocd + 16) 4)).filter
    (isFile bytes)

/-- What a record states of its file: the path, the length and the checksum. -/
def stated (bytes : Bytes) (pos : ℕ) : Option Path × ℕ × ℕ :=
  (decode (encodedName bytes pos), (recordAt bytes pos).size, (recordAt bytes pos).expectedCrc)

lemma part_of_not_bad {part : List Char} (h : badPart part = false) :
    part ≠ [] ∧ part ≠ ['.'] ∧ part ≠ ['.', '.'] := by
  have hdot : badPart ['.'] = true := by decide
  have hdots : badPart ['.', '.'] = true := by decide
  refine ⟨?_, ?_, ?_⟩
  · rintro rfl
    cases h
  · rintro rfl
    rw [hdot] at h
    cases h
  · rintro rfl
    rw [hdots] at h
    cases h

/-- What a name that was read is like. -/
structure Named (u : Unicode) (names : List Path) (name : Path) : Prop where
  notEmpty : name ≠ []
  relative : ¬['/'].isPrefixOf name
  noBackslash : '\\' ∉ name
  noDrive : drive name = false
  noControl : name.any control = false
  parts : ∀ part ∈ (pathOf name).splitOn '/', badPart part = false
  fresh : collisionKey u (pathOf name) ∉ names

variable {u : Unicode} {names : List Path} {name : Path} {inflate : Option (Bytes → Option Bytes)}
  {bytes : Bytes} {files : List File} {limits : Limits}

lemma readName_spec {encoded : Bytes} :
    readName u names encoded = .ok name ↔ decode encoded = some name ∧ Named u names name := by
  unfold readName
  cases hdecode : decode encoded with
  | none =>
    constructor
    · nofun
    · rintro ⟨h, _⟩
      cases h
  | some text =>
    constructor
    · intro h
      obtain ⟨hname, h⟩ := else_of_ok h
      obtain ⟨hparts, h⟩ := else_of_ok h
      obtain ⟨hfresh, h⟩ := else_of_ok h
      cases h
      push Not at hname
      refine ⟨rfl, hname.1, hname.2.1, hname.2.2.1, ?_, ?_, ?_, hfresh⟩
      · simpa using hname.2.2.2.1
      · simpa using hname.2.2.2.2
      · simpa using hparts
    · rintro ⟨h, hnamed⟩
      cases h
      have hname : ¬(name = [] ∨ ['/'].isPrefixOf name ∨ '\\' ∈ name ∨ drive name ∨
          name.any control) := by
        rintro (h | h | h | h | h)
        · exact hnamed.notEmpty h
        · exact hnamed.relative h
        · exact hnamed.noBackslash h
        · rw [hnamed.noDrive] at h
          cases h
        · rw [hnamed.noControl] at h
          cases h
      have hparts : ¬((pathOf name).splitOn '/').any badPart := by
        intro h
        obtain ⟨part, hpart, hbad⟩ := any_eq_true.1 h
        rw [hnamed.parts part hpart] at hbad
        cases hbad
      dsimp only
      rw [if_neg hname, if_neg hparts, if_neg hnamed.fresh]

/-- The name of a file is the path of a file inside the folder. -/
lemma Named.inside (h : Named u names name) (hfile : ['/'].isSuffixOf name = false) :
    pathOf name = name ∧ Inside name := by
  have hpath : pathOf name = name := by
    unfold pathOf
    rw [hfile]
    rfl
  have hparts := h.parts
  rw [hpath] at hparts
  refine ⟨hpath, h.relative, h.noBackslash, h.noDrive, h.noControl,
    fun part hpart => part_of_not_bad (hparts part hpart), fun part hpart => ?_⟩
  have hbad := hparts part hpart
  simp only [badPart, Bool.or_eq_false_iff, decide_eq_false_iff_not] at hbad
  exact ⟨hbad.1.2, hbad.2⟩

section Scan
variable {u : Unicode} {limits : Limits} {bytes : Bytes} {centralAt eocd : ℕ} {s s' : Scan}

variable {r : Record} {n : ℕ}

lemma record_of_ok {pos : ℕ} (h : readRecord bytes eocd pos = .ok r) :
    r = recordAt bytes pos := by
  obtain ⟨_, h⟩ := else_of_ok h
  obtain ⟨_, h⟩ := else_of_ok h
  obtain ⟨_, h⟩ := else_of_ok h
  obtain ⟨_, h⟩ := else_of_ok h
  cases h
  rfl

lemma scanOne_cases (h : scanOne u limits bytes centralAt eocd s = .ok s') :
    ∃ name dataAt, decode (encodedName bytes s.pos) = some name ∧ Named u s.names name ∧
      keep u limits s (recordAt bytes s.pos) name dataAt = .ok s' := by
  unfold scanOne at h
  obtain ⟨r, hr, h⟩ := bind_eq_ok.1 h
  obtain ⟨name, hname, h⟩ := bind_eq_ok.1 h
  obtain ⟨_, _, h⟩ := bind_eq_ok.1 h
  obtain ⟨dataAt, _, h⟩ := bind_eq_ok.1 h
  obtain ⟨hdecode, hnamed⟩ := readName_spec.1 hname
  rw [record_of_ok hr] at h
  exact ⟨name, dataAt, hdecode, hnamed, h⟩

/-- A record is passed over as one of a directory, or its file is noted within the limits. -/
lemma keep_cases {dataAt : ℕ} (h : keep u limits s r name dataAt = .ok s') :
    s'.pos = s.pos + r.span ∧ s'.names = s.names ++ [collisionKey u (pathOf name)] ∧
      (isFolder r name = true ∧ s'.entries = s.entries ∧ s'.total = s.total ∨
        isFolder r name = false ∧ (s.entries.length : ℚ) < limits.maxFiles ∧
          (r.size : ℚ) ≤ limits.maxBytes - s.total ∧ s'.total = s.total + r.size ∧
          s'.entries = s.entries ++
            [⟨name, dataAt, r.compressed, r.size, r.method, r.expectedCrc⟩]) := by
  unfold keep at h
  cases hfolder : isFolder r name with
  | true =>
    rw [hfolder, if_pos rfl] at h
    obtain ⟨_, h⟩ := else_of_ok h
    cases h
    exact ⟨rfl, rfl, .inl ⟨rfl, rfl, rfl⟩⟩
  | false =>
    rw [hfolder, if_neg Bool.false_ne_true] at h
    obtain ⟨hcount, h⟩ := else_of_ok h
    obtain ⟨hsize, h⟩ := else_of_ok h
    cases h
    exact ⟨rfl, rfl, .inr ⟨rfl, not_le.1 hcount, not_lt.1 hsize, rfl, rfl⟩⟩

/-- What holds of the entries that are noted so far. -/
structure Sound (u : Unicode) (limits : Limits) (s : Scan) : Prop where
  inside : ∀ e ∈ s.entries, Inside e.path
  keys : (s.entries.map fun e => collisionKey u e.path).Sublist s.names
  distinct : s.names.Nodup
  count : (s.entries.length : ℚ) ≤ limits.maxFiles
  sizes : s.total = (s.entries.map Member.size).sum
  total : (s.total : ℚ) ≤ limits.maxBytes

lemma succ_le_of_isSafeInteger {x : ℚ} (hx : isSafeInteger x) (h : (n : ℚ) < x) :
    (n : ℚ) + 1 ≤ x := by
  have hden : x.den = 1 := by
    simp only [isSafeInteger, Bool.and_eq_true, decide_eq_true_eq] at hx
    exact hx.1
  rw [← Rat.coe_int_num_of_den_eq_one hden] at h ⊢
  exact_mod_cast h

lemma scanOne_sound (hlimits : isSafeInteger limits.maxFiles)
    (h : scanOne u limits bytes centralAt eocd s = .ok s') (hs : Sound u limits s) :
    Sound u limits s' := by
  obtain ⟨name, dataAt, _, hnamed, hkeep⟩ := scanOne_cases h
  have hdistinct : (s.names ++ [collisionKey u (pathOf name)]).Nodup :=
    nodup_append.2 ⟨hs.distinct, nodup_singleton _, by
      rintro key hkey _ hother rfl
      rw [mem_singleton.1 hother] at hkey
      exact hnamed.fresh hkey⟩
  obtain ⟨_, hnames, ⟨_, hentries, htotal⟩ | ⟨hfile, hcount, hsize, htotal, hentries⟩⟩ :=
    keep_cases hkeep
  · constructor
    · rw [hentries]
      exact hs.inside
    · rw [hentries, hnames]
      exact hs.keys.trans (sublist_append_left _ _)
    · rw [hnames]
      exact hdistinct
    · rw [hentries]
      exact hs.count
    · rw [htotal, hentries]
      exact hs.sizes
    · rw [htotal]
      exact hs.total
  · obtain ⟨hsuffix, _⟩ := Bool.or_eq_false_iff.1 hfile
    obtain ⟨hpath, hinside⟩ := hnamed.inside hsuffix
    constructor
    · intro e he
      rw [hentries] at he
      obtain he | he := mem_append.1 he
      · exact hs.inside e he
      · rw [mem_singleton.1 he]
        exact hinside
    · rw [hentries, hnames, map_append, hpath]
      exact hs.keys.append (Sublist.refl _)
    · rw [hnames]
      exact hdistinct
    · rw [hentries, length_append, length_singleton, Nat.cast_add, Nat.cast_one]
      exact succ_le_of_isSafeInteger hlimits hcount
    · rw [htotal, hentries, map_append, sum_append, hs.sizes]
      rfl
    · rw [htotal, Nat.cast_add]
      linarith

lemma scan_sound (hlimits : isSafeInteger limits.maxFiles)
    (h : scan u limits bytes centralAt eocd n s = .ok s') (hs : Sound u limits s) :
    Sound u limits s' := by
  induction n generalizing s with
  | zero =>
    cases h
    exact hs
  | succ n ih =>
    obtain ⟨s₁, hone, hrest⟩ := bind_eq_ok.1 h
    exact ih hrest (scanOne_sound hlimits hone hs)

/-- What is noted of an entry. -/
def Member.stated (e : Member) : Option Path × ℕ × ℕ := (some e.path, e.size, e.expectedCrc)

/-- The entries are the files that the records state, in the order of the records. -/
lemma scan_stated (h : scan u limits bytes centralAt eocd n s = .ok s') :
    s'.entries.map Member.stated = s.entries.map Member.stated ++
      ((positions bytes n s.pos).filter (isFile bytes)).map (stated bytes) := by
  induction n generalizing s with
  | zero =>
    cases h
    exact (append_nil _).symm
  | succ n ih =>
    obtain ⟨s₁, hone, hrest⟩ := bind_eq_ok.1 h
    obtain ⟨name, dataAt, hdecode, _, hkeep⟩ := scanOne_cases hone
    obtain ⟨hpos, _, hkept⟩ := keep_cases hkeep
    have hisFile : isFile bytes s.pos = !isFolder (recordAt bytes s.pos) name := by
      unfold isFile
      rw [hdecode]
      rfl
    rw [ih hrest, hpos, positions]
    obtain ⟨hfolder, hentries, _⟩ | ⟨hfile, _, _, _, hentries⟩ := hkept
    · rw [hfolder] at hisFile
      rw [hentries, filter_cons_of_neg (by rw [hisFile]; exact Bool.false_ne_true)]
    · rw [hfile] at hisFile
      have hstated : stated bytes s.pos = (some name, (recordAt bytes s.pos).size,
          (recordAt bytes s.pos).expectedCrc) := by
        unfold stated
        rw [hdecode]
      rw [hentries, filter_cons_of_pos hisFile, map_append, map_cons,
        map_cons, hstated, append_assoc]
      rfl

end Scan

/-- What is known of a file. -/
def File.stated (f : File) : Option Path × ℕ × ℕ := (some f.path, f.bytes.length, crc32 f.bytes)

lemma extractAll_stated {entries : List Member} (h : extractAll inflate bytes entries = .ok files) :
    files.map File.stated = entries.map Member.stated := by
  induction entries generalizing files with
  | nil =>
    cases h
    rfl
  | cons e entries ih =>
    obtain ⟨file, hfile, h⟩ := bind_eq_ok.1 h
    obtain ⟨rest, hrest, h⟩ := bind_eq_ok.1 h
    cases h
    obtain ⟨body, _, hbody⟩ := bind_eq_ok.1 hfile
    obtain ⟨hagree, hbody⟩ := else_of_ok hbody
    cases hbody
    push Not at hagree
    have hhead : File.stated ⟨e.path, body⟩ = e.stated := by
      unfold File.stated Member.stated
      rw [hagree.1, hagree.2]
    rw [map_cons, map_cons, hhead, ih hrest]

/-- What is read from an archive, whatever its bytes are. -/
structure Bounded (u : Unicode) (limits : Limits) (bytes : Bytes) (files : List File) : Prop where
  inside : ∀ f ∈ files, Inside f.path
  distinct : (files.map fun f => collisionKey u f.path).Nodup
  count : (files.length : ℚ) ≤ limits.maxFiles
  total : ((files.map fun f => f.bytes.length).sum : ℚ) ≤ limits.maxBytes
  records : ∃ eocd, endAt bytes = some eocd ∧
    files.map File.stated = (fileRecords bytes eocd).map (stated bytes)

lemma unzip_cases (h : unzip u inflate limits bytes = .ok files) :
    isSafeInteger limits.maxFiles ∧ 0 ≤ limits.maxBytes ∧ 1 ≤ limits.maxFiles ∧
      ∃ eocd s, endAt bytes = some eocd ∧
        scan u limits bytes (numberAt bytes (eocd + 16) 4) eocd (numberAt bytes (eocd + 10) 2)
          ⟨numberAt bytes (eocd + 16) 4, [], [], 0⟩ = .ok s ∧
        extractAll inflate bytes s.entries = .ok files := by
  unfold unzip at h
  obtain ⟨hlimits, h⟩ := else_of_ok h
  obtain ⟨_, h⟩ := else_of_ok h
  simp only [Bool.or_eq_true, Bool.not_eq_true', decide_eq_true_eq, not_or, not_lt,
    Bool.not_eq_false] at hlimits
  cases hend : endAt bytes with
  | none =>
    rw [hend] at h
    cases h
  | some eocd =>
    rw [hend] at h
    dsimp only at h
    obtain ⟨_, h⟩ := else_of_ok h
    obtain ⟨_, h⟩ := else_of_ok h
    obtain ⟨_, h⟩ := else_of_ok h
    obtain ⟨_, h⟩ := else_of_ok h
    obtain ⟨s, hscan, h⟩ := bind_eq_ok.1 h
    obtain ⟨_, h⟩ := else_of_ok h
    exact ⟨hlimits.1.2, hlimits.1.1.2, hlimits.2, eocd, s, rfl, hscan, h⟩

lemma bounded_of_unzip (h : unzip u inflate limits bytes = .ok files) :
    Bounded u limits bytes files := by
  obtain ⟨hsafe, hbytes, hfiles, eocd, s, hend, hscan, hextract⟩ := unzip_cases h
  have hstart : Sound u limits ⟨numberAt bytes (eocd + 16) 4, [], [], 0⟩ :=
    ⟨fun _ he => absurd he not_mem_nil, Sublist.refl _, nodup_nil,
      by simpa using le_trans zero_le_one hfiles, rfl, by simpa using hbytes⟩
  have hsound := scan_sound hsafe hscan hstart
  have hstated := extractAll_stated hextract
  have hpaths : files.map File.path = s.entries.map Member.path := by
    have hmap := congrArg (map fun x => x.1.getD []) hstated
    rw [map_map, map_map] at hmap
    exact hmap
  have hlengths : files.map (fun f => f.bytes.length) = s.entries.map Member.size := by
    have hmap := congrArg (map fun x => x.2.1) hstated
    rw [map_map, map_map] at hmap
    exact hmap
  refine ⟨?_, ?_, ?_, ?_, eocd, hend, ?_⟩
  · intro f hf
    have hpath : f.path ∈ s.entries.map Member.path := by
      rw [← hpaths]
      exact mem_map_of_mem hf
    obtain ⟨e, he, heq⟩ := mem_map.1 hpath
    rw [← heq]
    exact hsound.inside e he
  · have hkeys : (files.map fun f => collisionKey u f.path) =
        s.entries.map fun e => collisionKey u e.path := by
      have hmap := congrArg (map (collisionKey u)) hpaths
      rw [map_map, map_map] at hmap
      exact hmap
    rw [hkeys]
    exact hsound.distinct.sublist hsound.keys
  · have hlength := congrArg length hpaths
    rw [length_map, length_map] at hlength
    rw [hlength]
    exact hsound.count
  · have htotal := hsound.total
    rw [hsound.sizes, ← hlengths, Nat.cast_list_sum, map_map] at htotal
    exact htotal
  · rw [hstated, scan_stated hscan]
    rfl

end LibrePaper.Zip
