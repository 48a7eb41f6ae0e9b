import LibrePaper.Library.Splits
import LibrePaper.Source.Canonical
import LibrePaper.Zip.Bounds

/-!
# A download read again

The records of an archive that was written are read as what was written, and the names that the
path rules admit pass the rules of the reader, apart from some that the reader refuses on its own.
-/
namespace LibrePaper.Zip
open Library List
open Source (Path Unicode Kind strip_eq ite_some_eq_none uncomposed texConfig)
open Source.Browser (Config Refusal strip isSpace collisionKey normalisePath
  checkDirectoryPath checkPath checkSegment)

section Records
variable {s : Stamp} {one : Entry} {bytes rest : Bytes} {pos offset : ℕ}

/-- An entry whose numbers fit into their fields. -/
structure Entry.Fits (one : Entry) : Prop where
  name : one.name.length < 256 ^ 2
  bytes : one.bytes.length < 0xffffffff
  crc : one.crc = crc32 one.bytes

lemma lt_field {n : ℕ} (h : n < 0xffffffff) : n < 256 ^ 4 := by
  have hpow : 256 ^ 4 = 0xffffffff + 1 := by norm_num
  omega

lemma recordAt_central (hone : one.Fits) (hoffset : offset < 0xffffffff)
    (h : bytes.drop pos = packed (centralHeader s one offset) ++ rest) :
    recordAt bytes pos = ⟨0x02014b50, 1 <<< 11, 0, crc32 one.bytes, one.bytes.length,
      one.bytes.length, one.name.length, 0, 0, 0, if one.directory then 0x10 else 0, offset⟩ := by
  have hcrc : one.crc < 256 ^ 4 := by
    rw [hone.crc]
    exact crc32_lt _
  have hbytes := lt_field hone.bytes
  unfold recordAt
  congr
  · exact numberAt_packed (d := 0) 0 h rfl rfl (by norm_num)
  · exact numberAt_packed 3 h rfl (by simp [centralHeader]) (by decide)
  · exact numberAt_packed 4 h rfl (by simp [centralHeader]) (by norm_num)
  · rw [← hone.crc]
    exact numberAt_packed 7 h rfl (by simp [centralHeader]) hcrc
  · exact numberAt_packed 8 h rfl (by simp [centralHeader]) hbytes
  · exact numberAt_packed 9 h rfl (by simp [centralHeader]) hbytes
  · exact numberAt_packed 10 h rfl (by simp [centralHeader]) hone.name
  · exact numberAt_packed 11 h rfl (by simp [centralHeader]) (by norm_num)
  · exact numberAt_packed 12 h rfl (by simp [centralHeader]) (by norm_num)
  · exact numberAt_packed 13 h rfl (by simp [centralHeader]) (by norm_num)
  · exact numberAt_packed 15 h rfl (by simp [centralHeader]) (by split <;> norm_num)
  · exact numberAt_packed 16 h rfl (by simp [centralHeader]) (lt_field hoffset)

lemma encodedName_central (hone : one.Fits) (hoffset : offset < 0xffffffff)
    (h : bytes.drop pos = centralRecord s one offset ++ rest) :
    encodedName bytes pos = one.name := by
  have hheader : (packed (centralHeader s one offset)).length = 46 := by
    rw [length_packed]
    simp [centralHeader]
  rw [centralRecord, append_assoc] at h
  unfold encodedName
  rw [recordAt_central hone hoffset h, ← drop_drop, h, ← hheader, drop_left, take_left]

lemma readRecord_central (hone : one.Fits) (hoffset : offset < 0xffffffff) {eocd : ℕ}
    (heocd : pos + (46 + one.name.length) ≤ eocd)
    (h : bytes.drop pos = centralRecord s one offset ++ rest) :
    readRecord bytes eocd pos = .ok (recordAt bytes pos) := by
  rw [centralRecord, append_assoc] at h
  have hsize := hone.bytes
  have hzip : ¬0xffffffff ∈ [one.bytes.length, one.bytes.length, offset] := by
    intro hmem
    simp only [mem_cons, not_mem_nil, or_false] at hmem
    omega
  have hspan : ¬eocd < pos + (46 + one.name.length + 0 + 0) := by omega
  unfold readRecord
  rw [recordAt_central hone hoffset h]
  dsimp only
  rw [if_neg (by omega), if_neg (by omega), if_neg hzip]
  exact if_neg hspan

/-- A header that was written is in agreement with its record. -/
lemma openLocal_written (hone : one.Fits) {centralAt : ℕ} {r : Record}
    (hr : r = ⟨0x02014b50, 1 <<< 11, 0, crc32 one.bytes, one.bytes.length, one.bytes.length,
      one.name.length, 0, 0, 0, if one.directory then 0x10 else 0, offset⟩)
    (hcentral : offset + (localRecord s one).length ≤ centralAt)
    (h : bytes.drop offset = localRecord s one ++ rest) :
    openLocal bytes centralAt r one.name = .ok (offset + 30 + one.name.length) := by
  subst hr
  rw [length_localRecord] at hcentral
  have hheader : (packed (localHeader s one)).length = 30 := by
    rw [length_packed]
    simp [localHeader]
  rw [localRecord, append_assoc] at h
  have hcrc : one.crc < 256 ^ 4 := by
    rw [hone.crc]
    exact crc32_lt _
  have hbytes := lt_field hone.bytes
  have hsignature : numberAt bytes offset 4 = 0x04034b50 :=
    numberAt_packed (d := 0) 0 h rfl rfl (by norm_num)
  have hflags : numberAt bytes (offset + 6) 2 = 1 <<< 11 :=
    numberAt_packed 2 h rfl (by simp [localHeader]) (by decide)
  have hmethod : numberAt bytes (offset + 8) 2 = 0 :=
    numberAt_packed 3 h rfl (by simp [localHeader]) (by norm_num)
  have hcrcAt : numberAt bytes (offset + 14) 4 = one.crc :=
    numberAt_packed 6 h rfl (by simp [localHeader]) hcrc
  have hcompressed : numberAt bytes (offset + 18) 4 = one.bytes.length :=
    numberAt_packed 7 h rfl (by simp [localHeader]) hbytes
  have hsize : numberAt bytes (offset + 22) 4 = one.bytes.length :=
    numberAt_packed 8 h rfl (by simp [localHeader]) hbytes
  have hname : numberAt bytes (offset + 26) 2 = one.name.length :=
    numberAt_packed 9 h rfl (by simp [localHeader]) hone.name
  have hextra : numberAt bytes (offset + 28) 2 = 0 :=
    numberAt_packed 10 h rfl (by simp [localHeader]) (by norm_num)
  have hagree : (bytes.drop (offset + 30)).take one.name.length = one.name := by
    rw [← drop_drop, h, ← hheader, drop_left, append_assoc, take_left]
  unfold openLocal
  dsimp only
  rw [hsignature, hflags, hmethod, hcrcAt, hcompressed, hsize, hname, hextra, hone.crc, hagree,
    if_neg (by omega), if_neg (by omega), if_neg (by simp), if_neg (by simp)]
  rfl

/-- The data of an entry follow its header and its name. -/
lemma data_written (h : bytes.drop offset = localRecord s one ++ rest) :
    (bytes.drop (offset + 30 + one.name.length)).take one.bytes.length = one.bytes := by
  have hheader : (packed (localHeader s one)).length = 30 := by
    rw [length_packed]
    simp [localHeader]
  rw [localRecord, append_assoc] at h
  rw [← drop_drop, ← drop_drop, h, ← hheader, drop_left, append_assoc, drop_left, take_left]

end Records

/-- What Unicode says of composition: a slash or a backslash composes with nothing. -/
structure Separates (u : Unicode) : Prop where
  around : ∀ a b, ∀ c ∈ ['/', '\\'], u.nfc (a ++ c :: b) = u.nfc a ++ c :: u.nfc b
  empty : u.nfc [] = []

/-- A path that the reader does not refuse on its own, whatever the path rules say: it begins with
neither a mark of the byte order nor the letter of a drive, has no control character even where it
is trimmed, and no part is one or two dots among blanks. -/
structure Portable (path : Path) : Prop where
  noMark : path.head? ≠ some '\uFEFF'
  noDrive : drive path = false
  noControl : path.any control = false
  noDots : ∀ part ∈ path.splitOn '/', strip isSpace part ≠ ['.'] ∧ strip isSpace part ≠ ['.', '.']

section Names
variable {u : Unicode} {config : Config} {path : Path}

lemma exists_strip (path : Path) : ∃ before after, path = before ++ (strip isSpace path ++ after) ∧
    (∀ c ∈ before, isSpace c) ∧ ∀ c ∈ after, isSpace c := by
  refine ⟨path.takeWhile isSpace, (path.dropWhile isSpace).rtakeWhile isSpace, ?_, ?_, ?_⟩
  · rw [strip_eq, rdropWhile_append_rtakeWhile, takeWhile_append_dropWhile]
  · exact fun _ => mem_takeWhile_imp
  · exact fun _ => mem_rtakeWhile_imp

variable {l : List Char}

lemma nil_mem_splitOn_nfc (h : Separates u) (hl : [] ∈ l.splitOn '/') :
    [] ∈ (u.nfc l).splitOn '/' := by
  induction l using splitOn_induction (a := '/') with
  | hone l hslash =>
    rw [splitOn_eq_singleton hslash, mem_singleton] at hl
    rw [← hl, h.empty]
    exact mem_singleton_self _
  | hmore s t hs ih =>
    rw [splitOn_append_cons_self_of_not_mem hs, mem_cons] at hl
    rw [h.around s t '/' mem_cons_self, splitOn_append_cons_self, mem_append]
    obtain rfl | ht := hl
    · left
      rw [h.empty]
      exact mem_singleton_self _
    · exact .inr (ih ht)

lemma backslash_mem_nfc (h : Separates u) (hl : '\\' ∈ l) : '\\' ∈ u.nfc l := by
  obtain ⟨s, t, rfl⟩ := append_of_mem hl
  rw [h.around s t '\\' (by simp)]
  exact mem_append_right _ mem_cons_self

/-- An admitted path has neither an empty part nor a backslash, before it is trimmed. -/
lemma parts_of_admitted (h : Separates u) (hpath : checkDirectoryPath u config path = none) :
    [] ∉ path.splitOn '/' ∧ '\\' ∉ path := by
  unfold checkDirectoryPath at hpath
  dsimp only at hpath
  obtain ⟨_, hpath⟩ := ite_some_eq_none.1 hpath
  obtain ⟨_, hpath⟩ := ite_some_eq_none.1 hpath
  obtain ⟨_, hpath⟩ := ite_some_eq_none.1 hpath
  obtain ⟨hbackslash, hpath⟩ := ite_some_eq_none.1 hpath
  obtain ⟨_, hpath⟩ := ite_some_eq_none.1 hpath
  obtain ⟨_, hpath⟩ := ite_some_eq_none.1 hpath
  obtain ⟨before, after, hsplit, hbefore, hafter⟩ := exists_strip path
  have hslash : ∀ l : List Char, (∀ c ∈ l, isSpace c) → '/' ∉ l ∧ '\\' ∉ l := by
    intro l hl
    constructor
    · intro hmem
      exact absurd (hl _ hmem) (by decide)
    · intro hmem
      exact absurd (hl _ hmem) (by decide)
  constructor
  · intro hnil
    rw [hsplit] at hnil
    have hcore := nil_mem_of_splitOn_append (hslash after hafter).1
      (nil_mem_of_append_splitOn (hslash before hbefore).1 hnil)
    have hsegment := findSome?_eq_none_iff.1 hpath [] (nil_mem_splitOn_nfc h hcore)
    cases hsegment
  · intro hmem
    rw [hsplit, mem_append, mem_append] at hmem
    obtain hmem | hmem | hmem := hmem
    · exact (hslash before hbefore).2 hmem
    · exact hbackslash (backslash_mem_nfc h hmem)
    · exact (hslash after hafter).2 hmem

lemma ne_nil_of_splitOn (h : [] ∉ path.splitOn '/') : path ≠ [] := by
  rintro rfl
  exact h (mem_singleton_self _)

lemma head_of_splitOn (h : [] ∉ path.splitOn '/') : path.head? ≠ some '/' := by
  intro hhead
  obtain ⟨rest, rfl⟩ := head?_eq_some_iff.1 hhead
  apply h
  rw [← nil_append ('/' :: rest), splitOn_append_cons_self]
  exact mem_append_left _ (mem_singleton_self _)

lemma last_of_splitOn (h : [] ∉ path.splitOn '/') : ['/'].isSuffixOf path = false := by
  rw [Bool.eq_false_iff]
  intro hsuffix
  obtain ⟨rest, rfl⟩ := isSuffixOf_iff_suffix.1 hsuffix
  apply h
  rw [splitOn_append_cons_self]
  exact mem_append_right _ (mem_singleton_self _)

end Names

/-- What a project holds for a download. -/
inductive Item where
  | file (path : Path) (body : Body)
  | folder (path : Path)

def Item.path : Item → Path
  | .file path _ => path
  | .folder path => path

/-- How an item is listed for an archive; a folder has a slash at the end of its name. -/
def Item.row : Item → Path × Body
  | .file path body => (path, body)
  | .folder path => (path ++ ['/'], .bytes [])

/-- What an item is once it is read again. -/
def Item.result : Item → Option File
  | .file path body => some ⟨path, body.encode⟩
  | .folder _ => none

def Item.Admitted (u : Unicode) (config : Config) : Item → Prop
  | .file path _ => ∃ kind, checkPath u config path = .ok kind
  | .folder path => checkDirectoryPath u config path = none

def Item.entry (item : Item) : Entry := Zip.entry item.row

/-- The files that are read again. -/
def results (items : List Item) : List File := items.filterMap Item.result

def resultBytes (items : List Item) : ℕ := ((results items).map fun f => f.bytes.length).sum

section Items
variable {u : Unicode} {config : Config} {item : Item}

lemma Item.Admitted.directory (h : item.Admitted u config) :
    checkDirectoryPath u config item.path = none := by
  cases item with
  | file path body =>
    obtain ⟨kind, hkind⟩ := h
    unfold checkPath at hkind
    change checkDirectoryPath u config path = none
    cases hpath : checkDirectoryPath u config path with
    | none => rfl
    | some error =>
      rw [hpath] at hkind
      cases hkind
  | folder path => exact h

/-- The name of an admitted item is its path, or its path with a slash when it is a folder. -/
lemma Item.row_name (h : [] ∉ item.path.splitOn '/') : pathOf item.row.1 = item.path ∧
    ['/'].isSuffixOf item.row.1 = item.result.isNone := by
  cases item with
  | file path body =>
    have hlast := last_of_splitOn h
    have hpath : pathOf path = path := by
      unfold pathOf
      change ['/'].isSuffixOf path = false at hlast
      rw [hlast]
      rfl
    exact ⟨hpath, hlast⟩
  | folder path =>
    have hlast : ['/'].isSuffixOf (path ++ ['/']) = true :=
      isSuffixOf_iff_suffix.2 (suffix_append _ _)
    have hpath : pathOf (path ++ ['/']) = path := by
      unfold pathOf
      rw [hlast, if_pos rfl, dropLast_concat]
    exact ⟨hpath, hlast⟩

lemma row_append (item : Item) :
    item.row.1 = item.path ∨ item.row.1 = item.path ++ ['/'] := by
  cases item with
  | file path body => exact .inl rfl
  | folder path => exact .inr rfl

lemma drive_append {path : Path} (h : drive path = false) : drive (path ++ ['/']) = false := by
  match path with
  | [] => rfl
  | [c] => rfl
  | c :: d :: rest =>
    change drive (c :: d :: (rest ++ ['/'])) = false
    by_cases hd : d = ':'
    · subst hd
      exact h
    · unfold drive
      split
      · exact absurd (by assumption) (by simp_all)
      · rfl

lemma decode_utf8 {text : List Char} (h : text.head? ≠ some '\uFEFF') :
    decode (utf8 text) = some text := by
  have hencode : (utf8 text).toByteArray = text.utf8Encode := rfl
  unfold decode
  rw [hencode, utf8Decode?_utf8Encode, Option.map_some, toList_toArray, if_neg h]

/-- The name of an admitted and portable item is accepted by the reader. -/
lemma named_row (hu : Separates u) (h : item.Admitted u config) (hportable : Portable item.path)
    {names : List Path} (hfresh : collisionKey u item.path ∉ names) :
    decode (utf8 item.row.1) = some item.row.1 ∧ Named u names item.row.1 := by
  obtain ⟨hparts, hbackslash⟩ := parts_of_admitted hu h.directory
  have hne := ne_nil_of_splitOn hparts
  have hhead : item.row.1.head? = item.path.head? := by
    obtain hrow | hrow := row_append item
    · rw [hrow]
    · rw [hrow, head?_append_of_ne_nil _ hne]
  refine ⟨decode_utf8 (by rw [hhead]; exact hportable.noMark), ?_, ?_, ?_, ?_, ?_, ?_, ?_⟩
  · intro hnil
    rw [hnil] at hhead
    exact hne (head?_eq_none_iff.1 hhead.symm)
  · intro hprefix
    obtain ⟨rest, hrest⟩ := isPrefixOf_iff_prefix.1 hprefix
    apply head_of_splitOn hparts
    rw [← hhead, ← hrest]
    rfl
  · intro hmem
    obtain hrow | hrow := row_append item
    · rw [hrow] at hmem
      exact hbackslash hmem
    · rw [hrow, mem_append] at hmem
      exact hmem.elim hbackslash (by decide)
  · obtain hrow | hrow := row_append item
    · rw [hrow]
      exact hportable.noDrive
    · rw [hrow]
      exact drive_append hportable.noDrive
  · obtain hrow | hrow := row_append item
    · rw [hrow]
      exact hportable.noControl
    · rw [hrow, any_append, hportable.noControl]
      rfl
  · rw [(Item.row_name hparts).1]
    intro part hpart
    obtain ⟨hdot, hdots⟩ := hportable.noDots part hpart
    have hpartNe : part ≠ [] := by
      rintro rfl
      exact hparts hpart
    unfold badPart
    rw [isEmpty_eq_false_iff.2 hpartNe, decide_eq_false hdot, decide_eq_false hdots]
    rfl
  · rw [(Item.row_name hparts).1]
    exact hfresh

end Items

section Archive
variable {s : Stamp} (before after : List Entry) (one : Entry)

lemma localRecords_append (s : Stamp) (entries entries' : List Entry) :
    localRecords s (entries ++ entries') = localRecords s entries ++ localRecords s entries' :=
  flatMap_append

lemma localRecords_cons (s : Stamp) (one : Entry) (entries : List Entry) :
    localRecords s (one :: entries) = localRecord s one ++ localRecords s entries :=
  flatMap_cons

lemma archive_local : ∃ rest, (archive s (before ++ one :: after)).drop
    (localRecords s before).length = localRecord s one ++ rest := by
  unfold archive
  dsimp only
  rw [localRecords_append, localRecords_cons, append_assoc, append_assoc, drop_left]
  exact ⟨_, rfl⟩

lemma archive_central : ∃ rest, (archive s (before ++ one :: after)).drop
    ((localRecords s (before ++ one :: after)).length + (centralRecords s 0 before).length) =
      centralRecord s one (localRecords s before).length ++ rest := by
  unfold archive
  dsimp only
  rw [← drop_drop, drop_left, centralRecords_append, append_assoc, drop_left,
    centralRecords, Nat.zero_add, append_assoc]
  exact ⟨_, rfl⟩

lemma length_archive (s : Stamp) (entries : List Entry) : (archive s entries).length =
    (localRecords s entries).length + (centralRecords s 0 entries).length + 22 := by
  have hend : ((endRecord entries.length (centralRecords s 0 entries).length
      (localRecords s entries).length).map Prod.fst).sum = 22 := by
    simp [endRecord]
  unfold archive
  dsimp only
  rw [length_append, length_append, length_packed, hend, Nat.add_assoc]

lemma archive_end (s : Stamp) (entries : List Entry) : (archive s entries).drop
    ((localRecords s entries).length + (centralRecords s 0 entries).length) =
      packed (endRecord entries.length (centralRecords s 0 entries).length
        (localRecords s entries).length) ++ [] := by
  unfold archive
  dsimp only
  rw [← drop_drop, drop_left, drop_left, append_nil]

/-- The record at the end is found at the end. -/
lemma endAt_archive (s : Stamp) (entries : List Entry) : endAt (archive s entries) =
    some ((localRecords s entries).length + (centralRecords s 0 entries).length) := by
  have hlength := length_archive s entries
  have hend := archive_end s entries
  have hplace : (archive s entries).length - 22 - 0 =
      (localRecords s entries).length + (centralRecords s 0 entries).length := by omega
  have hsignature : numberAt (archive s entries)
      ((localRecords s entries).length + (centralRecords s 0 entries).length) 4 = 0x06054b50 :=
    numberAt_packed (d := 0) 0 hend rfl rfl (by norm_num)
  have hcomment : numberAt (archive s entries)
      ((localRecords s entries).length + (centralRecords s 0 entries).length + 20) 2 = 0 :=
    numberAt_packed 7 hend rfl (by simp [endRecord]) (by norm_num)
  unfold endAt
  rw [if_neg (by omega), range_succ_eq_map, map_cons, hplace, find?_cons_of_pos]
  rw [hsignature, hcomment, hlength]
  simp

end Archive

section Scanned
variable {u : Unicode} {limits : Limits} {s : Stamp} {bytes rest more : Bytes} {offset : ℕ}
  {item : Item} {centralAt eocd : ℕ} {scanned : Scan}

lemma Item.entry_crc (item : Item) : item.entry.crc = crc32 item.entry.bytes := rfl

/-- A record that was written passes the checks of its kind. -/
lemma scanOne_written (hone : item.entry.Fits) (hoffset : offset < 0xffffffff)
    (hcentral : bytes.drop scanned.pos = centralRecord s item.entry offset ++ rest)
    (hlocal : bytes.drop offset = localRecord s item.entry ++ more)
    (hbefore : offset + (localRecord s item.entry).length ≤ centralAt)
    (heocd : scanned.pos + (46 + item.entry.name.length) ≤ eocd)
    (hdecode : decode item.entry.name = some item.row.1)
    (hnamed : Named u scanned.names item.row.1) :
    scanOne u limits bytes centralAt eocd scanned = keep u limits scanned
      (recordAt bytes scanned.pos) item.row.1 (offset + 30 + item.entry.name.length) := by
  have hread := readRecord_central hone hoffset heocd hcentral
  have hencoded := encodedName_central hone hoffset hcentral
  have hheader : bytes.drop scanned.pos = packed (centralHeader s item.entry offset) ++
      (item.entry.name ++ rest) := by
    rw [hcentral, centralRecord, append_assoc]
  have hrecord := recordAt_central hone hoffset hheader
  have hkind : checkKind (recordAt bytes scanned.pos) item.row.1 = .ok () := by
    have htype : (recordAt bytes scanned.pos).fileType = 0 := by
      rw [hrecord]
      unfold Record.fileType
      dsimp only
      cases item.entry.directory <;> decide
    unfold checkKind
    rw [htype, hrecord]
    dsimp only
    rw [if_neg (by decide), if_neg (by decide), if_neg (by decide)]
  unfold scanOne
  rw [hread, ok_bind, hencoded, readName_spec.2 ⟨hdecode, hnamed⟩, ok_bind, hkind, ok_bind,
    openLocal_written hone hrecord hbefore hlocal, ok_bind]

/-- What the reader notes of an item. -/
def noted (item : Item) (offset : ℕ) : List Member :=
  if item.result.isNone then []
  else [⟨item.row.1, offset + 30 + item.entry.name.length, item.entry.bytes.length,
    item.entry.bytes.length, 0, crc32 item.entry.bytes⟩]

lemma resultBytes_cons (item : Item) (items : List Item) :
    resultBytes (item :: items) = item.entry.bytes.length + resultBytes items ∧
      results (item :: items) = item.result.toList ++ results items := by
  cases item with
  | file path body => exact ⟨sum_cons, rfl⟩
  | folder path => exact ⟨(Nat.zero_add _).symm, rfl⟩

lemma keep_written {r : Record} (hr : r = ⟨0x02014b50, 1 <<< 11, 0, crc32 item.entry.bytes,
      item.entry.bytes.length, item.entry.bytes.length, item.entry.name.length, 0, 0, 0,
      if item.entry.directory then 0x10 else 0, offset⟩)
    (hparts : [] ∉ item.path.splitOn '/')
    (hfiles : (scanned.entries.length + item.result.toList.length : ℚ) ≤ limits.maxFiles)
    (hbytes : (scanned.total + item.entry.bytes.length : ℚ) ≤ limits.maxBytes) :
    keep u limits scanned r item.row.1 (offset + 30 + item.entry.name.length) =
      .ok ⟨scanned.pos + (46 + item.entry.name.length),
        scanned.names ++ [collisionKey u item.path], scanned.entries ++ noted item offset,
        scanned.total + item.entry.bytes.length⟩ := by
  obtain ⟨hpath, hsuffix⟩ := Item.row_name hparts
  have htype : r.fileType = 0 := by
    rw [hr]
    unfold Record.fileType
    dsimp only
    cases item.entry.directory <;> decide
  have hfolder : isFolder r item.row.1 = item.result.isNone := by
    unfold isFolder
    rw [hsuffix, htype]
    exact Bool.or_false _
  unfold keep noted
  rw [hfolder, hpath, hr]
  cases item with
  | folder path =>
    have hnone : (Item.folder path).result.isNone = true := rfl
    have hempty : (Item.folder path).entry.bytes.length = 0 := rfl
    rw [hnone, if_pos rfl, if_pos rfl, hempty, append_nil]
    rfl
  | file path body =>
    have hsome : (Item.file path body).result.isNone = false := rfl
    have hone : (Item.file path body).result.toList.length = 1 := rfl
    rw [hone, Nat.cast_one] at hfiles
    rw [hsome, if_neg Bool.false_ne_true, if_neg Bool.false_ne_true,
      if_neg (not_le.2 (by linarith)), if_neg (not_lt.2 (by linarith))]
    rfl

end Scanned

/-- What an archive needs to stay within the limits and the widths of the fields. -/
structure Fits (limits : Limits) (s : Stamp) (items : List Item) : Prop where
  maxBytes : isSafeInteger limits.maxBytes ∧ 0 ≤ limits.maxBytes
  maxFiles : isSafeInteger limits.maxFiles ∧ 1 ≤ limits.maxFiles
  names : ∀ item ∈ items, item.entry.name.length < 256 ^ 2
  count : (items.length : ℚ) ≤ min 65534 (limits.maxFiles * 9)
  files : ((results items).length : ℚ) ≤ limits.maxFiles
  bytes : (resultBytes items : ℚ) ≤ limits.maxBytes
  whole : ((archive s (items.map Item.entry)).length : ℚ) ≤
    limits.maxBytes + limits.maxFiles * 1024 + 65557
  locals : (localRecords s (items.map Item.entry)).length < 0xffffffff
  directory : (centralRecords s 0 (items.map Item.entry)).length < 0xffffffff

section RoundTrip
variable {u : Unicode} {config : Config} {limits : Limits} {s : Stamp} {items : List Item}

variable {item : Item} {inflate : Option (Bytes → Option Bytes)} {bytes : Bytes}

lemma Fits.entry (h : Fits limits s items) (hitem : item ∈ items) : item.entry.Fits := by
  refine ⟨h.names item hitem, lt_of_le_of_lt ?_ h.locals, item.entry_crc⟩
  obtain ⟨before, after, rfl⟩ := append_of_mem hitem
  rw [map_append, map_cons, localRecords_append, localRecords_cons, length_append,
    length_append, length_localRecord]
  omega

lemma results_append (items items' : List Item) :
    results (items ++ items') = results items ++ results items' := filterMap_append

lemma resultBytes_append (items items' : List Item) :
    resultBytes (items ++ items') = resultBytes items + resultBytes items' := by
  unfold resultBytes
  rw [results_append, map_append, sum_append]

/-- A noted entry is taken out as it was put in. -/
lemma extract_noted {more : Bytes} {offset : ℕ}
    (h : bytes.drop offset = localRecord s item.entry ++ more) {entries : List Member}
    {files : List File} (hfiles : extractAll inflate bytes entries = .ok files) :
    extractAll inflate bytes (noted item offset ++ entries) =
      .ok (item.result.toList ++ files) := by
  have hdata := data_written h
  cases item with
  | folder path => exact hfiles
  | file path body =>
    have hone : extract inflate bytes ⟨path, offset + 30 + (Item.file path body).entry.name.length,
        (Item.file path body).entry.bytes.length, (Item.file path body).entry.bytes.length, 0,
        crc32 (Item.file path body).entry.bytes⟩ = .ok ⟨path, body.encode⟩ := by
      unfold extract readBody
      dsimp only
      rw [if_pos (by decide), hdata, ok_bind, if_neg (by simp)]
      rfl
    change extractAll inflate bytes (_ :: entries) = _
    unfold extractAll
    change (extract inflate bytes ⟨path, _, _, _, _, _⟩ >>= _) = _
    rw [hone, ok_bind, hfiles]
    rfl

/-- The directory is read record by record as it was written. -/
lemma scan_written (hu : Separates u) (inflate : Option (Bytes → Option Bytes))
    (hadmitted : ∀ item ∈ items, item.Admitted u config ∧ Portable item.path)
    (hkeys : (items.map fun item => collisionKey u item.path).Nodup) (hfits : Fits limits s items)
    (hbytes : bytes = archive s (items.map Item.entry)) {centralAt eocd : ℕ}
    (hcentralAt : centralAt = (localRecords s (items.map Item.entry)).length)
    (heocd : eocd = centralAt + (centralRecords s 0 (items.map Item.entry)).length)
    {todo : List Item} : ∀ {done : List Item} (scanned : Scan), items = done ++ todo →
      scanned.pos = centralAt + (centralRecords s 0 (done.map Item.entry)).length →
      scanned.names = done.map (fun item => collisionKey u item.path) →
      scanned.entries.length = (results done).length → scanned.total = resultBytes done →
      ∃ scanned' more, scan u limits bytes centralAt eocd todo.length scanned = .ok scanned' ∧
        scanned'.pos = eocd ∧ scanned'.entries = scanned.entries ++ more ∧
        extractAll inflate bytes more = .ok (results todo) := by
  induction todo with
  | nil =>
    intro done scanned hitems hpos _ _ _
    rw [append_nil] at hitems
    refine ⟨scanned, [], rfl, ?_, (append_nil _).symm, rfl⟩
    rw [hpos, heocd, hitems]
  | cons item todo ih =>
    intro done scanned hitems hpos hnames hcount htotal
    have hitem : item ∈ items := by
      rw [hitems]
      exact mem_append_right _ mem_cons_self
    have hentries : items.map Item.entry =
        done.map Item.entry ++ item.entry :: todo.map Item.entry := by
      rw [hitems, map_append, map_cons]
    obtain ⟨rest, hcentral⟩ := archive_central (s := s) (done.map Item.entry)
      (todo.map Item.entry) item.entry
    obtain ⟨more, hlocal⟩ := archive_local (s := s) (done.map Item.entry) (todo.map Item.entry)
      item.entry
    rw [← hentries, ← hbytes, ← hcentralAt, ← hpos] at hcentral
    rw [← hentries, ← hbytes] at hlocal
    have hone := hfits.entry hitem
    have hlocals : centralAt = (localRecords s (done.map Item.entry)).length +
        ((localRecord s item.entry).length + (localRecords s (todo.map Item.entry)).length) := by
      rw [hcentralAt, hentries, localRecords_append, localRecords_cons, length_append,
        length_append]
    have hoffset : (localRecords s (done.map Item.entry)).length < 0xffffffff := by
      have := hfits.locals
      omega
    have hnext : (centralRecords s 0 ((done ++ [item]).map Item.entry)).length =
        (centralRecords s 0 (done.map Item.entry)).length + (46 + item.entry.name.length) := by
      rw [map_append, centralRecords_append, length_append, map_singleton,
        centralRecords, centralRecords, append_nil, length_centralRecord]
    have hend : scanned.pos + (46 + item.entry.name.length) ≤ eocd := by
      have hall : items.map Item.entry = (done ++ [item]).map Item.entry ++
          todo.map Item.entry := by
        rw [hentries, map_append, append_assoc]
        rfl
      rw [heocd, hpos, hall, centralRecords_append, length_append, hnext]
      omega
    have hfresh : collisionKey u item.path ∉ scanned.names := by
      rw [hitems, map_append, map_cons] at hkeys
      rw [hnames]
      intro hmem
      exact (nodup_append.1 hkeys).2.2 _ hmem _ mem_cons_self rfl
    obtain ⟨hallowed, hportable⟩ := hadmitted item hitem
    obtain ⟨hdecode, hnamed⟩ := named_row hu hallowed hportable hfresh
    obtain ⟨hsizes, hresults⟩ := resultBytes_cons item todo
    have hfiles : (scanned.entries.length + item.result.toList.length : ℚ) ≤ limits.maxFiles := by
      refine le_trans ?_ hfits.files
      rw [hcount, hitems, results_append, hresults, length_append, length_append]
      push_cast
      linarith [Nat.cast_nonneg (α := ℚ) (results todo).length]
    have htotals : (scanned.total + item.entry.bytes.length : ℚ) ≤ limits.maxBytes := by
      refine le_trans ?_ hfits.bytes
      rw [htotal, hitems, resultBytes_append, hsizes]
      push_cast
      linarith [Nat.cast_nonneg (α := ℚ) (resultBytes todo)]
    have hheader : bytes.drop scanned.pos = packed (centralHeader s item.entry
        (localRecords s (done.map Item.entry)).length) ++ (item.entry.name ++ rest) := by
      rw [hcentral, centralRecord, append_assoc]
    have hrecord := recordAt_central hone hoffset hheader
    have hbefore : (localRecords s (done.map Item.entry)).length +
        (localRecord s item.entry).length ≤ centralAt := by omega
    have hscan : scanOne u limits bytes centralAt eocd scanned = _ :=
      scanOne_written hone hoffset hcentral hlocal hbefore hend hdecode hnamed
    rw [keep_written hrecord (parts_of_admitted hu hallowed.directory).1 hfiles htotals] at hscan
    have hitems' : items = (done ++ [item]) ++ todo := by
      rw [hitems, append_assoc]
      rfl
    obtain ⟨hsizes', hresults'⟩ := resultBytes_cons item []
    obtain ⟨scanned', entries, hrest, hpos', hentries', hextract⟩ := ih
      ⟨scanned.pos + (46 + item.entry.name.length),
        scanned.names ++ [collisionKey u item.path],
        scanned.entries ++ noted item (localRecords s (done.map Item.entry)).length,
        scanned.total + item.entry.bytes.length⟩ hitems'
      (by rw [hnext]; dsimp only; omega) (by rw [map_append, ← hnames]; rfl)
      (by
        rw [results_append, length_append, length_append, hcount, hresults', length_append]
        unfold noted
        cases item <;> rfl)
      (by rw [resultBytes_append, ← htotal, hsizes']; rfl)
    refine ⟨scanned', noted item (localRecords s (done.map Item.entry)).length ++ entries, ?_,
      hpos', ?_, ?_⟩
    · rw [length_cons, scan, hscan, ok_bind]
      exact hrest
    · rw [hentries', append_assoc]
    · rw [hresults]
      exact extract_noted hlocal hextract

/-- A download that was written is read again as its files. -/
lemma unzip_archive (hu : Separates u)
    (hadmitted : ∀ item ∈ items, item.Admitted u config ∧ Portable item.path)
    (hkeys : (items.map fun item => collisionKey u item.path).Nodup) (hfits : Fits limits s items) :
    unzip u inflate limits (archive s (items.map Item.entry)) = .ok (results items) := by
  have hend := archive_end s (items.map Item.entry)
  have hcount : (items.map Item.entry).length ≤ 65534 := by
    have hcount := hfits.count.trans (min_le_left _ _)
    rw [length_map]
    exact_mod_cast hcount
  have hentries : numberAt (archive s (items.map Item.entry)) (_ + 10) 2 =
      (items.map Item.entry).length :=
    numberAt_packed 4 hend rfl (by simp [endRecord]) (by omega)
  have hsize : numberAt (archive s (items.map Item.entry)) (_ + 12) 4 = _ :=
    numberAt_packed 5 hend rfl (by simp [endRecord]) (lt_field hfits.directory)
  have hstart : numberAt (archive s (items.map Item.entry)) (_ + 16) 4 = _ :=
    numberAt_packed 6 hend rfl (by simp [endRecord]) (lt_field hfits.locals)
  have hdisk : numberAt (archive s (items.map Item.entry)) (_ + 4) 2 = 0 :=
    numberAt_packed 1 hend rfl (by simp [endRecord]) (by norm_num)
  have hdirectoryDisk : numberAt (archive s (items.map Item.entry)) (_ + 6) 2 = 0 :=
    numberAt_packed 2 hend rfl (by simp [endRecord]) (by norm_num)
  have hhere : numberAt (archive s (items.map Item.entry)) (_ + 8) 2 =
      (items.map Item.entry).length :=
    numberAt_packed 3 hend rfl (by simp [endRecord]) (by omega)
  obtain ⟨scanned, entries, hscan, hpos, hkept, hextract⟩ := scan_written hu inflate hadmitted
    hkeys hfits rfl rfl rfl ⟨(localRecords s (items.map Item.entry)).length, [], [], 0⟩
    (nil_append items).symm rfl rfl rfl rfl
  have hlimits : (!isSafeInteger limits.maxBytes || limits.maxBytes < 0 ||
      !isSafeInteger limits.maxFiles || limits.maxFiles < 1) = false := by
    rw [hfits.maxBytes.1, hfits.maxFiles.1, decide_eq_false (not_lt.2 hfits.maxBytes.2),
      decide_eq_false (not_lt.2 hfits.maxFiles.2)]
    rfl
  have hlocals := hfits.locals
  have hdirectory := hfits.directory
  have hmany : ¬min 65534 (limits.maxFiles * 9) < ((items.map Item.entry).length : ℚ) := by
    rw [length_map]
    exact not_lt.2 hfits.count
  unfold unzip
  rw [hlimits, if_neg Bool.false_ne_true, if_neg (not_lt.2 hfits.whole), endAt_archive]
  dsimp only
  rw [hentries, hsize, hstart, hdisk, hdirectoryDisk, hhere, if_neg (by omega), if_neg (by omega),
    if_neg (by omega), if_neg hmany, length_map, hscan, ok_bind, if_neg (by omega), hkept]
  exact hextract

end RoundTrip

/-- A download whose paths the rules admit and the reader does not refuse on its own is read again
as its files, and what is read from any archive stays within its bounds. -/
theorem download_uploaded {u : Unicode} (hu : Separates u)
    (inflate : Option (Bytes → Option Bytes)) (limits : Limits) :
    (∀ (config : Config) (moment : Moment) (items : List Item),
      (∀ item ∈ items, item.Admitted u config ∧ Portable item.path) →
      (items.map fun item => collisionKey u item.path).Nodup →
      Fits limits (dosTime moment) items →
      unzip u inflate limits (zip moment (items.map Item.row)) = .ok (results items)) ∧
    ∀ bytes files, unzip u inflate limits bytes = .ok files → Bounded u limits bytes files := by
  refine ⟨fun config moment items hadmitted hkeys hfits => ?_, fun _ _ => bounded_of_unzip⟩
  have hentries : (items.map Item.row).map entry = items.map Item.entry := map_map
  unfold zip
  rw [hentries]
  exact unzip_archive hu hadmitted hkeys hfits

def usual : Limits := ⟨67108864, 2000⟩

def newYear : Moment := ⟨0, 0, 0, 2026, 0, 1⟩

/-- A text and an empty folder. -/
def paper : List Item := [.file "main.tex".toList (.text "a".toList), .folder "fig".toList]

/-- Names that the path rules admit: one looks as if it began with the letter of a drive, one has a
dot among blanks, and one begins with a line break. -/
def refusedNames : List Path := ["c:x.tex".toList, "a/ ./b.tex".toList, "\nx.tex".toList]

/-- An empty text. -/
def emptyText (path : Path) : List Item := [.file path (.bytes [])]

lemma separates_uncomposed : Separates uncomposed := ⟨fun _ _ _ _ => rfl, rfl⟩

lemma length_localRecords (s : Stamp) (entries : List Entry) : (localRecords s entries).length =
    (entries.map fun one => 30 + (one.name.length + one.bytes.length)).sum := by
  unfold localRecords
  rw [length_flatMap]
  simp only [length_localRecord]

lemma length_centralRecords (s : Stamp) (offset : ℕ) (entries : List Entry) :
    (centralRecords s offset entries).length =
      (entries.map fun one => 46 + one.name.length).sum := by
  induction entries generalizing offset with
  | nil => rfl
  | cons one entries ih =>
    rw [centralRecords, length_append, length_centralRecord, ih, map_cons, sum_cons]

/-- A few small items fit into any archive. -/
lemma fits_usual {s : Stamp} {items : List Item}
    (hnames : ∀ item ∈ items, item.entry.name.length < 256 ^ 2) (hcount : items.length ≤ 1000)
    (hsize : (items.map fun item => 76 + 2 * item.entry.name.length +
      item.entry.bytes.length).sum ≤ 1000) : Fits usual s items := by
  have hlocals : (localRecords s (items.map Item.entry)).length +
      (centralRecords s 0 (items.map Item.entry)).length ≤ 1000 := by
    rw [length_localRecords, length_centralRecords, ← sum_map_add]
    refine le_of_eq_of_le ?_ hsize
    rw [map_map]
    congr 1
    refine map_congr_left fun item _ => ?_
    simp only [Function.comp_apply]
    omega
  have hfiles : (results items).length ≤ 1000 := (length_filterMap_le _ _).trans hcount
  have hbytes : resultBytes items ≤ 1000 := by
    refine le_trans ?_ hsize
    clear hnames hcount hsize hlocals hfiles
    induction items with
    | nil => exact le_rfl
    | cons item items ih =>
      rw [(resultBytes_cons item items).1, map_cons, sum_cons]
      omega
  refine ⟨by decide, by decide, hnames, ?_, ?_, ?_, ?_, by omega, by omega⟩
  · have hcast : (items.length : ℚ) ≤ 1000 := by exact_mod_cast hcount
    refine hcast.trans ?_
    norm_num [usual]
  · have hcast : ((results items).length : ℚ) ≤ 1000 := by exact_mod_cast hfiles
    refine hcast.trans ?_
    norm_num [usual]
  · have hcast : (resultBytes items : ℚ) ≤ 1000 := by exact_mod_cast hbytes
    refine hcast.trans ?_
    norm_num [usual]
  · have hcast : ((archive s (items.map Item.entry)).length : ℚ) ≤ 1022 := by
      rw [length_archive]
      exact_mod_cast Nat.add_le_add_right hlocals 22
    refine hcast.trans ?_
    norm_num [usual]

theorem paper_uploaded : unzip uncomposed none usual (zip newYear (paper.map Item.row)) =
    .ok [⟨"main.tex".toList, "a".toList.flatMap String.utf8EncodeChar⟩] := by
  refine (download_uploaded separates_uncomposed none usual).1 texConfig newYear paper ?_
    (by decide) (fits_usual (by decide) (by decide) (by decide))
  intro item hitem
  simp only [paper, mem_cons, not_mem_nil, or_false] at hitem
  obtain rfl | rfl := hitem
  · exact ⟨⟨.text, by decide⟩, by decide, by decide, by decide, by decide⟩
  · have hadmitted : checkDirectoryPath uncomposed texConfig "fig".toList = none := by decide
    exact ⟨hadmitted, by decide, by decide, by decide, by decide⟩

/-- The rules admit the names, and the reader refuses them. -/
theorem names_refused : refusedNames.Forall fun path =>
    checkPath uncomposed texConfig path = .ok .text ∧
    Fits usual (dosTime newYear) (emptyText path) ∧
    unzip uncomposed none usual (zip newYear ((emptyText path).map Item.row)) ≠
      .ok (results (emptyText path)) := by
  have hinside : ∀ path : Path, ¬Inside path → unzip uncomposed none usual
      (zip newYear ((emptyText path).map Item.row)) ≠ .ok (results (emptyText path)) :=
    fun path hnot h => hnot ((bounded_of_unzip h).inside ⟨path, []⟩ mem_cons_self)
  have hfits : ∀ path ∈ refusedNames, Fits usual (dosTime newYear) (emptyText path) := by
    intro path hpath
    have hsmall : ∀ path ∈ refusedNames, (emptyText path).Forall fun item =>
        item.entry.name.length < 256 ^ 2 ∧
          76 + 2 * item.entry.name.length + item.entry.bytes.length ≤ 1000 := by
      decide
    exact fits_usual (by simpa [emptyText] using (hsmall path hpath).1)
      (Nat.le_of_ble_eq_true rfl) (hsmall path hpath).2
  refine forall_iff_forall_mem.2 fun path hpath => ⟨?_, hfits path hpath, hinside path ?_⟩
  · revert path
    decide
  · simp only [refusedNames, mem_cons, not_mem_nil, or_false] at hpath
    obtain rfl | rfl | rfl := hpath
    · exact fun h => absurd h.noDrive (by decide)
    · exact fun h => absurd (h.trimmed [' ', '.'] (by decide)).1 (by decide)
    · exact fun h => absurd h.noControl (by decide)

end LibrePaper.Zip
