import LibrePaper.Library.Tar
import LibrePaper.Source.Paths

/-!
# Source archives

The files of a project in one compressed tar stream: a manifest, the small text files, and
references to assets that are stored elsewhere. Encoding and decoding each check limits of
their own.
-/
namespace LibrePaper.Storage
open Library Source

def ARCHIVE_FORMAT_VERSION : ℕ := 1

structure ArchiveLimits where
  inlineFileBytes : ℕ := 1024 * 1024
  sourceBytes : ℕ := 4 * 1024 * 1024
  archiveBytes : ℕ := 16 * 1024 * 1024
  files : ℕ := 4096

abbrev Digest := { bytes : Bytes // bytes.length = 32 }

inductive SourceFile where
  | inline (path : Path) (bytes : Bytes)
  | asset (path : Path) (assetId : ℕ) (digest : Digest) (bytes : ℕ) (mediaType : List Char)
deriving DecidableEq

/-- Where this file sits in the project. -/
def SourceFile.path : SourceFile → Path
  | .inline path _ => path
  | .asset path _ _ _ _ => path

structure SourceArchive where
  sourceFormat : List Char
  files : List SourceFile
deriving DecidableEq

structure EncodedArchive where
  bytes : Bytes
  digest : Digest
  logicalBytes : ℕ
deriving DecidableEq

inductive ArchiveError where
  | invalid (message : String)
  | io
  | json
deriving DecidableEq

inductive ManifestFile where
  | inline (path : Path) (digest : List Char) (bytes : ℕ)
  | asset (path : Path) (assetId : ℕ) (digest : List Char) (bytes : ℕ) (mediaType : List Char)
deriving DecidableEq

def ManifestFile.path : ManifestFile → Path
  | .inline path _ _ => path
  | .asset path _ _ _ _ => path

structure Manifest where
  version : ℕ
  sourceFormat : List Char
  files : List ManifestFile
deriving DecidableEq

/-- One member of a tar stream as it is read; a path that is not UTF-8 has no text. -/
structure TarEntry where
  file : Bool
  path : Option Path
  body : Bytes

/-- The crates that the archive is built with: tar, zstd, JSON and SHA-256, and how a text is
quoted in a message. A tar stream is read member by member, and a member may fail. -/
structure Crates where
  pack : List (Path × Bytes) → Bytes
  unpack : Bytes → List (Option TarEntry)
  compress : Bytes → Bytes
  decompress : Bytes → Option Bytes
  parse : Bytes → Option Manifest
  digest : Bytes → Digest
  debug : Path → String

def number (n : ℕ) : List Char := (toString n).toList

/-- The hyphenated form of an id. -/
def uuidText (id : ℕ) : List Char :=
  let digits := (List.range 32).reverse.map fun i => (id / 16 ^ i % 16).digitChar
  digits.take 8 ++ '-' :: (digits.drop 8).take 4 ++ '-' :: (digits.drop 12).take 4 ++
    '-' :: (digits.drop 16).take 4 ++ '-' :: digits.drop 20

def commas : List (List Char) → List Char
  | [] => []
  | [a] => a
  | a :: rest => a ++ ',' :: commas rest

def ManifestFile.json : ManifestFile → List Char
  | .inline path digest bytes =>
    "\x7b\"kind\":\"inline\",\"path\":".toList ++ quoted path ++ ",\"digest\":".toList ++
      quoted digest ++ ",\"bytes\":".toList ++ number bytes ++ ['\x7d']
  | .asset path assetId digest bytes mediaType =>
    "\x7b\"kind\":\"asset\",\"path\":".toList ++ quoted path ++ ",\"asset_id\":".toList ++
      quoted (uuidText assetId) ++ ",\"digest\":".toList ++ quoted digest ++
      ",\"bytes\":".toList ++ number bytes ++ ",\"media_type\":".toList ++ quoted mediaType ++ ['\x7d']

def Manifest.json (m : Manifest) : List Char :=
  "\x7b\"version\":".toList ++ number m.version ++ ",\"source_format\":".toList ++
    quoted m.sourceFormat ++ ",\"files\":[".toList ++
    commas (m.files.map ManifestFile.json) ++ [']', '\x7d']

def invalid {α : Type} (message : String) : Except ArchiveError α := .error (.invalid message)

def MANIFEST_PATH : Path := "manifest.json".toList
def FILE_PREFIX : Path := "files/".toList

def formats : List (List Char) :=
  ["markdown".toList, "html".toList, "typst".toList, "latex".toList, "quarto".toList]

section
variable (c : Crates)

def validateFormat (format : List Char) : Except ArchiveError Unit :=
  if format ∈ formats then .ok ()
  else invalid ("unsupported source format " ++ c.debug format)

/-- `RelPath::try_from`: what a relative path may be. -/
def relPath (path : Path) : Bool :=
  !path.isEmpty && path.head? != some '/' && !path.contains '\\' &&
    !(path.any fun ch => ch.toNat < 0x20 || ch.toNat == 0x7f) &&
    !((path.splitOn '/').any fun part => part == [] || part == ['.'] || part == ['.', '.'])

def validatePath (path : Path) : Except ArchiveError Unit :=
  if 4096 < lenUtf8 path || !relPath path then
    invalid ("invalid project path " ++ c.debug path)
  else .ok ()

/-- The first path that occurs a second time. -/
def firstDuplicate : List Path → List Path → Option Path
  | _, [] => none
  | found, path :: rest => if path ∈ found then some path else firstDuplicate (path :: found) rest

def rejectDuplicatePaths (paths : List Path) : Except ArchiveError Unit :=
  match firstDuplicate [] paths with
  | some path => invalid ("duplicate project path " ++ c.debug path)
  | none => .ok ()

/-- `u64::checked_add`. -/
def checkedAdd (a b : ℕ) : Except ArchiveError ℕ :=
  if a + b < 2 ^ 64 then .ok (a + b) else invalid "source byte count overflow"

/-- The checks of one file, and the logical bytes after it. -/
def checkFile (limits : ArchiveLimits) (logical : ℕ) (file : SourceFile) :
    Except ArchiveError ℕ := do
  validatePath c file.path
  match file with
  | .inline path bytes =>
    if limits.inlineFileBytes < bytes.length then
      invalid ("inline file " ++ c.debug path ++ " exceeds " ++ toString limits.inlineFileBytes ++
        " bytes")
    else if !isUtf8 bytes then invalid ("inline file " ++ c.debug path ++ " is not UTF-8")
    else checkedAdd logical bytes.length
  | .asset path _ _ bytes mediaType =>
    if mediaType.isEmpty || 255 < lenUtf8 mediaType then
      invalid ("asset " ++ c.debug path ++ " has an invalid media type")
    else checkedAdd logical bytes

def checkFiles (limits : ArchiveLimits) : ℕ → List SourceFile → Except ArchiveError ℕ
  | logical, [] => .ok logical
  | logical, file :: rest => do checkFiles limits (← checkFile c limits logical file) rest

/-- What the manifest says of a file. -/
def manifestFile : SourceFile → ManifestFile
  | .inline path bytes => .inline path (hex (c.digest bytes).1) bytes.length
  | .asset path assetId digest bytes mediaType =>
    .asset path assetId (hex digest.1) bytes mediaType

end

def inlineFile : SourceFile → Option (Path × Bytes)
  | .inline path bytes => some (path, bytes)
  | .asset _ _ _ _ _ => none

/-- The small text files, in order. -/
def inlineFiles (files : List SourceFile) : List (Path × Bytes) := files.filterMap inlineFile

def inlineBytes (files : List SourceFile) : ℕ := ((inlineFiles files).map fun f => f.2.length).sum

/-- The files by path; files with one path stay in order. -/
def sorted (files : List SourceFile) : List SourceFile :=
  files.insertionSort fun left right => left.path ≤ right.path

section
variable (c : Crates)

def manifestOf (format : List Char) (files : List SourceFile) : Manifest :=
  ⟨ARCHIVE_FORMAT_VERSION, format, files.map (manifestFile c)⟩

/-- The members of the tar stream. -/
def membersOf (format : List Char) (files : List SourceFile) : List (Path × Bytes) :=
  (MANIFEST_PATH, utf8 (manifestOf c format files).json) ::
    (inlineFiles files).map fun f => (FILE_PREFIX ++ f.1, f.2)

def encode (archive : SourceArchive) (limits : ArchiveLimits) :
    Except ArchiveError EncodedArchive := do
  validateFormat c archive.sourceFormat
  if limits.files < archive.files.length then
    invalid ("source archive has " ++ toString archive.files.length ++ " files; expected 0..=" ++
      toString limits.files)
  else
    let files := sorted archive.files
    rejectDuplicatePaths c (files.map SourceFile.path)
    let logicalBytes ← checkFiles c limits 0 files
    if limits.sourceBytes < inlineBytes files then
      invalid ("inline source is " ++ toString (inlineBytes files) ++ " bytes; limit is " ++
        toString limits.sourceBytes)
    else
      let bytes := c.compress (c.pack (membersOf c archive.sourceFormat files))
      if limits.archiveBytes < bytes.length then
        invalid ("compressed source archive is " ++ toString bytes.length ++ " bytes; limit is " ++
          toString limits.archiveBytes)
      else .ok ⟨bytes, c.digest bytes, logicalBytes⟩

end

def usizeMax : ℕ := 2 ^ 64 - 1

def saturatingAdd (a b : ℕ) : ℕ := min (a + b) usizeMax
def saturatingMul (a b : ℕ) : ℕ := min (a * b) usizeMax

/-- The most bytes that the tar stream may take. -/
def expandedLimit (limits : ArchiveLimits) : ℕ :=
  saturatingAdd (saturatingAdd limits.sourceBytes (saturatingMul limits.files 2048)) (1024 * 1024)

/-- `Digest::from_str`. -/
def parseDigest (text : List Char) : Option Digest :=
  (unhex text).bind fun bytes => if h : bytes.length = 32 then some ⟨bytes, h⟩ else none

/-- What the members read so far come to: the manifest, and the bodies by path. -/
structure Members where
  manifest : Option Manifest := none
  inline : AList (fun _ : Path => Bytes) := ∅

section
variable (c : Crates)

/-- A member whose path has been read. -/
def readMember (m : Members) (path : Path) (body : Bytes) : Except ArchiveError Members :=
  if path = MANIFEST_PATH then
    if m.manifest.isSome then invalid "duplicate source manifest"
    else match c.parse body with
      | some manifest => .ok { m with manifest := some manifest }
      | none => .error .json
  else if FILE_PREFIX.isPrefixOf path then do
    let sourcePath := path.drop FILE_PREFIX.length
    validatePath c sourcePath
    if sourcePath ∈ m.inline then invalid "duplicate inline source path"
    else .ok { m with inline := m.inline.insert sourcePath body }
  else invalid ("unexpected archive entry " ++ c.debug path)

def readMembers : Members → List (Option TarEntry) → Except ArchiveError Members
  | m, [] => .ok m
  | _, none :: _ => .error .io
  | m, some entry :: rest =>
    if !entry.file then invalid "source archive contains a non-file entry"
    else match entry.path with
      | none => invalid "source archive contains a non-UTF-8 path"
      | some path => do readMembers (← readMember c m path entry.body) rest

/-- One file of the manifest, and the bodies that are left. -/
def readFile (inline : AList fun _ : Path => Bytes) :
    ManifestFile → Except ArchiveError (SourceFile × ℕ × AList fun _ : Path => Bytes)
  | .inline path digest bytes =>
    match inline.lookup path with
    | none => invalid ("missing inline file " ++ c.debug path)
    | some body =>
      if body.length ≠ bytes ∨ hex (c.digest body).1 ≠ digest then
        invalid ("inline file " ++ c.debug path ++ " does not match its manifest")
      else if !isUtf8 body then invalid ("inline file " ++ c.debug path ++ " is not UTF-8")
      else .ok (.inline path body, bytes, inline.erase path)
  | .asset path assetId digest bytes mediaType =>
    match parseDigest digest with
    | none => invalid ("asset " ++ c.debug path ++ " has an invalid digest")
    | some digest => .ok (.asset path assetId digest bytes mediaType, 0, inline)

/-- The files of the manifest with what they take inline, and the bodies that are left. -/
def readFiles : AList (fun _ : Path => Bytes) → ℕ → List ManifestFile →
    Except ArchiveError (List SourceFile × ℕ × AList fun _ : Path => Bytes)
  | inline, total, [] => .ok ([], total, inline)
  | inline, total, file :: rest => do
    validatePath c file.path
    let (read, bytes, left) ← readFile c inline file
    let (files, total, left) ← readFiles left (saturatingAdd total bytes) rest
    .ok (read :: files, total, left)

/-- What the manifest and the bodies come to. -/
def assemble (limits : ArchiveLimits) (m : Members) : Except ArchiveError SourceArchive :=
  match m.manifest with
  | none => invalid "missing source manifest"
  | some manifest =>
    if manifest.version ≠ ARCHIVE_FORMAT_VERSION then
      invalid ("unsupported source archive version " ++ toString manifest.version)
    else do
      validateFormat c manifest.sourceFormat
      if limits.files < manifest.files.length then
        invalid "source archive file count is outside limits"
      else
        rejectDuplicatePaths c (manifest.files.map ManifestFile.path)
        let (files, total, left) ← readFiles c m.inline 0 manifest.files
        if left.entries ≠ [] then invalid "archive has unlisted inline files"
        else if limits.sourceBytes < total then invalid "inline source exceeds limit"
        else .ok ⟨manifest.sourceFormat, files⟩

def decode (bytes : Bytes) (limits : ArchiveLimits) : Except ArchiveError SourceArchive :=
  if limits.archiveBytes < bytes.length then
    invalid "compressed source archive exceeds limit"
  else match c.decompress bytes with
    | none => .error .io
    | some stream =>
      let tarBytes := stream.take (saturatingAdd (expandedLimit limits) 1)
      if expandedLimit limits < tarBytes.length then
        invalid "expanded source archive exceeds limit"
      else do assemble c limits (← readMembers c {} (c.unpack tarBytes))

end
end LibrePaper.Storage
