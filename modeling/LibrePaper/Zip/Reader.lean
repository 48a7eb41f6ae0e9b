import LibrePaper.Library.Fallible
import LibrePaper.Source.Browser
import LibrePaper.Zip.Writer

/-!
# Reading a zip file

The reader trusts nothing that an archive states: the record at the end, the records of the
directory and the headers before the data are checked against each other and against the limits,
and only then is an entry taken out.
-/
namespace LibrePaper.Zip
open Library
open Source (Path Unicode)
open Source.Browser (strip isSpace collisionKey)

/-- How much an archive may hold. -/
structure Limits where
  maxBytes : ℚ
  maxFiles : ℚ

/-- Why an archive is refused. The shell shows a message of its language for each. -/
inductive Refusal where
  | invalidLimits
  | tooLarge
  | notReadable
  | zip64
  | split
  | corrupt
  | tooManyEntries
  | utf8Names
  | invalidPath
  | duplicateName (name : Path)
  | encrypted (name : Path)
  | specialFile (name : Path)
  | unsupportedCompression (name : Path)
  | tooManyFiles (max : ℚ)
  | noDeflate
  | decompressFailed (path : Path)
  | corruptNear (path : Path)

def isSafeInteger (x : ℚ) : Bool := x.den = 1 && x.num.natAbs ≤ 2 ^ 53 - 1

/-- What the decoder of the browser reads: a mark of the byte order at the front is left out. -/
def decode (bytes : Bytes) : Option (List Char) :=
  bytes.toByteArray.utf8Decode?.map fun text =>
    if text.toList.head? = some '\uFEFF' then text.toList.tail else text.toList

/-- Where the record at the end is: the last place from which it and its comment fill the file. -/
def endAt (bytes : Bytes) : Option ℕ :=
  if bytes.length < 22 then none
  else ((List.range (min (bytes.length - 22) 0xffff + 1)).map fun back =>
    bytes.length - 22 - back).find? fun pos =>
      numberAt bytes pos 4 = 0x06054b50 && pos + 22 + numberAt bytes (pos + 20) 2 = bytes.length

/-- A record of the directory. -/
structure Record where
  signature : ℕ
  flags : ℕ
  method : ℕ
  expectedCrc : ℕ
  compressed : ℕ
  size : ℕ
  nameSize : ℕ
  extraSize : ℕ
  commentSize : ℕ
  disk : ℕ
  external : ℕ
  localAt : ℕ

def recordAt (bytes : Bytes) (pos : ℕ) : Record where
  signature := numberAt bytes pos 4
  flags := numberAt bytes (pos + 8) 2
  method := numberAt bytes (pos + 10) 2
  expectedCrc := numberAt bytes (pos + 16) 4
  compressed := numberAt bytes (pos + 20) 4
  size := numberAt bytes (pos + 24) 4
  nameSize := numberAt bytes (pos + 28) 2
  extraSize := numberAt bytes (pos + 30) 2
  commentSize := numberAt bytes (pos + 32) 2
  disk := numberAt bytes (pos + 34) 2
  external := numberAt bytes (pos + 38) 4
  localAt := numberAt bytes (pos + 42) 4

/-- The bytes of a record with its name and what follows the name. -/
def Record.span (r : Record) : ℕ := 46 + r.nameSize + r.extraSize + r.commentSize

def Record.fileType (r : Record) : ℕ := (r.external >>> 16) &&& 0xf000

/-- The name in a record of the directory. -/
def encodedName (bytes : Bytes) (pos : ℕ) : Bytes :=
  (bytes.drop (pos + 46)).take (recordAt bytes pos).nameSize

def readRecord (bytes : Bytes) (eocd pos : ℕ) : Except Refusal Record :=
  let r := recordAt bytes pos
  if eocd < pos + 46 ∨ r.signature ≠ 0x02014b50 then .error .corrupt
  else if r.disk ≠ 0 then .error .split
  else if 0xffffffff ∈ [r.compressed, r.size, r.localAt] then .error .zip64
  else if eocd < pos + r.span then .error .corrupt
  else .ok r

def control (c : Char) : Bool := c.toNat ≤ 0x1f || c.toNat == 0x7f

/-- Whether a name begins with the letter of a drive. -/
def drive : Path → Bool
  | c :: ':' :: _ => c.isAlpha
  | _ => false

/-- A name without the slash that marks a directory. -/
def pathOf (name : Path) : Path := if ['/'].isSuffixOf name then name.dropLast else name

def badPart (part : List Char) : Bool :=
  part.isEmpty || strip isSpace part = ['.'] || strip isSpace part = ['.', '.']

def readName (u : Unicode) (names : List Path) (encoded : Bytes) : Except Refusal Path :=
  match decode encoded with
  | none => .error .utf8Names
  | some name =>
    if name = [] ∨ ['/'].isPrefixOf name ∨ '\\' ∈ name ∨ drive name ∨ name.any control then
      .error .invalidPath
    else if ((pathOf name).splitOn '/').any badPart then .error .invalidPath
    else if collisionKey u (pathOf name) ∈ names then .error (.duplicateName name)
    else .ok name

/-- An entry that is to be taken out. -/
structure Member where
  path : Path
  dataAt : ℕ
  compressed : ℕ
  size : ℕ
  method : ℕ
  expectedCrc : ℕ

def checkKind (r : Record) (name : Path) : Except Refusal Unit :=
  if r.flags &&& 0x41 ≠ 0 then .error (.encrypted name)
  else if r.fileType ≠ 0 ∧ r.fileType ≠ 0x8000 ∧ r.fileType ≠ 0x4000 then
    .error (.specialFile name)
  else if r.method ≠ 0 ∧ r.method ≠ 8 then .error (.unsupportedCompression name)
  else .ok ()

/-- Where the data of a record are, when the header before them agrees with it. -/
def openLocal (bytes : Bytes) (centralAt : ℕ) (r : Record) (encoded : Bytes) :
    Except Refusal ℕ :=
  let header := r.localAt
  let nameSize := numberAt bytes (header + 26) 2
  let dataAt := header + 30 + nameSize + numberAt bytes (header + 28) 2
  if centralAt < header + 30 ∨ numberAt bytes header 4 ≠ 0x04034b50 then .error .corrupt
  else if centralAt < dataAt + r.compressed ∨ nameSize ≠ r.nameSize ∨
      numberAt bytes (header + 8) 2 ≠ r.method ∨ numberAt bytes (header + 6) 2 ≠ r.flags then
    .error .corrupt
  else if encoded ≠ (bytes.drop (header + 30)).take encoded.length then .error .corrupt
  else if r.flags &&& 8 = 0 ∧ (numberAt bytes (header + 14) 4 ≠ r.expectedCrc ∨
      numberAt bytes (header + 18) 4 ≠ r.compressed ∨
      numberAt bytes (header + 22) 4 ≠ r.size) then .error .corrupt
  else .ok dataAt

/-- What the reader knows after some records. -/
structure Scan where
  pos : ℕ
  names : List Path
  entries : List Member
  total : ℕ

/-- Whether a record is one of a directory. -/
def isFolder (r : Record) (name : Path) : Bool :=
  ['/'].isSuffixOf name || r.fileType = 0x4000

/-- A record that passed its checks is noted. -/
def keep (u : Unicode) (limits : Limits) (s : Scan) (r : Record) (name : Path) (dataAt : ℕ) :
    Except Refusal Scan :=
  let s := { s with
    pos := s.pos + r.span
    names := s.names ++ [collisionKey u (pathOf name)] }
  if isFolder r name then
    if r.size ≠ 0 then .error .corrupt else .ok s
  else if limits.maxFiles ≤ s.entries.length then .error (.tooManyFiles limits.maxFiles)
  else if limits.maxBytes - s.total < r.size then .error .tooLarge
  else .ok { s with
    entries := s.entries ++ [⟨name, dataAt, r.compressed, r.size, r.method, r.expectedCrc⟩]
    total := s.total + r.size }

section Archive
variable (u : Unicode) (limits : Limits) (bytes : Bytes) (centralAt eocd : ℕ)

def scanOne (s : Scan) : Except Refusal Scan := do
  let r ← readRecord bytes eocd s.pos
  let name ← readName u s.names (encodedName bytes s.pos)
  checkKind r name
  let dataAt ← openLocal bytes centralAt r (encodedName bytes s.pos)
  keep u limits s r name dataAt

def scan : ℕ → Scan → Except Refusal Scan
  | 0, s => .ok s
  | n + 1, s => do
    let s ← scanOne u limits bytes centralAt eocd s
    scan n s

end Archive

/-- A file of an archive. -/
structure File where
  path : Path
  bytes : Bytes

/-- The bytes of an entry; the browser may have no way to inflate them. -/
def readBody (inflate : Option (Bytes → Option Bytes)) (bytes : Bytes) (e : Member) :
    Except Refusal Bytes :=
  let body := (bytes.drop e.dataAt).take e.compressed
  if e.method ≠ 8 then .ok body
  else match inflate with
    | none => .error .noDeflate
    | some inflate => match inflate body with
      | none => .error (.decompressFailed e.path)
      | some body => if e.size < body.length then .error (.decompressFailed e.path) else .ok body

def extract (inflate : Option (Bytes → Option Bytes)) (bytes : Bytes) (e : Member) :
    Except Refusal File := do
  let body ← readBody inflate bytes e
  if body.length ≠ e.size ∨ crc32 body ≠ e.expectedCrc then .error (.corruptNear e.path)
  else .ok ⟨e.path, body⟩

def extractAll (inflate : Option (Bytes → Option Bytes)) (bytes : Bytes) :
    List Member → Except Refusal (List File)
  | [] => .ok []
  | e :: entries => do
    let file ← extract inflate bytes e
    let files ← extractAll inflate bytes entries
    .ok (file :: files)

def unzip (u : Unicode) (inflate : Option (Bytes → Option Bytes)) (limits : Limits)
    (bytes : Bytes) : Except Refusal (List File) :=
  if !isSafeInteger limits.maxBytes || limits.maxBytes < 0 || !isSafeInteger limits.maxFiles ||
      limits.maxFiles < 1 then .error .invalidLimits
  else if limits.maxBytes + limits.maxFiles * 1024 + 65557 < bytes.length then .error .tooLarge
  else match endAt bytes with
    | none => .error .notReadable
    | some eocd =>
      let count := numberAt bytes (eocd + 10) 2
      let centralSize := numberAt bytes (eocd + 12) 4
      let centralAt := numberAt bytes (eocd + 16) 4
      if count = 0xffff ∨ centralAt = 0xffffffff ∨ centralSize = 0xffffffff then .error .zip64
      else if numberAt bytes (eocd + 4) 2 ≠ 0 ∨ numberAt bytes (eocd + 6) 2 ≠ 0 ∨
          numberAt bytes (eocd + 8) 2 ≠ count then .error .split
      else if centralAt + centralSize ≠ eocd then .error .corrupt
      else if min 65534 (limits.maxFiles * 9) < count then .error .tooManyEntries
      else do
        let s ← scan u limits bytes centralAt eocd count ⟨centralAt, [], [], 0⟩
        if s.pos ≠ eocd then .error .corrupt
        else extractAll inflate bytes s.entries

end LibrePaper.Zip
