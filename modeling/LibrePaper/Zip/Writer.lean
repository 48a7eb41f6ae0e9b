import LibrePaper.Library.Little
import LibrePaper.Source.Change

/-!
# Writing a zip file

A download is an archive of stored entries: for each a header, its name and its bytes, then a
directory with a record for each, and a fixed record at the end.
-/
namespace LibrePaper.Zip
open Library List
open Source (Path)

def crcShift (c : BitVec 32) : BitVec 32 :=
  if c.getLsbD 0 then 0xedb88320#32 ^^^ (c >>> 1) else c >>> 1

def crcTable (n : ℕ) : BitVec 32 := crcShift^[8] (BitVec.ofNat 32 n)

/-- The checksum that an entry carries. -/
def crc32 (bytes : Bytes) : ℕ :=
  let step (c : BitVec 32) (b : UInt8) : BitVec 32 :=
    crcTable ((c ^^^ b.toBitVec.setWidth 32) &&& 0xff#32).toNat ^^^ (c >>> 8)
  (bytes.foldl step 0xffffffff#32 ^^^ 0xffffffff#32).toNat

lemma crc32_lt (bytes : Bytes) : crc32 bytes < 256 ^ 4 := BitVec.isLt _

/-- A clock as `Date` shows it; the months are counted from zero. -/
structure Moment where
  hours : ℕ
  minutes : ℕ
  seconds : ℕ
  year : ℕ
  month : ℕ
  day : ℕ

structure Stamp where
  time : ℕ
  date : ℕ

/-- Seconds in units of two, and a year counted from 1980. -/
def dosTime (moment : Moment) : Stamp where
  time := (moment.hours <<< 11) ||| (moment.minutes <<< 5) ||| (moment.seconds / 2)
  date := ((moment.year - 1980) <<< 9) ||| ((moment.month + 1) <<< 5) ||| moment.day

/-- What a path of a download stands for. -/
inductive Body where
  | text (text : List Char)
  | bytes (bytes : Bytes)

def Body.encode : Body → Bytes
  | .text chars => utf8 chars
  | .bytes body => body

structure Entry where
  name : Bytes
  directory : Bool
  bytes : Bytes
  crc : ℕ

def entry (file : Path × Body) : Entry where
  name := utf8 file.1
  directory := ['/'].isSuffixOf file.1
  bytes := file.2.encode
  crc := crc32 file.2.encode

def localHeader (s : Stamp) (one : Entry) : List (ℕ × ℕ) :=
  [(4, 0x04034b50), (2, 20), (2, 1 <<< 11), (2, 0), (2, s.time), (2, s.date), (4, one.crc),
    (4, one.bytes.length), (4, one.bytes.length), (2, one.name.length), (2, 0)]

def localRecord (s : Stamp) (one : Entry) : Bytes :=
  packed (localHeader s one) ++ (one.name ++ one.bytes)

def centralHeader (s : Stamp) (one : Entry) (offset : ℕ) : List (ℕ × ℕ) :=
  [(4, 0x02014b50), (2, 20), (2, 20), (2, 1 <<< 11), (2, 0), (2, s.time), (2, s.date),
    (4, one.crc), (4, one.bytes.length), (4, one.bytes.length), (2, one.name.length), (2, 0),
    (2, 0), (2, 0), (2, 0), (4, if one.directory then 0x10 else 0), (4, offset)]

def centralRecord (s : Stamp) (one : Entry) (offset : ℕ) : Bytes :=
  packed (centralHeader s one offset) ++ one.name

def localRecords (s : Stamp) (entries : List Entry) : Bytes := entries.flatMap (localRecord s)

/-- The directory of entries whose headers stand one after another from an offset on. -/
def centralRecords (s : Stamp) : ℕ → List Entry → Bytes
  | _, [] => []
  | offset, one :: entries =>
    centralRecord s one offset ++ centralRecords s (offset + (localRecord s one).length) entries

def endRecord (count directorySize directoryAt : ℕ) : List (ℕ × ℕ) :=
  [(4, 0x06054b50), (2, 0), (2, 0), (2, count), (2, count), (4, directorySize), (4, directoryAt),
    (2, 0)]

def archive (s : Stamp) (entries : List Entry) : Bytes :=
  let locals := localRecords s entries
  let directory := centralRecords s 0 entries
  locals ++ (directory ++ packed (endRecord entries.length directory.length locals.length))

/-- The archive of files, in the order in which the object lists them. -/
def zip (moment : Moment) (files : List (Path × Body)) : Bytes :=
  archive (dosTime moment) (files.map entry)

lemma length_localRecord (s : Stamp) (one : Entry) :
    (localRecord s one).length = 30 + (one.name.length + one.bytes.length) := by
  have hheader : ((localHeader s one).map Prod.fst).sum = 30 := by simp [localHeader]
  unfold localRecord
  rw [length_append, length_append, length_packed, hheader]

lemma length_centralRecord (s : Stamp) (one : Entry) (offset : ℕ) :
    (centralRecord s one offset).length = 46 + one.name.length := by
  have hheader : ((centralHeader s one offset).map Prod.fst).sum = 46 := by simp [centralHeader]
  unfold centralRecord
  rw [length_append, length_packed, hheader]

lemma centralRecords_append (s : Stamp) (offset : ℕ) (entries entries' : List Entry) :
    centralRecords s offset (entries ++ entries') = centralRecords s offset entries ++
      centralRecords s (offset + (localRecords s entries).length) entries' := by
  induction entries generalizing offset with
  | nil => rfl
  | cons one entries ih =>
    have hlocal : (localRecords s (one :: entries)).length =
        (localRecord s one).length + (localRecords s entries).length := length_append
    rw [cons_append, centralRecords, ih, centralRecords, append_assoc, hlocal, Nat.add_assoc]

end LibrePaper.Zip
