import LibrePaper.Library.Utf8

/-!
# Tape archives

An archive is a sequence of blocks of 512 bytes: for each member a header and its body, and
before them a record that holds the name when it does not fit into the header. Two empty
blocks end it.
-/
namespace LibrePaper.Library.Tar
open List

def BLOCK : ℕ := 512

/-- The bytes of the blocks that hold `n` bytes. -/
def padded (n : ℕ) : ℕ := (n + (BLOCK - 1)) / BLOCK * BLOCK

/-- A field of `n` bytes, filled up with zeros. -/
def field (n : ℕ) (l : Bytes) : Bytes := (l ++ List.replicate n 0).take n

@[simp] lemma length_field (n : ℕ) (l : Bytes) : (field n l).length = n := by
  unfold field
  rw [length_take, length_append, length_replicate]
  omega

/-- The last digits of a number in base eight, and a zero byte. -/
def octal (digits n : ℕ) : Bytes :=
  ((List.range digits).reverse.map fun i => (48 + n / 8 ^ i % 8).toUInt8) ++ [0]

@[simp] lemma length_octal (digits n : ℕ) : (octal digits n).length = digits + 1 := by
  simp [octal]

def magic : Bytes := [117, 115, 116, 97, 114, 32, 32, 0]

/-- The fields before the checksum. -/
def opening (name : Bytes) (mode size : ℕ) : Bytes :=
  field 100 name ++ octal 7 mode ++ octal 7 0 ++ octal 7 0 ++ octal 11 size ++ octal 11 0

/-- The fields after the checksum. -/
def closing (kind : UInt8) : Bytes := kind :: field 100 [] ++ magic ++ field 247 []

/-- A header; its checksum is taken over blanks in the place of the checksum. -/
def header (name : Bytes) (mode size : ℕ) (kind : UInt8) : Bytes :=
  opening name mode size ++
    octal 7 ((opening name mode size ++ List.replicate 8 32 ++ closing kind).map UInt8.toNat).sum ++
    closing kind

@[simp] lemma length_header (name : Bytes) (mode size : ℕ) (kind : UInt8) :
    (header name mode size kind).length = BLOCK := by
  simp [header, opening, closing, magic, BLOCK]

def blocks (body : Bytes) : Bytes := field (padded body.length) body

/-- The longest start of a name that fits into a header. -/
def shortName (path : List Char) : Bytes := utf8 (path.take (floorAt Char.utf8Size path 100))

/-- The record that holds a long name. -/
def longName (path : List Char) : Bytes :=
  if 100 < width Char.utf8Size path then
    header [46, 47, 46, 47, 64, 76, 111, 110, 103, 76, 105, 110, 107] 0o644
      (width Char.utf8Size path + 1) 76 ++ blocks (utf8 path ++ [0])
  else []

def member (path : List Char) (body : Bytes) : Bytes :=
  longName path ++ header (shortName path) 0o600 body.length 48 ++ blocks body

def pack (members : List (List Char × Bytes)) : Bytes :=
  members.flatMap (fun m => member m.1 m.2) ++ List.replicate (2 * BLOCK) 0

/-- What a member takes in the archive. -/
def memberSize (path body : ℕ) : ℕ :=
  (if 100 < path then BLOCK + padded (path + 1) else 0) + BLOCK + padded body

/-- What an archive takes, from the lengths of names and bodies. -/
def size (members : List (ℕ × ℕ)) : ℕ :=
  (members.map fun m => memberSize m.1 m.2).sum + 2 * BLOCK

lemma length_member (path : List Char) (body : Bytes) :
    (member path body).length = memberSize (width Char.utf8Size path) body.length := by
  unfold member longName memberSize blocks
  split_ifs with h
  · rw [length_append, length_append, length_append, length_header, length_header,
      length_field, length_field, length_append, length_utf8, length_singleton]
  · rw [length_append, length_append, length_header, length_field, length_nil]

lemma length_pack (members : List (List Char × Bytes)) : (pack members).length =
    size (members.map fun m => (width Char.utf8Size m.1, m.2.length)) := by
  unfold pack size
  rw [length_append, length_flatMap, length_replicate, map_map]
  simp only [length_member]
  rfl

end LibrePaper.Library.Tar
