import LibrePaper.Library.Widths

/-!
# Texts as bytes

The UTF-8 encoding of a text, the byte sequences that are one, and texts quoted as JSON
strings.
-/
namespace LibrePaper.Library
open List Option

abbrev Bytes := List UInt8

def utf8 (text : List Char) : Bytes := text.flatMap String.utf8EncodeChar

@[simp] lemma length_utf8 (text : List Char) :
    (utf8 text).length = width Char.utf8Size text := by
  unfold utf8 width
  rw [length_flatMap]
  simp

/-- A continuation byte within bounds. -/
def within (low high b : UInt8) : Bool := decide (low ≤ b) && decide (b ≤ high)

/-- Whether a byte sequence is well-formed UTF-8. -/
def isUtf8 : Bytes → Bool
  | [] => true
  | a :: rest =>
    if a ≤ 0x7f then isUtf8 rest
    else match rest with
      | [] => false
      | b :: rest =>
        if within 0xc2 0xdf a then within 0x80 0xbf b && isUtf8 rest
        else match rest with
          | [] => false
          | c :: rest =>
            if a = 0xe0 then within 0xa0 0xbf b && within 0x80 0xbf c && isUtf8 rest
            else if a = 0xed then within 0x80 0x9f b && within 0x80 0xbf c && isUtf8 rest
            else if within 0xe1 0xef a then
              within 0x80 0xbf b && within 0x80 0xbf c && isUtf8 rest
            else match rest with
              | [] => false
              | d :: rest =>
                let tail := within 0x80 0xbf c && within 0x80 0xbf d && isUtf8 rest
                if a = 0xf0 then within 0x90 0xbf b && tail
                else if within 0xf1 0xf3 a then within 0x80 0xbf b && tail
                else if a = 0xf4 then within 0x80 0x8f b && tail
                else false

example : isUtf8 (utf8 ['a', 'é', '€', '𝄞']) = true := by decide

/-- One character of a JSON string. -/
def escapeJson (c : Char) : List Char :=
  if c = '"' then ['\\', '"']
  else if c = '\\' then ['\\', '\\']
  else if c = '\n' then ['\\', 'n']
  else if c = '\r' then ['\\', 'r']
  else if c = '\t' then ['\\', 't']
  else if c.toNat = 8 then ['\\', 'b']
  else if c.toNat = 12 then ['\\', 'f']
  else if c.toNat < 32 then
    ['\\', 'u', '0', '0', (c.toNat / 16).digitChar, (c.toNat % 16).digitChar]
  else [c]

def quoted (text : List Char) : List Char := '"' :: text.flatMap escapeJson ++ ['"']

/-- Two lower-case digits for each byte. -/
def hex (bytes : Bytes) : List Char :=
  bytes.flatMap fun b => [(b.toNat / 16).digitChar, (b.toNat % 16).digitChar]

def hexDigit (c : Char) : Option ℕ :=
  if '0' ≤ c ∧ c ≤ '9' then some (c.toNat - 48)
  else if 'a' ≤ c ∧ c ≤ 'f' then some (c.toNat - 87)
  else none

/-- The bytes that two lower-case digits each stand for. -/
def unhex : List Char → Option Bytes
  | [] => some []
  | [_] => none
  | a :: b :: rest =>
    (hexDigit a).bind fun high => (hexDigit b).bind fun low =>
      (unhex rest).map fun bytes => (16 * high + low).toUInt8 :: bytes

lemma hexDigit_digitChar : ∀ n < 16, hexDigit n.digitChar = some n := by decide

lemma unhex_hex (bytes : Bytes) : unhex (hex bytes) = some bytes := by
  induction bytes with
  | nil => rfl
  | cons b bytes ih =>
    have hlt : b.toNat < 256 := b.toNat_lt
    have hhigh := hexDigit_digitChar (b.toNat / 16) (by omega)
    have hlow := hexDigit_digitChar (b.toNat % 16) (by omega)
    have hb : (16 * (b.toNat / 16) + b.toNat % 16).toUInt8 = b := by
      rw [Nat.div_add_mod]
      exact UInt8.ofNat_toNat
    change unhex ((b.toNat / 16).digitChar :: (b.toNat % 16).digitChar :: hex bytes) = _
    rw [unhex, hhigh, hlow, ih, bind_some, bind_some, map_some, hb]

lemma escapeJson_digitChar : ∀ n < 16,
    width Char.utf8Size (escapeJson n.digitChar) = 1 := by decide

/-- Digits are quoted as they are. -/
lemma width_quoted_hex (bytes : Bytes) :
    width Char.utf8Size (quoted (hex bytes)) = 2 * bytes.length + 2 := by
  have hdigits : width Char.utf8Size ((hex bytes).flatMap escapeJson) = 2 * bytes.length := by
    induction bytes with
    | nil => rfl
    | cons b bytes ih =>
      have hlt : b.toNat < 256 := b.toNat_lt
      have hhigh := escapeJson_digitChar (b.toNat / 16) (by omega)
      have hlow := escapeJson_digitChar (b.toNat % 16) (by omega)
      change width Char.utf8Size (escapeJson (b.toNat / 16).digitChar ++
        (escapeJson (b.toNat % 16).digitChar ++ (hex bytes).flatMap escapeJson)) = _
      rw [width_append, width_append, hhigh, hlow, ih, length_cons]
      omega
  unfold quoted
  rw [cons_append, width_cons, width_append, hdigits]
  simp only [width_cons, width_nil]
  have hquote : Char.utf8Size '"' = 1 := by decide
  omega

/-- How many bytes one replacement character stands for at the front of bytes that begin with no
character: the longest first part of one, or a byte. -/
def brokenLength : Bytes → ℕ
  | a :: b :: rest =>
    if a = 0xe0 && within 0xa0 0xbf b || a = 0xed && within 0x80 0x9f b ||
        (within 0xe1 0xec a || within 0xee 0xef a) && within 0x80 0xbf b then 2
    else if a = 0xf0 && within 0x90 0xbf b || within 0xf1 0xf3 a && within 0x80 0xbf b ||
        a = 0xf4 && within 0x80 0x8f b then
      match rest with
      | c :: _ => if within 0x80 0xbf c then 3 else 2
      | [] => 2
    else 1
  | _ => 1

/-- The characters of bytes; what is no character is replaced. -/
def lossyChars : ℕ → Bytes → List Char
  | 0, _ => []
  | _, [] => []
  | fuel + 1, bytes => match bytes.toByteArray.utf8DecodeChar? 0 with
    | some c => c :: lossyChars fuel (bytes.drop c.utf8Size)
    | none => '\uFFFD' :: lossyChars fuel (bytes.drop (brokenLength bytes))

/-- The text of bytes, as `String::from_utf8_lossy` reads it. -/
def fromUtf8Lossy (bytes : Bytes) : String := String.ofList (lossyChars bytes.length bytes)

lemma lossyChars_utf8 {text : List Char} {fuel : ℕ} (h : (utf8 text).length ≤ fuel) :
    lossyChars fuel (utf8 text) = text := by
  induction text generalizing fuel with
  | nil => cases fuel <;> rfl
  | cons c text ih =>
    have hcons : utf8 (c :: text) = String.utf8EncodeChar c ++ utf8 text := flatMap_cons
    have hsize := String.length_utf8EncodeChar c
    have hpos := Char.utf8Size_pos c
    rw [hcons, length_append, hsize] at h
    obtain ⟨fuel, rfl⟩ : ∃ n, fuel = n + 1 := ⟨fuel - 1, by omega⟩
    have hdecode : (utf8 (c :: text)).toByteArray.utf8DecodeChar? 0 = some c :=
      utf8DecodeChar?_utf8Encode_cons
    have hdrop : (utf8 (c :: text)).drop c.utf8Size = utf8 text := by rw [hcons, ← hsize, drop_left]
    rw [lossyChars, hdecode]
    · dsimp only
      rw [hdrop, ih (by omega)]
    · intro hnil
      have hlength := congrArg length hnil
      rw [hcons, length_append, hsize, length_nil] at hlength
      omega

/-- A text is read back from its bytes. -/
lemma fromUtf8Lossy_utf8 (text : String) : fromUtf8Lossy (utf8 text.toList) = text := by
  rw [fromUtf8Lossy, lossyChars_utf8 le_rfl, String.ofList_toList]

/-- Only a text that begins with a text has bytes that begin with its bytes. -/
lemma prefix_of_utf8_prefix {a b : List Char} (h : utf8 a <+: utf8 b) : a <+: b := by
  induction a generalizing b with
  | nil => exact nil_prefix
  | cons c a ih =>
    obtain ⟨rest, h⟩ := h
    have hcons : ∀ (c : Char) text, utf8 (c :: text) = String.utf8EncodeChar c ++ utf8 text :=
      fun _ _ => flatMap_cons
    cases b with
    | nil =>
      have hlength := congrArg length h
      have hpos := Char.utf8Size_pos c
      have hsize := String.length_utf8EncodeChar c
      rw [hcons, length_append, length_append, hsize] at hlength
      simp [utf8] at hlength
      omega
    | cons d b =>
      have hc : ((utf8 (c :: a) ++ rest).toByteArray.utf8DecodeChar? 0) = some c := by
        rw [hcons, append_assoc, toByteArray_append]
        exact ByteArray.utf8DecodeChar?_utf8EncodeChar_append
      have hd : ((utf8 (d :: b)).toByteArray.utf8DecodeChar? 0) = some d :=
        utf8DecodeChar?_utf8Encode_cons
      rw [h, hd] at hc
      obtain rfl : d = c := some.inj hc
      rw [hcons, hcons, append_assoc, append_right_inj] at h
      exact (cons_prefix_cons.2 ⟨rfl, ih ⟨rest, h⟩⟩)

end LibrePaper.Library
