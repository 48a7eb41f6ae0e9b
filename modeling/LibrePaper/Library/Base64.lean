import LibrePaper.Library.Utf8

/-!
# Bytes in base 64

The alphabet for addresses, without padding.
-/
namespace LibrePaper.Library.Base64
open List Option

def alphabet : List Char :=
  "ABCDEFGHIJKLMNOPQRSTUVWXYZabcdefghijklmnopqrstuvwxyz0123456789-_".toList

def digit (n : ℕ) : Char := alphabet.getD n 'A'

def value (c : Char) : Option ℕ := alphabet.idxOf? c

lemma value_digit : ∀ n < 64, value (digit n) = some n := by decide

/-- Three bytes are four digits; one or two that are left are two or three. -/
def encode : Bytes → List Char
  | a :: b :: c :: bytes =>
    let v := a.toNat * 65536 + b.toNat * 256 + c.toNat
    digit (v / 262144) :: digit (v / 4096 % 64) :: digit (v / 64 % 64) :: digit (v % 64) ::
      encode bytes
  | [a, b] =>
    let v := a.toNat * 256 + b.toNat
    [digit (v / 1024), digit (v / 16 % 64), digit (v % 16 * 4)]
  | [a] => [digit (a.toNat / 4), digit (a.toNat % 4 * 16)]
  | [] => []

/-- The bytes of digits. The bits that fill the last digit up must be zero. -/
def decode : List Char → Option Bytes
  | a :: b :: c :: d :: text => do
    let v := (← value a) * 262144 + (← value b) * 4096 + (← value c) * 64 + (← value d)
    let bytes ← decode text
    some (.ofNat (v / 65536) :: .ofNat (v / 256 % 256) :: .ofNat (v % 256) :: bytes)
  | [a, b, c] => do
    let v := (← value a) * 4096 + (← value b) * 64 + (← value c)
    if v % 4 = 0 then some [.ofNat (v / 1024), .ofNat (v / 4 % 256)] else none
  | [a, b] => do
    let v := (← value a) * 64 + (← value b)
    if v % 16 = 0 then some [.ofNat (v / 16)] else none
  | [_] => none
  | [] => some []

lemma ofNat_of_eq {a : UInt8} {n : ℕ} (h : n = a.toNat) : UInt8.ofNat n = a := by
  rw [h, UInt8.ofNat_toNat]

lemma sum_two (v : ℕ) : v / 64 * 64 + v % 64 = v := by omega

lemma sum_three (v : ℕ) : v / 4096 * 4096 + v / 64 % 64 * 64 + v % 64 = v := by
  have hhigh := sum_two (v / 64)
  have hlow := sum_two v
  rw [Nat.div_div_eq_div_mul] at hhigh
  omega

lemma sum_four (v : ℕ) :
    v / 262144 * 262144 + v / 4096 % 64 * 4096 + v / 64 % 64 * 64 + v % 64 = v := by
  have hhigh : v / 262144 * 4096 + v / 4096 % 64 * 64 + v / 64 % 64 = v / 64 := by
    have hsum := sum_three (v / 64)
    rwa [Nat.div_div_eq_div_mul, Nat.div_div_eq_div_mul] at hsum
  have hlow := sum_two v
  linarith

/-- Two bytes are three digits with two bits left over. -/
lemma sum_padded (v : ℕ) : v / 1024 * 4096 + v / 16 % 64 * 64 + v % 16 * 4 = v * 4 := by
  have hhigh := sum_two (v / 16)
  rw [Nat.div_div_eq_div_mul] at hhigh
  omega

lemma decode_encode (bytes : Bytes) : decode (encode bytes) = some bytes := by
  induction bytes using encode.induct with
  | case1 a b c bytes ih =>
    have ha := a.toNat_lt
    have hb := b.toNat_lt
    have hc := c.toNat_lt
    obtain ⟨v, hv⟩ : ∃ v, a.toNat * 65536 + b.toNat * 256 + c.toNat = v := ⟨_, rfl⟩
    rw [encode, hv, decode, value_digit _ (show v / 262144 < 64 by omega),
      value_digit _ (Nat.mod_lt _ (by decide)), value_digit _ (Nat.mod_lt _ (by decide)),
      value_digit _ (Nat.mod_lt _ (by decide)), ih]
    simp only [bind_eq_bind, bind_some]
    rw [sum_four, ofNat_of_eq (show v / 65536 = a.toNat by omega),
      ofNat_of_eq (show v / 256 % 256 = b.toNat by omega),
      ofNat_of_eq (show v % 256 = c.toNat by omega)]
  | case2 a b =>
    have ha := a.toNat_lt
    have hb := b.toNat_lt
    obtain ⟨v, hv⟩ : ∃ v, a.toNat * 256 + b.toNat = v := ⟨_, rfl⟩
    rw [encode, hv, decode, value_digit _ (show v / 1024 < 64 by omega),
      value_digit _ (Nat.mod_lt _ (by decide)), value_digit _ (show v % 16 * 4 < 64 by omega)]
    simp only [bind_eq_bind, bind_some]
    rw [sum_padded, if_pos (by omega), ofNat_of_eq (show v * 4 / 1024 = a.toNat by omega),
      ofNat_of_eq (show v * 4 / 4 % 256 = b.toNat by omega)]
  | case3 a =>
    have ha := a.toNat_lt
    have hsum : a.toNat / 4 * 64 + a.toNat % 4 * 16 = a.toNat * 16 := by omega
    rw [encode, decode, value_digit _ (show a.toNat / 4 < 64 by omega),
      value_digit _ (show a.toNat % 4 * 16 < 64 by omega)]
    simp only [bind_eq_bind, bind_some]
    rw [hsum, if_pos (by omega), ofNat_of_eq (show a.toNat * 16 / 16 = a.toNat by omega)]
  | case4 => rfl

example : encode (utf8 "github|7".toList) = "Z2l0aHVifDc".toList := by decide

end LibrePaper.Library.Base64
