import LibrePaper.Library.Utf8

/-!
# Numbers as bytes

A number is written with its lowest byte first and cut off to the width of its field, and a record
is a sequence of such fields.
-/
namespace LibrePaper.Library
open List

/-- The lowest `w` bytes of a number. -/
def little : ℕ → ℕ → Bytes
  | 0, _ => []
  | w + 1, n => (n % 256).toUInt8 :: little w (n / 256)

def number : Bytes → ℕ
  | [] => 0
  | b :: bytes => b.toNat + 256 * number bytes

/-- The number in the `w` bytes from a position on. -/
def numberAt (bytes : Bytes) (pos w : ℕ) : ℕ := number ((bytes.drop pos).take w)

/-- Numbers one after another, each after its width. -/
def packed (fields : List (ℕ × ℕ)) : Bytes := fields.flatMap fun f => little f.1 f.2

@[simp] lemma length_little (w n : ℕ) : (little w n).length = w := by
  induction w generalizing n with
  | zero => rfl
  | succ w ih => rw [little, length_cons, ih]

lemma number_little {w n : ℕ} (h : n < 256 ^ w) : number (little w n) = n := by
  induction w generalizing n with
  | zero =>
    rw [pow_zero] at h
    exact (Nat.lt_one_iff.1 h).symm
  | succ w ih =>
    rw [pow_succ] at h
    have hbyte : ((n % 256).toUInt8).toNat = n % 256 := by
      rw [Nat.toUInt8_eq, UInt8.toNat_ofNat']
      omega
    rw [little, number, hbyte, ih (by omega)]
    omega

lemma length_packed (fields : List (ℕ × ℕ)) :
    (packed fields).length = (fields.map Prod.fst).sum := by
  unfold packed
  rw [length_flatMap]
  simp

lemma packed_append (fields fields' : List (ℕ × ℕ)) :
    packed (fields ++ fields') = packed fields ++ packed fields' := flatMap_append

/-- A field of a record is read back. -/
lemma numberAt_packed {bytes rest : Bytes} {pos d w n : ℕ} {fields : List (ℕ × ℕ)} (k : ℕ)
    (hbytes : bytes.drop pos = packed fields ++ rest) (hfield : fields[k]? = some (w, n))
    (hd : ((fields.take k).map Prod.fst).sum = d) (h : n < 256 ^ w) :
    numberAt bytes (pos + d) w = n := by
  obtain ⟨hk, hget⟩ := List.getElem?_eq_some_iff.1 hfield
  have hfields : fields = fields.take k ++ (w, n) :: fields.drop (k + 1) := by
    rw [← hget, List.cons_getElem_drop_succ, List.take_append_drop]
  have hpacked : packed fields ++ rest = packed (fields.take k) ++
      (little w n ++ (packed (fields.drop (k + 1)) ++ rest)) := by
    conv_lhs => rw [hfields, packed_append]
    rw [← List.append_assoc (little w n), List.append_assoc]
    rfl
  unfold numberAt
  rw [← hd, ← List.drop_drop, hbytes, ← length_packed, hpacked, List.drop_left,
    List.take_left' (length_little w n), number_little h]

end LibrePaper.Library
