import LibrePaper.Anchors.Units
import LibrePaper.Library.Lists
import LibrePaper.Library.Utf8

/-!
# Character patches between two texts

A diff of two texts counts UTF-16 code units, so a hunk may begin or end inside a surrogate pair.
The patches are made of whole characters: such a bound moves outward, and one counter runs along
the bytes of the old text.
-/
namespace LibrePaper.Source.Patches
open Library List
open Anchors
open Anchors.Browser (Units utf16 encodeUtf16 slice)

def isHigh (u : UInt16) : Bool := decide (0xd800 ≤ u.toNat) && decide (u.toNat ≤ 0xdbff)

def isLow (u : UInt16) : Bool := decide (0xdc00 ≤ u.toNat) && decide (u.toNat ≤ 0xdfff)

/-- The character of one unit. A surrogate alone has none. -/
def lone (u : UInt16) : Char := if isHigh u || isLow u then '\uFFFD' else Char.ofNat u.toNat

/-- The character of a surrogate pair. -/
def paired (u v : UInt16) : Char :=
  Char.ofNat (0x10000 + (u.toNat - 0xd800) * 0x400 + (v.toNat - 0xdc00))

/-- The characters that an encoder reads. -/
def decoded : Units → List Char
  | [] => []
  | [u] => [lone u]
  | u :: v :: rest =>
    if isHigh u && isLow v then paired u v :: decoded rest else lone u :: decoded (v :: rest)

/-- `TextEncoder.encode`. -/
def encode (units : Units) : Bytes := utf8 (decoded units)

/-- A part of the old text, and the part of the new text that stands for it. -/
structure Hunk where
  fromA : ℕ
  toA : ℕ
  fromB : ℕ
  toB : ℕ
deriving DecidableEq

/-- A replacement of the bytes between two offsets of a file's text. -/
structure TextPatch where
  path : String
  start : ℕ
  stop : ℕ
  captured : Units
  replacement : Units
deriving DecidableEq

/-- A patch that the next hunk may still reach into. -/
structure OpenPatch where
  patch : TextPatch
  fromA : ℕ
  fromB : ℕ
  toB : ℕ
deriving DecidableEq

/-- The patches so far, and how far the old text was read in units and in bytes. -/
structure Reading where
  patches : List OpenPatch
  units : ℕ
  bytes : ℕ
deriving DecidableEq

/-- Whether a bound falls inside a surrogate pair of the old text or of the new one. -/
def splits (old new : Units) (a b : ℕ) : Bool :=
  decide (0 < a) && old[a - 1]?.any isHigh && (old[a]?.any isLow || new[b]?.any isLow)

/-- Bounds inside surrogate pairs move outward. -/
def widen (old new : Units) (h : Hunk) : Hunk :=
  let first := if splits old new h.fromA h.fromB then 1 else 0
  let last := if splits old new h.toA h.toB then 1 else 0
  ⟨h.fromA - first, h.toA + last, h.fromB - first, h.toB + last⟩

/-- The byte offset of a later unit. -/
def byteAt (old : Units) (s : Reading) (index : ℕ) : ℕ :=
  s.bytes + (encode (slice old s.units index)).length

/-- Makes a patch of a hunk, or lets the one before it reach further. -/
def addHunk (path : String) (old new : Units) (s : Reading) (h : Hunk) : Reading :=
  let w := widen old new h
  let push : Reading :=
    let start := byteAt old s w.fromA
    let stop := byteAt old ⟨s.patches, w.fromA, start⟩ w.toA
    ⟨s.patches ++ [⟨⟨path, start, stop, slice old w.fromA w.toA, slice new w.fromB w.toB⟩,
      w.fromA, w.fromB, w.toB⟩], w.toA, stop⟩
  match s.patches.getLast? with
  | some last =>
    if w.fromA < s.units then
      let units := max w.toA s.units
      let stop := byteAt old s units
      let toB := max w.toB last.toB
      ⟨s.patches.dropLast ++ [⟨⟨path, last.patch.start, stop, slice old last.fromA units,
        slice new last.fromB toB⟩, last.fromA, last.fromB, toB⟩], units, stop⟩
    else push
  | none => push

/-- The edits that turn `old` into `new`, from the hunks of their diff. -/
def textPatches (path : String) (old new : Units) (diff : List Hunk) : List TextPatch :=
  (diff.foldl (addHunk path old new) ⟨[], 0, 0⟩).patches.map OpenPatch.patch

/-- Hunks in order behind an offset of each text. The parts between them are the same, and
`apart` tells that there is a part before the first one. -/
def Differ (old new : Units) : ℕ → ℕ → Bool → List Hunk → Prop
  | i, j, _, [] => old.drop i = new.drop j
  | i, j, apart, h :: hunks =>
    (i ≤ h.fromA ∧ j ≤ h.fromB) ∧ slice old i h.fromA = slice new j h.fromB ∧
      (apart = true → i < h.fromA) ∧ (h.fromA ≤ h.toA ∧ h.toA ≤ old.length) ∧
      (h.fromB ≤ h.toB ∧ h.toB ≤ new.length) ∧ (h.fromA < h.toA ∨ h.fromB < h.toB) ∧
      Differ old new h.toA h.toB true hunks

/-- A character diff of two texts. -/
def IsDiff (old new : Units) (diff : List Hunk) : Prop := Differ old new 0 0 false diff

variable {u i j : ℕ} {c : Char}

/-- The character that a unit of a text belongs to. -/
lemma unit_cases (text : List Char) (hu : u ≤ lenUtf16 text) :
    Boundary charLenUtf16 text u ∨
      ∃ p c q, text = p ++ c :: q ∧ u = lenUtf16 p + 1 ∧ 0x10000 ≤ c.toNat := by
  induction text generalizing u with
  | nil =>
    left
    obtain rfl : u = 0 := Nat.le_zero.1 hu
    exact Boundary.zero _
  | cons c text ih =>
    have hwidth : lenUtf16 (c :: text) = charLenUtf16 c + lenUtf16 text := width_cons _ _ _
    rcases Nat.lt_or_ge u (charLenUtf16 c) with hlt | hge
    · rcases Nat.eq_zero_or_pos u with rfl | hpos
      · exact .inl (Boundary.zero _)
      · right
        unfold charLenUtf16 at hlt
        split at hlt
        next => omega
        next hbig => exact ⟨[], c, text, rfl, by change u = 0 + 1; omega, Nat.le_of_not_lt hbig⟩
    · have hrest : u - charLenUtf16 c ≤ lenUtf16 text := by omega
      rcases ih hrest with ⟨p, q, rfl, hp⟩ | ⟨p, d, q, rfl, hp, hbig⟩
      · refine .inl ⟨c :: p, q, rfl, ?_⟩
        rw [width_cons, hp]
        omega
      · refine .inr ⟨c :: p, d, q, rfl, ?_, hbig⟩
        have hcons : lenUtf16 (c :: p) = charLenUtf16 c + lenUtf16 p := width_cons _ _ _
        omega

lemma units_of_big (h : 0x10000 ≤ c.toNat) :
    ∃ u v, encodeUtf16 c = [u, v] ∧ isHigh u = true ∧ isLow v = true ∧ paired u v = c := by
  have hc := not_surrogate c
  have hhigh : 0xd800 + (c.toNat - 0x10000) / 0x400 < 0x10000 := by omega
  have hlow : 0xdc00 + (c.toNat - 0x10000) % 0x400 < 0x10000 := by omega
  refine ⟨_, _, by rw [encodeUtf16, if_neg (by omega)], ?_, ?_, ?_⟩
  · rw [isHigh, toNat_unit hhigh, Bool.and_eq_true, decide_eq_true_eq, decide_eq_true_eq]
    omega
  · rw [isLow, toNat_unit hlow, Bool.and_eq_true, decide_eq_true_eq, decide_eq_true_eq]
    omega
  · have hsum : 0x10000 + (0xd800 + (c.toNat - 0x10000) / 0x400 - 0xd800) * 0x400 +
        (0xdc00 + (c.toNat - 0x10000) % 0x400 - 0xdc00) = c.toNat := by omega
    rw [paired, toNat_unit hhigh, toNat_unit hlow, hsum, Char.ofNat_toNat]

lemma units_of_small (h : c.toNat < 0x10000) :
    ∃ u, encodeUtf16 c = [u] ∧ isHigh u = false ∧ isLow u = false ∧ lone u = c := by
  have hc := not_surrogate c
  have hhigh : isHigh c.toNat.toUInt16 = false := by
    rw [isHigh, toNat_unit h, Bool.and_eq_false_iff, decide_eq_false_iff_not,
      decide_eq_false_iff_not]
    omega
  have hlow : isLow c.toNat.toUInt16 = false := by
    rw [isLow, toNat_unit h, Bool.and_eq_false_iff, decide_eq_false_iff_not,
      decide_eq_false_iff_not]
    omega
  refine ⟨_, by rw [encodeUtf16, if_pos h], hhigh, hlow, ?_⟩
  rw [lone, hhigh, hlow, toNat_unit h, Char.ofNat_toNat]
  rfl

/-- A unit that is no surrogate is read alone. -/
lemma decoded_cons {u : UInt16} (h : isHigh u = false) (rest : Units) :
    decoded (u :: rest) = lone u :: decoded rest := by
  cases rest with
  | nil => rfl
  | cons v rest =>
    rw [decoded, h]
    rfl

/-- A text is read back. -/
lemma decoded_utf16 (text : List Char) : decoded (utf16 text) = text := by
  induction text with
  | nil => rfl
  | cons c text ih =>
    have hcons : utf16 (c :: text) = encodeUtf16 c ++ utf16 text := rfl
    rw [hcons]
    rcases Nat.lt_or_ge c.toNat 0x10000 with hsmall | hbig
    · obtain ⟨u, hcode, hhigh, -, hlone⟩ := units_of_small hsmall
      rw [hcode, singleton_append, decoded_cons hhigh, ih, hlone]
    · obtain ⟨u, v, hcode, hhigh, hlow, hpair⟩ := units_of_big hbig
      rw [hcode, cons_append, singleton_append, decoded, hhigh, hlow,
        if_pos (Bool.and_self true), ih, hpair]

lemma encode_utf16 (text : List Char) : encode (utf16 text) = utf8 text := by
  rw [encode, decoded_utf16]

/-- A text begins with no low surrogate. -/
lemma head_not_low (text : List Char) : (utf16 text).head?.any isLow = false := by
  cases text with
  | nil => rfl
  | cons c text =>
    change (encodeUtf16 c ++ utf16 text).head?.any isLow = false
    rcases Nat.lt_or_ge c.toNat 0x10000 with hsmall | hbig
    · obtain ⟨u, hcode, -, hlow, -⟩ := units_of_small hsmall
      rw [hcode]
      exact hlow
    · obtain ⟨u, v, hcode, hhigh, -, -⟩ := units_of_big hbig
      rw [hcode]
      change isLow u = false
      unfold isHigh at hhigh
      rw [Bool.and_eq_true, decide_eq_true_eq, decide_eq_true_eq] at hhigh
      rw [isLow, Bool.and_eq_false_iff, decide_eq_false_iff_not, decide_eq_false_iff_not]
      omega

/-- A text ends with no high surrogate. -/
lemma last_not_high (text : List Char) : (utf16 text).getLast?.any isHigh = false := by
  rcases eq_nil_or_concat text with rfl | ⟨text, c, rfl⟩
  · rfl
  · rw [concat_eq_append, utf16_append]
    have hsingle : utf16 [c] = encodeUtf16 c := append_nil _
    rw [hsingle]
    rcases Nat.lt_or_ge c.toNat 0x10000 with hsmall | hbig
    · obtain ⟨u, hcode, hhigh, -, -⟩ := units_of_small hsmall
      rw [hcode, getLast?_concat]
      exact hhigh
    · obtain ⟨u, v, hcode, -, hlow, -⟩ := units_of_big hbig
      rw [hcode, getLast?_append]
      change isHigh v = false
      unfold isLow at hlow
      rw [Bool.and_eq_true, decide_eq_true_eq, decide_eq_true_eq] at hlow
      rw [isHigh, Bool.and_eq_false_iff, decide_eq_false_iff_not, decide_eq_false_iff_not]
      omega

section Bounds

variable {text : List Char} {u : ℕ}

lemma Boundary.not_low (h : Boundary charLenUtf16 text u) :
    (utf16 text)[u]?.any isLow = false := by
  obtain ⟨p, q, rfl, rfl⟩ := h
  rw [utf16_append, getElem?_append_right (length_utf16 p).le, length_utf16,
    show width charLenUtf16 p - lenUtf16 p = 0 from Nat.sub_self _, ← head?_eq_getElem?]
  exact head_not_low q

lemma Boundary.not_high (h : Boundary charLenUtf16 text u) (hu : 0 < u) :
    (utf16 text)[u - 1]?.any isHigh = false := by
  obtain ⟨p, q, rfl, rfl⟩ := h
  have hlt : width charLenUtf16 p - 1 < (utf16 p).length := by
    rw [length_utf16]
    exact Nat.sub_lt hu Nat.one_pos
  rw [utf16_append, getElem?_append_left hlt]
  have hlast := last_not_high p
  rw [getLast?_eq_getElem?, length_utf16] at hlast
  exact hlast

/-- Inside a surrogate pair, the bounds next to it are boundaries. -/
lemma inside_pair (hu : u ≤ lenUtf16 text) (h : ¬Boundary charLenUtf16 text u) :
    0 < u ∧ (utf16 text)[u - 1]?.any isHigh = true ∧ (utf16 text)[u]?.any isLow = true ∧
      Boundary charLenUtf16 text (u - 1) ∧ Boundary charLenUtf16 text (u + 1) := by
  obtain hb | ⟨p, c, q, rfl, rfl, hbig⟩ := unit_cases text hu
  · exact absurd hb h
  · obtain ⟨high, low, hcode, hhigh, hlow, -⟩ := units_of_big hbig
    have hunits : utf16 (p ++ c :: q) = utf16 p ++ high :: low :: utf16 q := by
      rw [utf16_append]
      change utf16 p ++ (encodeUtf16 c ++ utf16 q) = _
      rw [hcode]
      rfl
    have hlength := length_utf16 p
    refine ⟨Nat.succ_pos _, ?_, ?_, ⟨p, c :: q, rfl, rfl⟩, ⟨p ++ [c], q, by simp, ?_⟩⟩
    · rw [hunits, Nat.add_sub_cancel, getElem?_append_right hlength.le, hlength, Nat.sub_self]
      exact hhigh
    · rw [hunits, getElem?_append_right (hlength.le.trans (Nat.le_add_right _ 1)), hlength,
        Nat.add_sub_cancel_left]
      exact hlow
    · have hwidth : charLenUtf16 c = 2 := by rw [charLenUtf16, if_neg (by omega)]
      rw [width_append, width_cons, width_nil, hwidth]

lemma boundary_iff_low (hu : u ≤ lenUtf16 text) :
    Boundary charLenUtf16 text u ↔ (utf16 text)[u]?.any isLow = false := by
  refine ⟨Boundary.not_low, fun hlow => ?_⟩
  by_contra h
  rw [(inside_pair hu h).2.2.1] at hlow
  cases hlow

lemma boundary_iff_high (hu : u ≤ lenUtf16 text) (hpos : 0 < u) :
    Boundary charLenUtf16 text u ↔ (utf16 text)[u - 1]?.any isHigh = false := by
  refine ⟨fun h => Boundary.not_high h hpos, fun hhigh => ?_⟩
  by_contra h
  rw [(inside_pair hu h).2.1] at hhigh
  cases hhigh

/-- A bound of a text is widened where it is inside a surrogate pair. -/
lemma splits_iff (new : Units) (b : ℕ) (hu : u ≤ lenUtf16 text) :
    splits (utf16 text) new u b = true ↔ ¬Boundary charLenUtf16 text u := by
  unfold splits
  constructor
  · intro hsplits hb
    rw [Bool.and_eq_true, Bool.and_eq_true, decide_eq_true_eq] at hsplits
    rw [Boundary.not_high hb hsplits.1.1] at hsplits
    exact Bool.false_ne_true hsplits.1.2
  · intro h
    obtain ⟨hpos, hhigh, hlow, -⟩ := inside_pair hu h
    rw [hhigh, hlow, decide_eq_true hpos]
    rfl

end Bounds

lemma slice_getElem? (l : Units) {k : ℕ} (h : k < j - i) : (slice l i j)[k]? = l[i + k]? := by
  rw [slice, getElem?_drop, getElem?_take, if_pos (by omega)]

lemma length_slice {l : Units} (h : j ≤ l.length) : (slice l i j).length = j - i := by
  rw [slice, length_drop, length_take, min_eq_left h]

lemma slice_sub (l : Units) {d e : ℕ} (h : i + e ≤ j) :
    slice l (i + d) (j - e) = ((slice l i j).take (j - i - e)).drop d := by
  unfold slice
  have hback : i + (j - i - e) = j - e := by omega
  have hmin : min (j - e) j = j - e := min_eq_left (Nat.sub_le j e)
  rw [take_drop, drop_drop, hback, take_take, hmin]

section Hunks

variable {text text' : List Char} {i j a b fa fb ta tb : ℕ}

/-- The bounds behind a hunk, and those of its patch. -/
def After (text : List Char) (i j a b : ℕ) : Prop :=
  (i = a ∧ j = b) ∨ (i + 1 = a ∧ j + 1 = b ∧ ¬Boundary charLenUtf16 text i)

/-- A hunk's patch begins behind the one before it, at the same character of both texts. -/
lemma start_spec (hfa : fa ≤ lenUtf16 text) (hfb : fb ≤ lenUtf16 text') (hi : i ≤ fa)
    (hj : j ≤ fb) (hslice : slice (utf16 text) i fa = slice (utf16 text') j fb)
    (hafter : After text i j a b) (hstart : i < fa ∨ i = 0 ∧ j = 0) :
    let d := if splits (utf16 text) (utf16 text') fa fb then 1 else 0
    Boundary charLenUtf16 text (fa - d) ∧ Boundary charLenUtf16 text' (fb - d) ∧
      a ≤ fa - d ∧ b ≤ fb - d ∧
      slice (utf16 text) a (fa - d) = slice (utf16 text') b (fb - d) := by
  have hlen : fa - i = fb - j := by
    have hlength := congrArg length hslice
    rwa [length_slice (hfa.trans (length_utf16 text).ge),
      length_slice (hfb.trans (length_utf16 text').ge)] at hlength
  have hunit : i < fa → (utf16 text)[fa - 1]? = (utf16 text')[fb - 1]? := by
    intro hlt
    have hget := congrArg (fun l => l[fa - 1 - i]?) hslice
    rwa [slice_getElem? _ (by omega), slice_getElem? _ (by omega),
      show i + (fa - 1 - i) = fa - 1 by omega, show j + (fa - 1 - i) = fb - 1 by omega] at hget
  have hsub : ∀ c e, i + c + e ≤ fa → slice (utf16 text) (i + c) (fa - e) =
      slice (utf16 text') (j + c) (fb - e) := by
    intro c e hle
    rw [slice_sub _ (by omega), slice_sub _ (by omega), hslice, hlen]
  by_cases hb : Boundary charLenUtf16 text fa
  · have hno : ¬splits (utf16 text) (utf16 text') fa fb = true :=
      fun hsplits => (splits_iff _ _ hfa).1 hsplits hb
    rw [if_neg hno]
    have hb' : Boundary charLenUtf16 text' fb := by
      rcases Nat.eq_zero_or_pos fb with rfl | hpos
      · exact Boundary.zero _
      · have hlt : i < fa := by omega
        rw [boundary_iff_high hfb hpos, ← hunit hlt]
        exact Boundary.not_high hb (by omega)
    refine ⟨hb, hb', ?_⟩
    rcases hafter with ⟨rfl, rfl⟩ | ⟨rfl, rfl, hin⟩
    · exact ⟨hi, hj, hslice⟩
    · have hlt : i < fa := hstart.resolve_right fun hzero => hin (hzero.1 ▸ Boundary.zero text)
      exact ⟨hlt, by omega, hsub 1 0 hlt⟩
  · obtain ⟨hpos, hhigh, -, hbefore, -⟩ := inside_pair hfa hb
    have hyes : splits (utf16 text) (utf16 text') fa fb = true := (splits_iff _ _ hfa).2 hb
    rw [if_pos hyes]
    have hlt : i < fa := by omega
    have hb' : ¬Boundary charLenUtf16 text' fb := by
      rw [boundary_iff_high hfb (by omega), ← hunit hlt, hhigh]
      exact Bool.noConfusion
    refine ⟨hbefore, (inside_pair hfb hb').2.2.2.1, ?_⟩
    rcases hafter with ⟨rfl, rfl⟩ | ⟨rfl, rfl, hin⟩
    · exact ⟨by omega, by omega, hsub 0 1 hlt⟩
    · have hnext := (inside_pair (hi.trans hfa) hin).2.2.2.2
      have hne : i + 1 ≠ fa := fun heq => hb (heq ▸ hnext)
      exact ⟨by omega, by omega, hsub 1 1 (by omega)⟩

/-- A hunk's patch ends at the same character of both texts. -/
lemma end_spec (hta : ta ≤ lenUtf16 text) (htb : tb ≤ lenUtf16 text')
    (hsame : (utf16 text)[ta]? = (utf16 text')[tb]?) :
    let d := if splits (utf16 text) (utf16 text') ta tb then 1 else 0
    Boundary charLenUtf16 text (ta + d) ∧ Boundary charLenUtf16 text' (tb + d) ∧
      After text ta tb (ta + d) (tb + d) := by
  by_cases hb : Boundary charLenUtf16 text ta
  · have hno : ¬splits (utf16 text) (utf16 text') ta tb = true :=
      fun hsplits => (splits_iff _ _ hta).1 hsplits hb
    have hb' : Boundary charLenUtf16 text' tb := by
      rw [boundary_iff_low htb, ← hsame]
      exact Boundary.not_low hb
    rw [if_neg hno]
    exact ⟨hb, hb', .inl ⟨rfl, rfl⟩⟩
  · have hyes : splits (utf16 text) (utf16 text') ta tb = true := (splits_iff _ _ hta).2 hb
    have hb' : ¬Boundary charLenUtf16 text' tb := by
      rw [boundary_iff_low htb, ← hsame, (inside_pair hta hb).2.2.1]
      exact Bool.noConfusion
    rw [if_pos hyes]
    exact ⟨(inside_pair hta hb).2.2.2.2, (inside_pair htb hb').2.2.2.2, .inr ⟨rfl, rfl, hb⟩⟩

/-- The texts go on with the same unit behind a hunk. -/
lemma Differ.unit_eq {old new : Units} {hunks : List Hunk} (h : Differ old new i j true hunks) :
    old[i]? = new[j]? := by
  cases hunks with
  | nil =>
    have hhead := congrArg head? (show old.drop i = new.drop j from h)
    rwa [head?_drop, head?_drop] at hhead
  | cons first hunks =>
    obtain ⟨⟨hi, hj⟩, hslice, hapart, ⟨hle, hfits⟩, ⟨hle', hfits'⟩, -⟩ := h
    have hlt := hapart rfl
    have hlen := congrArg length hslice
    rw [length_slice (hle.trans hfits), length_slice (hle'.trans hfits')] at hlen
    have hget := congrArg (fun l => l[0]?) hslice
    rwa [slice_getElem? _ (by omega), slice_getElem? _ (by omega)] at hget

end Hunks

/-- The texts behind a common front, as patches see them: they are the same but for the parts that
patches replace, and each patch tells where its part is. -/
inductive Aligned (path : String) : List Char → List Char → List Char → List TextPatch → Prop
  | same (front rest : List Char) : Aligned path front rest rest []
  | patch (front keep x y old new : List Char) {patches : List TextPatch} :
      Aligned path (front ++ keep ++ x) old new patches →
      Aligned path front (keep ++ (x ++ old)) (keep ++ (y ++ new))
        (⟨path, (utf8 (front ++ keep)).length, (utf8 (front ++ keep ++ x)).length, utf16 x,
          utf16 y⟩ :: patches)

section Folds

variable {path : String} {text text' : List Char}

variable {s : Reading} {front keep last rest old new : List Char} {patches : List TextPatch}

lemma byteAt_eq {index : ℕ} (htext : text = front ++ keep ++ last)
    (hunits : s.units = lenUtf16 front) (hbytes : s.bytes = (utf8 front).length)
    (hindex : index = lenUtf16 (front ++ keep)) :
    byteAt (utf16 text) s index = (utf8 (front ++ keep)).length := by
  have hsum : lenUtf16 (front ++ keep) = lenUtf16 front + lenUtf16 keep := width_append _ _ _
  rw [byteAt, htext, hunits, hbytes, hindex, hsum, slice_utf16, encode_utf16, utf8, utf8, utf8,
    flatMap_append, length_append]

lemma cut_at (htext : text = front ++ rest) (h : Boundary charLenUtf16 text u)
    (hle : lenUtf16 front ≤ u) :
    ∃ keep last, rest = keep ++ last ∧ text = front ++ keep ++ last ∧
      u = lenUtf16 (front ++ keep) := by
  obtain ⟨p, q, hsplit, rfl⟩ := h
  obtain ⟨keep, rfl, rfl⟩ := append_split charLenUtf16_pos (htext.symm.trans hsplit) hle
  exact ⟨keep, q, rfl, hsplit, rfl⟩

lemma slice_behind {a b : ℕ} (htext : text = front ++ keep ++ last) (ha : a = lenUtf16 front)
    (hb : b = lenUtf16 (front ++ keep)) : slice (utf16 text) a b = utf16 keep := by
  have hsum : lenUtf16 (front ++ keep) = lenUtf16 front + lenUtf16 keep := width_append _ _ _
  rw [htext, ha, hb, hsum, slice_utf16]

/-- A hunk that does not reach back makes a patch of its own. -/
lemma addHunk_behind (path : String) {old new : Units} {h w : Hunk} (hw : widen old new h = w)
    (hle : s.units ≤ w.fromA) :
    ∃ p : OpenPatch, addHunk path old new s h = ⟨s.patches ++ [p], w.toA, p.patch.stop⟩ ∧
      p.patch = ⟨path, byteAt old s w.fromA,
        byteAt old ⟨s.patches, w.fromA, byteAt old s w.fromA⟩ w.toA, slice old w.fromA w.toA,
        slice new w.fromB w.toB⟩ := by
  subst hw
  unfold addHunk
  dsimp only
  split
  next last hlast =>
    rw [if_neg (Nat.not_lt.2 hle)]
    exact ⟨_, rfl, rfl⟩
  next => exact ⟨_, rfl, rfl⟩

lemma fold_aligned (path : String) {hunks : List Hunk} {apart : Bool} {front' rest' : List Char}
    (htext : text = front ++ rest) (htext' : text' = front' ++ rest')
    (hdiff : Differ (utf16 text) (utf16 text') i j apart hunks)
    (hafter : After text i j (lenUtf16 front) (lenUtf16 front'))
    (hstart : apart = true ∨ i = 0 ∧ j = 0) (hunits : s.units = lenUtf16 front)
    (hbytes : s.bytes = (utf8 front).length) :
    ∃ patches, (hunks.foldl (addHunk path (utf16 text) (utf16 text')) s).patches.map
        OpenPatch.patch = s.patches.map OpenPatch.patch ++ patches ∧
      Aligned path front rest rest' patches := by
  induction hunks generalizing i j apart front rest front' rest' s with
  | nil =>
    refine ⟨[], (append_nil _).symm, ?_⟩
    have hsame : (utf16 text).drop (lenUtf16 front) = (utf16 text').drop (lenUtf16 front') := by
      have hdrop : (utf16 text).drop i = (utf16 text').drop j := hdiff
      rcases hafter with ⟨rfl, rfl⟩ | ⟨hi, hj, -⟩
      · exact hdrop
      · rw [← hi, ← hj, ← drop_drop, hdrop, drop_drop]
    rw [htext, htext', drop_utf16, drop_utf16] at hsame
    rw [utf16_injective hsame]
    exact Aligned.same front rest'
  | cons h hunks ih =>
    obtain ⟨⟨hi, hj⟩, hslice, hapart, ⟨hle, hfits⟩, ⟨hle', hfits'⟩, -, hrest⟩ := hdiff
    rw [length_utf16] at hfits hfits'
    obtain ⟨hb, hb', hbehind, hbehind', hkeep⟩ := start_spec (hle.trans hfits) (hle'.trans hfits')
      hi hj hslice hafter (hstart.imp_left hapart)
    obtain ⟨hend, hend', hafter'⟩ := end_spec hfits hfits' hrest.unit_eq
    obtain ⟨first, hfirst⟩ : ∃ d, (if splits (utf16 text) (utf16 text') h.fromA h.fromB then 1
      else 0) = d := ⟨_, rfl⟩
    obtain ⟨last, hlast⟩ : ∃ d, (if splits (utf16 text) (utf16 text') h.toA h.toB then 1
      else 0) = d := ⟨_, rfl⟩
    rw [hfirst] at hb hb' hbehind hbehind' hkeep
    rw [hlast] at hend hend' hafter'
    have hw : widen (utf16 text) (utf16 text') h =
        ⟨h.fromA - first, h.toA + last, h.fromB - first, h.toB + last⟩ := by
      rw [widen, hfirst, hlast]
    obtain ⟨keep, rest, rfl, hfront, ha⟩ := cut_at htext hb hbehind
    obtain ⟨keep', rest', rfl, hfront', ha'⟩ := cut_at htext' hb' hbehind'
    obtain rfl : keep = keep' := utf16_injective (by
      rw [← slice_behind hfront rfl ha, ← slice_behind hfront' rfl ha', hkeep])
    obtain ⟨x, old, rfl, hpart, hc⟩ := cut_at hfront hend (by omega)
    obtain ⟨y, new, rfl, hpart', hc'⟩ := cut_at hfront' hend' (by omega)
    obtain ⟨p, hadd, hp⟩ := addHunk_behind path hw (hunits.trans_le hbehind)
    have hstartAt : byteAt (utf16 text) s (h.fromA - first) = (utf8 (front ++ keep)).length :=
      byteAt_eq hfront hunits hbytes ha
    rw [hstartAt, byteAt_eq hpart ha rfl hc, slice_behind hpart ha hc,
      slice_behind hpart' ha' hc'] at hp
    obtain ⟨patches, hfold, haligned⟩ := ih (s := ⟨s.patches ++ [p], h.toA + last, p.patch.stop⟩)
      hpart hpart' hrest (hc ▸ hc' ▸ hafter') (.inl rfl) hc (by rw [hp])
    refine ⟨p.patch :: patches, ?_, ?_⟩
    · rw [foldl_cons, hadd, hfold, map_append, append_assoc]
      rfl
    · rw [hp]
      exact Aligned.patch front keep x y old new haligned

/-- What a patch says of the old text. -/
def Places (path : String) (old : List Char) (p : TextPatch) : Prop :=
  p.path = path ∧ ∃ before taken behind put, old = before ++ taken ++ behind ∧
    p.start = (utf8 before).length ∧ p.stop = (utf8 (before ++ taken)).length ∧
    p.captured = utf16 taken ∧ p.replacement = utf16 put

lemma Aligned.places (h : Aligned path front old new patches) :
    (∀ p ∈ patches, Places path (front ++ old) p ∧ (utf8 front).length ≤ p.start) ∧
      patches.Pairwise fun p q => p.stop ≤ q.start := by
  induction h with
  | same front rest => exact ⟨fun p hp => absurd hp not_mem_nil, Pairwise.nil⟩
  | patch front keep x y old new _ ih =>
    obtain ⟨hplaces, hpairs⟩ := ih
    constructor
    · intro p hp
      rcases mem_cons.1 hp with rfl | hp
      · refine ⟨⟨rfl, front ++ keep, x, old, y, by simp, rfl, rfl, rfl, rfl⟩, ?_⟩
        rw [length_utf8, length_utf8, width_append]
        exact Nat.le_add_right _ _
      · obtain ⟨hplace, hle⟩ := hplaces p hp
        refine ⟨by simpa using hplace, le_trans ?_ hle⟩
        rw [length_utf8, length_utf8, width_append, width_append, Nat.add_assoc]
        exact Nat.le_add_right _ _
    · exact pairwise_cons.2 ⟨fun q hq => (hplaces q hq).2, hpairs⟩

/-- Patches are applied from the last to the first. -/
def applyPatches (bytes : Bytes) (patches : List TextPatch) : Bytes :=
  patches.foldr (fun p bytes => splice bytes p.start p.stop (encode p.replacement)) bytes

lemma Aligned.applyPatches (h : Aligned path front old new patches) :
    applyPatches (utf8 (front ++ old)) patches = utf8 (front ++ new) := by
  induction h with
  | same front rest => rfl
  | @patch front keep x y old new patches _ ih =>
    have hassoc : front ++ (keep ++ (x ++ old)) = front ++ keep ++ x ++ old := by simp
    have hassoc' : utf8 (front ++ (keep ++ (y ++ new))) =
        utf8 (front ++ keep) ++ utf8 y ++ utf8 new := by simp [utf8]
    rw [hassoc, hassoc']
    change splice (Patches.applyPatches (utf8 (front ++ keep ++ x ++ old)) patches) _ _ _ = _
    rw [ih, encode_utf16]
    unfold splice
    have hfirst : utf8 (front ++ keep ++ x ++ new) =
        utf8 (front ++ keep) ++ (utf8 x ++ utf8 new) := by simp [utf8]
    have hlast : utf8 (front ++ keep ++ x ++ new) = utf8 (front ++ keep ++ x) ++ utf8 new := by
      simp [utf8]
    rw [hfirst, take_left, ← hfirst, hlast, drop_left]

end Folds

/-- The patches of a character diff are made of whole characters. They are in order and do not
overlap, each captures what the old text has there, and together they make the new text. -/
theorem textPatches_exact (path : String) (old new : List Char) (diff : List Hunk)
    (h : IsDiff (utf16 old) (utf16 new) diff) :
    (∀ p ∈ textPatches path (utf16 old) (utf16 new) diff, Places path old p) ∧
      (textPatches path (utf16 old) (utf16 new) diff).Pairwise (fun p q => p.stop ≤ q.start) ∧
      applyPatches (utf8 old) (textPatches path (utf16 old) (utf16 new) diff) = utf8 new := by
  obtain ⟨patches, hfold, haligned⟩ := fold_aligned path
    (s := ⟨[], 0, 0⟩) (nil_append old).symm (nil_append new).symm h
    (.inl ⟨rfl, rfl⟩) (.inr ⟨rfl, rfl⟩) rfl rfl
  have heq : textPatches path (utf16 old) (utf16 new) diff = patches := hfold
  rw [heq]
  exact ⟨fun p hp => (haligned.places.1 p hp).1, haligned.places.2, haligned.applyPatches⟩

/-- Two emoji that share their high surrogate, with hunks on both sides of it. -/
theorem emoji_exact :
    textPatches "main.typ" (utf16 ['a', '😀']) (utf16 ['b', 'a', '😁'])
        [⟨0, 0, 0, 1⟩, ⟨2, 3, 3, 4⟩] =
      [⟨"main.typ", 0, 0, [], [98]⟩, ⟨"main.typ", 1, 5, [0xd83d, 0xde00], [0xd83d, 0xde01]⟩] ∧
    applyPatches (utf8 ['a', '😀']) (textPatches "main.typ" (utf16 ['a', '😀'])
      (utf16 ['b', 'a', '😁']) [⟨0, 0, 0, 1⟩, ⟨2, 3, 3, 4⟩]) = utf8 ['b', 'a', '😁'] := by
  refine ⟨by decide, (textPatches_exact "main.typ" _ _ _ ?_).2.2⟩
  simp only [IsDiff, Differ]
  decide

end LibrePaper.Source.Patches
