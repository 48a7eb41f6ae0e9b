import LibrePaper.Anchors.Memory
import LibrePaper.Library.Conversions

/-!
# Offsets of a text in bytes, in UTF-16 units and in characters

Every conversion scans the text from the start and counts both units. The scans are those of the
general conversions between two measures.
-/
namespace LibrePaper.Anchors.TextIndex
open Library List Option

/-- The length of a text in UTF-8 bytes. -/
abbrev byteLen (text : List Char) : ℕ := width Char.utf8Size text

section Scans
variable (offset : ℕ)

/-- The scan of an exact conversion. It counts what it passes in units and by `size`, and refuses an
offset that is inside a character or past the end. -/
def exactFrom (size : Char → ℕ) : ℕ → ℕ → List Char → Option ℕ
  | counted, units, [] => if units = offset then some counted else none
  | counted, units, c :: text =>
    if units = offset then some counted
    else if offset < units then none
    else exactFrom size (counted + size c) (units + charLenUtf16 c) text

def utf8FloorFrom : ℕ → ℕ → List Char → ℕ
  | byte, _, [] => byte
  | byte, units, c :: text =>
    if offset < units + charLenUtf16 c then byte
    else utf8FloorFrom (byte + c.utf8Size) (units + charLenUtf16 c) text

def utf8CeilFrom : ℕ → ℕ → List Char → ℕ
  | byte, _, [] => byte
  | byte, units, c :: text =>
    if offset ≤ units then byte
    else utf8CeilFrom (byte + c.utf8Size) (units + charLenUtf16 c) text

end Scans

/-- The byte offset of a UTF-16 offset. -/
def utf8Of (text : List Char) (offset : ℕ) : Option ℕ := exactFrom offset Char.utf8Size 0 0 text

/-- The byte offset of the start of the character that an offset splits, or of the offset. -/
def utf8Floor (text : List Char) (offset : ℕ) : ℕ := utf8FloorFrom offset 0 0 text

/-- The byte offset of the end of the character that an offset splits, or of the offset. -/
def utf8Ceil (text : List Char) (offset : ℕ) : ℕ := utf8CeilFrom offset 0 0 text

/-- The index of the character at a UTF-16 offset. -/
def codePointOf (text : List Char) (offset : ℕ) : Option ℕ := exactFrom offset (fun _ => 1) 0 0 text

/-- The UTF-16 offset of a byte offset that is between two characters. -/
def utf16Of (text : List Char) (offset : ℕ) : Option ℕ :=
  (boundaryAt Char.utf8Size text offset).map fun i => lenUtf16 (text.take i)

/-- The text of a byte range. -/
def slice8 (text : List Char) (start stop : ℕ) : Option (List Char) :=
  match boundaryAt Char.utf8Size text start, boundaryAt Char.utf8Size text stop with
  | some i, some j => if start ≤ stop then some ((text.take j).drop i) else none
  | _, _ => none

def slice16 (text : List Char) (start stop : ℕ) : Option (List Char) := do
  let start ← utf8Of text start
  let stop ← utf8Of text stop
  slice8 text start stop

def slice16Widened (text : List Char) (start stop : ℕ) : List Char :=
  if stop ≤ start then []
  else (slice8 text (utf8Floor text start) (utf8Ceil text stop)).getD []

/-- The text of a range, with a replacement character for every half that the range keeps of a
surrogate pair. -/
def lossyScan (start stop : ℕ) : ℕ → List Char → List Char
  | _, [] => []
  | units, c :: text =>
    let next := units + charLenUtf16 c
    if stop ≤ units then []
    else
      (if start < next then
        if start ≤ units ∧ next ≤ stop then [c]
        else List.replicate (min next stop - max units start) '\ufffd'
      else []) ++ lossyScan start stop next text

def slice16Lossy (text : List Char) (start stop : ℕ) : List Char :=
  if stop ≤ start then []
  else match utf8Of text start, utf8Of text stop with
    | some i, some j => (slice8 text i j).getD []
    | _, _ => lossyScan start stop 0 text

variable {text p q s : List Char} {offset start stop units counted : ℕ}

lemma exactFrom_eq (size : Char → ℕ) (h : units ≤ offset) :
    exactFrom offset size counted units text =
      (convert charLenUtf16 size text (offset - units)).map (counted + ·) := by
  induction text generalizing counted units with
  | nil =>
    unfold exactFrom
    by_cases hzero : units = offset
    · rw [if_pos hzero, hzero, Nat.sub_self]
      rfl
    · have hpos : offset - units ≠ 0 := by omega
      rw [if_neg hzero]
      simp [convert, boundaryAt, floorAt, Ne.symm hpos]
  | cons c text ih =>
    unfold exactFrom
    rw [convert_cons charLenUtf16_pos]
    by_cases hzero : units = offset
    · rw [if_pos hzero, if_pos (by omega)]
      rfl
    rw [if_neg hzero, if_neg (by omega), if_neg (by omega)]
    by_cases hc : units + charLenUtf16 c ≤ offset
    · rw [ih hc, if_neg (by omega), Option.map_map, Nat.sub_add_eq]
      congr 1
      funext x
      exact Nat.add_assoc _ _ _
    · rw [if_pos (by omega)]
      cases text with
      | nil => exact if_neg (by omega)
      | cons d text => exact (if_neg (by omega)).trans (if_pos (by omega))

lemma utf8FloorFrom_eq (h : units ≤ offset) : utf8FloorFrom offset counted units text =
    counted + byteLen (text.take (floorAt charLenUtf16 text (offset - units))) := by
  induction text generalizing counted units with
  | nil => rfl
  | cons c text ih =>
    unfold utf8FloorFrom floorAt
    by_cases hc : units + charLenUtf16 c ≤ offset
    · rw [if_neg (by omega), if_pos (by omega), ih hc, Nat.sub_add_eq, Nat.add_assoc]
      rfl
    · rw [if_pos (by omega), if_neg (by omega)]
      rfl

lemma utf8CeilFrom_eq : utf8CeilFrom offset counted units text =
    counted + byteLen (text.take (ceilAt charLenUtf16 text (offset - units))) := by
  induction text generalizing counted units with
  | nil => rfl
  | cons c text ih =>
    unfold utf8CeilFrom ceilAt
    by_cases hc : offset ≤ units
    · rw [if_pos hc, if_pos (by omega)]
      rfl
    · rw [if_neg hc, if_neg (by omega), ih, Nat.sub_add_eq, Nat.add_assoc]
      rfl

lemma utf8Of_eq : utf8Of text offset = convert charLenUtf16 Char.utf8Size text offset := by
  unfold utf8Of
  rw [exactFrom_eq _ (Nat.zero_le _), Nat.sub_zero]
  simp

lemma utf16Of_eq : utf16Of text offset = convert Char.utf8Size charLenUtf16 text offset := rfl

lemma width_one (text : List Char) : width (fun _ => 1) text = text.length := by
  induction text with
  | nil => rfl
  | cons c text ih => rw [width_cons, ih, length_cons, Nat.add_comm]

lemma codePointOf_eq : codePointOf text offset = convert charLenUtf16 (fun _ => 1) text offset := by
  unfold codePointOf
  rw [exactFrom_eq _ (Nat.zero_le _), Nat.sub_zero]
  simp

lemma utf8Floor_eq :
    utf8Floor text offset = byteLen (text.take (floorAt charLenUtf16 text offset)) := by
  unfold utf8Floor
  rw [utf8FloorFrom_eq (Nat.zero_le _), Nat.zero_add, Nat.sub_zero]

lemma utf8Ceil_eq :
    utf8Ceil text offset = byteLen (text.take (ceilAt charLenUtf16 text offset)) := by
  unfold utf8Ceil
  rw [utf8CeilFrom_eq, Nat.zero_add, Nat.sub_zero]

lemma slice8_eq_some : slice8 text start stop = some s ↔
    ∃ p q, text = p ++ s ++ q ∧ byteLen p = start ∧ byteLen (p ++ s) = stop := by
  constructor
  · intro h
    unfold slice8 at h
    split at h
    · rename_i i j hi hj
      split_ifs at h with hle
      obtain ⟨p, q, rfl, rfl, rfl⟩ := (boundaryAt_eq_some Char.utf8Size_pos).1 hi
      obtain ⟨p', q', hsplit, rfl, rfl⟩ := (boundaryAt_eq_some Char.utf8Size_pos).1 hj
      obtain ⟨r, rfl, rfl⟩ := append_split Char.utf8Size_pos hsplit hle
      rw [← append_assoc, take_left, drop_left] at h
      cases h
      exact ⟨p, q', (append_assoc _ _ _).symm, rfl, rfl⟩
    · cases h
  · rintro ⟨p, q, rfl, rfl, rfl⟩
    have hstart : boundaryAt Char.utf8Size (p ++ s ++ q) (byteLen p) = some p.length := by
      rw [append_assoc]
      exact boundaryAt_width Char.utf8Size_pos p (s ++ q)
    unfold slice8
    rw [hstart, boundaryAt_width Char.utf8Size_pos (p ++ s) q]
    dsimp only
    rw [if_pos (by simp), take_left, drop_left]

lemma slice16_eq_some : slice16 text start stop = some s ↔
    ∃ p q, text = p ++ s ++ q ∧ lenUtf16 p = start ∧ lenUtf16 (p ++ s) = stop := by
  unfold slice16
  rw [utf8Of_eq, utf8Of_eq]
  constructor
  · intro h
    obtain ⟨i, hi, h⟩ := bind_eq_some_iff.1 h
    obtain ⟨j, hj, h⟩ := bind_eq_some_iff.1 h
    obtain ⟨p, q, rfl, rfl, rfl⟩ := slice8_eq_some.1 h
    refine ⟨p, q, rfl, ?_, ?_⟩
    · rw [convert_symm charLenUtf16_pos Char.utf8Size_pos, append_assoc,
        (convert_eq_some Char.utf8Size_pos).2 ⟨p, s ++ q, rfl, rfl, rfl⟩] at hi
      exact some.inj hi
    · rw [convert_symm charLenUtf16_pos Char.utf8Size_pos,
        (convert_eq_some Char.utf8Size_pos).2 ⟨p ++ s, q, rfl, rfl, rfl⟩] at hj
      exact some.inj hj
  · rintro ⟨p, q, rfl, rfl, rfl⟩
    rw [(convert_eq_some charLenUtf16_pos).2 ⟨p, s ++ q, append_assoc _ _ _, rfl, rfl⟩,
      (convert_eq_some charLenUtf16_pos).2 ⟨p ++ s, q, rfl, rfl, rfl⟩]
    exact slice8_eq_some.2 ⟨p, q, rfl, rfl, rfl⟩

lemma slice16Widened_eq :
    slice16Widened text start stop = Anchors.slice16Widened text start stop := by
  unfold slice16Widened Anchors.slice16Widened widened
  split_ifs with hle
  · rfl
  have hij : floorAt charLenUtf16 text start ≤ ceilAt charLenUtf16 text stop :=
    (floorAt_mono (Nat.le_of_not_le hle)).trans (floorAt_le_ceilAt charLenUtf16_pos)
  have hfront : text.take (floorAt charLenUtf16 text start) ++
      (text.take (ceilAt charLenUtf16 text stop)).drop (floorAt charLenUtf16 text start) =
        text.take (ceilAt charLenUtf16 text stop) := by
    conv_rhs => rw [← take_append_drop (floorAt charLenUtf16 text start)
      (text.take (ceilAt charLenUtf16 text stop))]
    rw [take_take, Nat.min_eq_left hij]
  rw [utf8Floor_eq, utf8Ceil_eq, slice8_eq_some.2 ⟨_, text.drop (ceilAt charLenUtf16 text stop),
    by rw [hfront, take_append_drop], rfl, by rw [hfront]⟩]
  rfl

/-- What a slice for display shows of a character. -/
def shown (start stop : ℕ) (y : ℕ × Char) : List Char :=
  if covered charLenUtf16 start stop y.1 y.2 = charLenUtf16 y.2 then [y.2]
  else List.replicate (covered charLenUtf16 start stop y.1 y.2) '\ufffd'

lemma shown_nil {y : ℕ × Char} (h : covered charLenUtf16 start stop y.1 y.2 = 0) :
    shown start stop y = [] := by
  unfold shown
  rw [h, if_neg (charLenUtf16_pos y.2).ne]
  rfl

lemma shown_inside {y : ℕ × Char} (h : start ≤ y.1 ∧ y.1 + charLenUtf16 y.2 ≤ stop) :
    shown start stop y = [y.2] := by
  unfold shown covered
  exact if_pos (by omega)

lemma lossyScan_eq : lossyScan start stop units text =
    (spans charLenUtf16 units text).flatMap (shown start stop) := by
  induction text generalizing units with
  | nil => rfl
  | cons c text ih =>
    have hpos := charLenUtf16_pos c
    unfold lossyScan
    by_cases hstop : stop ≤ units
    · rw [if_pos hstop]
      refine (flatMap_eq_nil_iff.2 fun y hy => shown_nil ?_).symm
      have := (within_of_mem_spans hy).1
      unfold covered
      omega
    rw [if_neg hstop, spans, flatMap_cons, ih]
    congr 1
    by_cases hstart : start < units + charLenUtf16 c
    · rw [if_pos hstart]
      by_cases hwhole : start ≤ units ∧ units + charLenUtf16 c ≤ stop
      · rw [if_pos hwhole]
        exact (shown_inside (y := (units, c)) hwhole).symm
      · rw [if_neg hwhole]
        unfold shown covered
        exact (if_neg (by dsimp only; omega)).symm
    · rw [if_neg hstart]
      exact (shown_nil (by unfold covered; dsimp only; omega)).symm

/-- A slice between two boundaries shows what lies between them. -/
lemma shown_between (p s q : List Char) : (spans charLenUtf16 0 (p ++ s ++ q)).flatMap
    (shown (lenUtf16 p) (lenUtf16 (p ++ s))) = s := by
  rw [spans_append, spans_append, flatMap_append, flatMap_append, Nat.zero_add, Nat.zero_add]
  have hp : (spans charLenUtf16 0 p).flatMap (shown (lenUtf16 p) (lenUtf16 (p ++ s))) = [] := by
    refine flatMap_eq_nil_iff.2 fun y hy => shown_nil ?_
    have := (within_of_mem_spans hy).2
    unfold covered lenUtf16
    omega
  have hq : (spans charLenUtf16 (lenUtf16 (p ++ s)) q).flatMap
      (shown (lenUtf16 p) (lenUtf16 (p ++ s))) = [] := by
    refine flatMap_eq_nil_iff.2 fun y hy => shown_nil ?_
    have := (within_of_mem_spans hy).1
    unfold covered
    omega
  have hs : (spans charLenUtf16 (lenUtf16 p) s).flatMap
      (shown (lenUtf16 p) (lenUtf16 (p ++ s))) = s := by
    have hwhole : ∀ y ∈ spans charLenUtf16 (lenUtf16 p) s,
        shown (lenUtf16 p) (lenUtf16 (p ++ s)) y = [y.2] := fun y hy => shown_inside (by
      rw [lenUtf16, lenUtf16, width_append]
      exact within_of_mem_spans hy)
    rw [flatMap_congr hwhole, ← map_eq_flatMap, map_snd_spans]
  rw [hp, hs, hq, nil_append, append_nil]

lemma slice16Lossy_eq : slice16Lossy text start stop =
    (spans charLenUtf16 0 text).flatMap (shown start stop) := by
  unfold slice16Lossy
  by_cases hle : stop ≤ start
  · rw [if_pos hle]
    refine (flatMap_eq_nil_iff.2 fun y _ => shown_nil ?_).symm
    unfold covered
    omega
  rw [if_neg hle]
  split
  · rename_i i j hi hj
    have hslice : slice16 text start stop = slice8 text i j := by
      unfold slice16
      rw [hi, hj]
      rfl
    rw [utf8Of_eq] at hi hj
    obtain ⟨p, q, rfl, rfl, -⟩ := (convert_eq_some charLenUtf16_pos).1 hi
    obtain ⟨p', q', hsplit, rfl, -⟩ := (convert_eq_some charLenUtf16_pos).1 hj
    obtain ⟨r, rfl, rfl⟩ := append_split charLenUtf16_pos hsplit (Nat.le_of_not_le hle)
    rw [← hslice, ← append_assoc, slice16_eq_some.2 ⟨p, q', rfl, rfl, rfl⟩]
    exact (shown_between p r q').symm
  · exact lossyScan_eq

/-- The slices between successive offsets of a cut, from a boundary on. -/
lemma slices_from {cuts : List ℕ} (hcuts : cuts.Pairwise (· ≤ ·)) (htext : text = p ++ q)
    (hle : ∀ u ∈ cuts, lenUtf16 p ≤ u) (hcut : ∀ u ∈ cuts, Boundary charLenUtf16 text u) :
    ∃ pieces, ((lenUtf16 p :: cuts).zip (cuts ++ [lenUtf16 text])).mapM
      (fun range => slice16 text range.1 range.2) = some pieces ∧ pieces.flatten = q := by
  induction cuts generalizing p q with
  | nil =>
    have hrest : slice16 text (lenUtf16 p) (lenUtf16 text) = some q :=
      slice16_eq_some.2 ⟨p, [], by rw [htext, append_nil], rfl, by rw [htext]⟩
    refine ⟨[q], ?_, by simp⟩
    simp [hrest]
  | cons u cuts ih =>
    obtain ⟨p', q', hsplit, rfl⟩ := hcut u mem_cons_self
    obtain ⟨r, rfl, rfl⟩ := append_split charLenUtf16_pos (htext.symm.trans hsplit)
      (hle _ mem_cons_self)
    obtain ⟨hfirst, hrest⟩ := pairwise_cons.1 hcuts
    obtain ⟨pieces, hpieces, hflat⟩ := ih hrest hsplit hfirst
      fun v hv => hcut v (mem_cons_of_mem _ hv)
    refine ⟨r :: pieces, ?_, by rw [flatten_cons, hflat]⟩
    rw [cons_append, zip_cons_cons, mapM_cons, slice16_eq_some.2 ⟨p, q', hsplit, rfl, rfl⟩, hpieces]
    rfl

/-- What the index of a text promises. -/
structure Faithful (text : List Char) : Prop where
  inverse : ∀ u b, utf8Of text u = some b ↔ utf16Of text b = some u
  boundary : ∀ u b, utf8Of text u = some b ↔
    ∃ p q, text = p ++ q ∧ lenUtf16 p = u ∧ byteLen p = b
  codePoint : ∀ u i, codePointOf text u = some i ↔
    ∃ p q, text = p ++ q ∧ lenUtf16 p = u ∧ p.length = i
  monotone : ∀ u u' b b', utf8Of text u = some b → utf8Of text u' = some b' → (u ≤ u' ↔ b ≤ b')
  floorMonotone : ∀ u u', u ≤ u' → utf8Floor text u ≤ utf8Floor text u'
  ceilMonotone : ∀ u u', u ≤ u' → utf8Ceil text u ≤ utf8Ceil text u'
  offsets : ∀ u, Boundary charLenUtf16 text u ∨
    (∃ p c q, text = p ++ c :: q ∧ lenUtf16 p < u ∧ u < lenUtf16 p + charLenUtf16 c) ∨
      lenUtf16 text < u
  bytes : ∀ b, Boundary Char.utf8Size text b ∨
    (∃ p c q, text = p ++ c :: q ∧ byteLen p < b ∧ b < byteLen p + c.utf8Size) ∨ byteLen text < b
  atBoundary : ∀ p q, text = p ++ q →
    utf8Floor text (lenUtf16 p) = byteLen p ∧ utf8Ceil text (lenUtf16 p) = byteLen p
  inside : ∀ p c q, text = p ++ c :: q → ∀ u, lenUtf16 p < u → u < lenUtf16 p + charLenUtf16 c →
    utf8Of text u = none ∧ codePointOf text u = none ∧
      utf8Floor text u = byteLen p ∧ utf8Ceil text u = byteLen (p ++ [c])
  insideBytes : ∀ p c q, text = p ++ c :: q → ∀ b, byteLen p < b → b < byteLen p + c.utf8Size →
    utf16Of text b = none
  past : ∀ u, lenUtf16 text < u → utf8Of text u = none ∧ codePointOf text u = none ∧
    utf8Floor text u = byteLen text ∧ utf8Ceil text u = byteLen text
  pastBytes : ∀ b, byteLen text < b → utf16Of text b = none
  slice : ∀ start stop s, slice16 text start stop = some s ↔
    ∃ p q, text = p ++ s ++ q ∧ lenUtf16 p = start ∧ lenUtf16 (p ++ s) = stop
  widened : ∀ start stop, slice16Widened text start stop =
    ((spans charLenUtf16 0 text).filter fun y =>
      decide (0 < covered charLenUtf16 start stop y.1 y.2)).map Prod.snd
  lossy : ∀ start stop, slice16Lossy text start stop =
    (spans charLenUtf16 0 text).flatMap (shown start stop)
  cut : ∀ cuts : List ℕ, cuts.Pairwise (· ≤ ·) → (∀ u ∈ cuts, Boundary charLenUtf16 text u) →
    ∃ pieces, ((0 :: cuts).zip (cuts ++ [lenUtf16 text])).mapM
      (fun range => slice16 text range.1 range.2) = some pieces ∧ pieces.flatten = text

lemma inside_offsets {c : Char} (hlt : lenUtf16 p < offset)
    (hgt : offset < lenUtf16 p + charLenUtf16 c) :
    utf8Of (p ++ c :: q) offset = none ∧ codePointOf (p ++ c :: q) offset = none ∧
      utf8Floor (p ++ c :: q) offset = byteLen p ∧
        utf8Ceil (p ++ c :: q) offset = byteLen (p ++ [c]) := by
  have hnone : ¬Boundary charLenUtf16 (p ++ c :: q) offset :=
    not_boundary_inside charLenUtf16_pos hlt hgt
  refine ⟨?_, ?_, ?_, ?_⟩
  · rw [utf8Of_eq]
    exact (convert_eq_none charLenUtf16_pos).2 hnone
  · rw [codePointOf_eq]
    exact (convert_eq_none charLenUtf16_pos).2 hnone
  · rw [utf8Floor_eq, floorAt_inside hlt hgt, take_left]
  · rw [utf8Ceil_eq, ceilAt_inside charLenUtf16_pos hlt hgt, take_length_add_append]
    rfl

lemma past_offsets (h : lenUtf16 text < offset) :
    utf8Of text offset = none ∧ codePointOf text offset = none ∧
      utf8Floor text offset = byteLen text ∧ utf8Ceil text offset = byteLen text := by
  have hnone : ¬Boundary charLenUtf16 text offset := fun hb => absurd hb.le (Nat.not_le.2 h)
  refine ⟨?_, ?_, ?_, ?_⟩
  · rw [utf8Of_eq]
    exact (convert_eq_none charLenUtf16_pos).2 hnone
  · rw [codePointOf_eq]
    exact (convert_eq_none charLenUtf16_pos).2 hnone
  · rw [utf8Floor_eq, floorAt_past h, take_length]
  · rw [utf8Ceil_eq, ceilAt_past charLenUtf16_pos h, take_length]

/-- Every conversion and every slice is faithful to the text. -/
theorem text_index_faithful (text : List Char) : Faithful text where
  inverse u b := by
    rw [utf8Of_eq]
    exact convert_symm charLenUtf16_pos Char.utf8Size_pos
  boundary u b := by
    rw [utf8Of_eq]
    exact convert_eq_some charLenUtf16_pos
  codePoint u i := by
    rw [codePointOf_eq, convert_eq_some charLenUtf16_pos]
    simp only [width_one]
  monotone u u' b b' h h' := by
    rw [utf8Of_eq] at h h'
    refine ⟨convert_mono charLenUtf16_pos h h', ?_⟩
    rw [convert_symm charLenUtf16_pos Char.utf8Size_pos] at h h'
    exact convert_mono Char.utf8Size_pos h h'
  floorMonotone u u' h := by
    rw [utf8Floor_eq, utf8Floor_eq]
    exact width_take_mono (floorAt_mono h)
  ceilMonotone u u' h := by
    rw [utf8Ceil_eq, utf8Ceil_eq]
    exact width_take_mono (ceilAt_mono h)
  offsets := offset_cases text
  bytes := offset_cases text
  atBoundary p q htext := by
    rw [utf8Floor_eq, utf8Ceil_eq, htext, floorAt_width charLenUtf16_pos,
      ceilAt_width charLenUtf16_pos, take_left]
    exact ⟨rfl, rfl⟩
  inside p c q htext u hlt hgt := htext ▸ inside_offsets hlt hgt
  insideBytes p c q htext b hlt hgt := by
    rw [utf16Of_eq, htext]
    exact (convert_eq_none Char.utf8Size_pos).2 (not_boundary_inside Char.utf8Size_pos hlt hgt)
  past u h := past_offsets h
  pastBytes b h := by
    rw [utf16Of_eq]
    exact (convert_eq_none Char.utf8Size_pos).2 fun hb => absurd hb.le (Nat.not_le.2 h)
  slice start stop s := slice16_eq_some
  widened start stop := by
    rw [slice16Widened_eq, Anchors.slice16Widened, widened_eq_filter charLenUtf16_pos 0]
    simp
  lossy start stop := slice16Lossy_eq
  cut cuts hcuts hcut := slices_from (p := []) hcuts rfl (fun _ _ => Nat.zero_le _) hcut

end LibrePaper.Anchors.TextIndex
