import LibrePaper.Anchors.Browser
import LibrePaper.Anchors.Follow

/-!
# Texts of characters and of code units

A text of characters is compared with its UTF-16 code units. A slice of the units between
two boundaries is a slice of the characters, and a text is found once among the units where
it is found once among the characters.
-/
namespace LibrePaper.Anchors
open Library List Option
open Browser (Units encodeUtf16 utf16 newline slice)

lemma length_encodeUtf16 (c : Char) : (encodeUtf16 c).length = charLenUtf16 c := by
  unfold encodeUtf16 charLenUtf16
  split_ifs
  all_goals rfl

lemma code_width : (fun c => (encodeUtf16 c).length) = charLenUtf16 := funext length_encodeUtf16

lemma toNat_unit {n : ℕ} (h : n < 0x10000) : n.toUInt16.toNat = n := by
  show n % 2 ^ 16 = n
  exact Nat.mod_eq_of_lt h

lemma not_surrogate (c : Char) : c.toNat < 0xd800 ∨ 0xdfff < c.toNat ∧ c.toNat < 0x110000 :=
  c.valid

/-- The units of a character, as numbers. -/
lemma encodeUtf16_cases (c : Char) :
    (encodeUtf16 c).map UInt16.toNat = if c.toNat < 0x10000 then [c.toNat]
      else [0xd800 + (c.toNat - 0x10000) / 0x400, 0xdc00 + (c.toNat - 0x10000) % 0x400] := by
  have hc := not_surrogate c
  unfold encodeUtf16
  split_ifs with h
  · rw [map_singleton, toNat_unit h]
  · rw [map_cons, map_singleton, toNat_unit (by omega), toNat_unit (by omega)]

/-- Only the second unit of a surrogate pair does not start a character. -/
def startsUtf16 (u : UInt16) : Prop := ¬(0xdc00 ≤ u.toNat ∧ u.toNat < 0xe000)

lemma synchronizing_utf16 : Synchronizing encodeUtf16 startsUtf16 where
  head c := by
    have hc := not_surrogate c
    unfold encodeUtf16 startsUtf16
    split_ifs with h
    · refine ⟨_, [], rfl, ?_, nofun⟩
      rw [toNat_unit h]
      omega
    · refine ⟨_, _, rfl, ?_, fun u hu => ?_⟩
      · rw [toNat_unit (by omega)]
        omega
      · rw [mem_singleton.1 hu, toNat_unit (by omega)]
        omega
  unique a b hab := by
    have ha := not_surrogate a
    have hb := not_surrogate b
    have hmap := hab.map UInt16.toNat
    rw [encodeUtf16_cases, encodeUtf16_cases] at hmap
    apply Char.toNat_inj.1
    split_ifs at hmap
    · simpa using hmap
    · simp only [cons_prefix_cons, nil_prefix, and_true] at hmap
      omega
    · simp at hmap
    · simp only [cons_prefix_cons, nil_prefix, and_true] at hmap
      omega

@[simp] lemma length_utf16 (text : List Char) : (utf16 text).length = lenUtf16 text := by
  unfold utf16
  rw [length_coded, code_width]

lemma utf16_append (p q : List Char) : utf16 (p ++ q) = utf16 p ++ utf16 q := coded_append p q

lemma utf16_eq_nil {text : List Char} : utf16 text = [] ↔ text = [] :=
  synchronizing_utf16.coded_eq_nil

lemma utf16_injective : Function.Injective utf16 := synchronizing_utf16.coded_injective

lemma take_utf16 (p q : List Char) : (utf16 (p ++ q)).take (lenUtf16 p) = utf16 p := by
  rw [lenUtf16, ← code_width]
  exact take_coded p q

lemma drop_utf16 (p q : List Char) : (utf16 (p ++ q)).drop (lenUtf16 p) = utf16 q := by
  rw [lenUtf16, ← code_width]
  exact drop_coded p q

lemma utf16_occurs {needle hay : List Char} (hne : needle ≠ []) (u : ℕ) :
    utf16 needle <+: (utf16 hay).drop u ↔ ∃ p q, hay = p ++ q ∧ lenUtf16 p = u ∧ needle <+: q := by
  unfold lenUtf16
  rw [← code_width]
  exact synchronizing_utf16.coded_occurs hne u

lemma slice_utf16 (p s q : List Char) :
    slice (utf16 (p ++ s ++ q)) (lenUtf16 p) (lenUtf16 p + lenUtf16 s) = utf16 s := by
  unfold slice
  rw [← width_append, take_utf16, drop_utf16]

lemma slice_boundaries {text : List Char} {start stop : ℕ}
    (hstart : Boundary charLenUtf16 text start) (hstop : Boundary charLenUtf16 text stop)
    (hle : start ≤ stop) : slice (utf16 text) start stop = utf16 (slice16Widened text start stop) := by
  obtain ⟨p, q, rfl, rfl⟩ := hstart
  obtain ⟨p', q', hsplit, rfl⟩ := hstop
  obtain ⟨s, rfl, rfl⟩ := append_split charLenUtf16_pos hsplit hle
  rw [← append_assoc, width_append, slice_utf16, slice16Widened, widened_between charLenUtf16_pos]

/-- A text that is read back at a boundary is there, and so is one that begins with a newline. -/
lemma read_at {after text : List Char} {start : ℕ} (hne : text ≠ [])
    (hstart : Boundary charLenUtf16 after start ∨ text.head? = some '\n')
    (h : slice16Widened after start (start + lenUtf16 text) = text) :
    ∃ p q, after = p ++ text ++ q ∧ lenUtf16 p = start := by
  have hlen : 0 < lenUtf16 text :=
    Nat.pos_of_ne_zero fun hzero => hne (width_eq_zero charLenUtf16_pos hzero)
  have hboundary : Boundary charLenUtf16 after start := by
    rcases hstart with hstart | hhead
    · exact hstart
    · unfold slice16Widened widened at h
      rw [if_neg (by omega)] at h
      rw [← h, head?_drop, getElem?_take] at hhead
      split_ifs at hhead
      have hlt := lt_width_floorAt hhead
      have hle := width_take_floorAt (w := charLenUtf16) after start
      have hone : charLenUtf16 '\n' = 1 := by decide
      refine ⟨_, _, (take_append_drop (floorAt charLenUtf16 after start) after).symm, ?_⟩
      omega
  obtain ⟨p, q, rfl, rfl⟩ := hboundary
  have hpre : text <+: q := by
    unfold slice16Widened widened at h
    rw [if_neg (by omega), ceilAt_append charLenUtf16_pos, floorAt_width charLenUtf16_pos,
      take_length_add_append, drop_left] at h
    rw [← h]
    exact take_prefix _ _
  obtain ⟨s, rfl⟩ := hpre
  exact ⟨p, s, (append_assoc _ _ _).symm, rfl⟩

/-- A text is read back at a boundary in the same places, and a text that begins with a
newline is read back at no other offset. -/
lemma slices_agree {after text : List Char} {start : ℕ} (hne : text ≠ [])
    (hstart : Boundary charLenUtf16 after start ∨ text.head? = some '\n') :
    slice (utf16 after) start (start + lenUtf16 text) = utf16 text ↔
      slice16Widened after start (start + lenUtf16 text) = text := by
  constructor
  · intro h
    have hpre : utf16 text <+: (utf16 after).drop start := by
      rw [← h]
      unfold slice
      rw [← take_drop]
      exact take_prefix _ _
    obtain ⟨p, q, rfl, rfl, s, rfl⟩ := (utf16_occurs hne start).1 hpre
    rw [← append_assoc]
    exact widened_between charLenUtf16_pos p text s
  · intro h
    obtain ⟨p, q, rfl, rfl⟩ := read_at hne hstart h
    exact slice_utf16 p text q

/-- Where a text occurs, the other splits. -/
lemma OccursAt.split {hay needle : List Char} {i : ℕ} (h : OccursAt hay needle i)
    (hne : needle ≠ []) : ∃ p q, hay = p ++ q ∧ p.length = i ∧ needle <+: q := by
  have hle : i ≤ hay.length := by
    by_contra hgt
    unfold OccursAt at h
    rw [drop_eq_nil_of_le (Nat.le_of_not_le hgt), prefix_nil] at h
    exact hne h
  refine ⟨hay.take i, hay.drop i, (take_append_drop _ _).symm, ?_, h⟩
  rw [length_take, min_eq_left hle]

lemma once_eq_some {hay needle : List Char} {shift : ℤ} {r : ℕ × ℤ} :
    once hay needle shift = some r ↔ needle ≠ [] ∧ ∃ p q, hay = p ++ q ∧ needle <+: q ∧
      (∀ i, OccursAt hay needle i → i = p.length) ∧ r = (lenUtf16 p, shift) := by
  constructor
  · intro h
    unfold once at h
    split at h
    · rename_i start stop hone
      obtain ⟨hne, hat, honly⟩ := uniqueOccurrence_one hone
      obtain ⟨p, q, rfl, rfl, hpre⟩ := hat.split hne
      rw [take_left] at h
      exact ⟨hne, p, q, rfl, hpre, honly, (some.inj h).symm⟩
    all_goals cases h
  · rintro ⟨hne, p, q, rfl, hat, honly, rfl⟩
    have hocc : OccursAt (p ++ q) needle p.length := by
      unfold OccursAt
      rw [drop_left]
      exact hat
    unfold once
    rw [uniqueOccurrence_eq hne hocc honly]
    dsimp only
    rw [take_left]

lemma Browser.once_eq_some {hay needle : Units} {shift : ℤ} {r : ℕ × ℤ} :
    Browser.once hay needle shift = some r ↔ ∃ u, needle <+: hay.drop u ∧
      (∀ v, needle <+: hay.drop v → v = u) ∧ r = (u, shift) := by
  constructor
  · intro h
    unfold Browser.once at h
    split at h
    · cases h
    · rename_i u hu
      split_ifs at h with hagain
      rw [Bool.not_eq_true] at hagain
      obtain ⟨hat, honly⟩ := (firstAt_unique u).1 ⟨hu, hagain⟩
      exact ⟨u, hat, honly, (some.inj h).symm⟩
  · rintro ⟨u, hat, honly, rfl⟩
    obtain ⟨hu, hagain⟩ := (firstAt_unique u).2 ⟨hat, honly⟩
    unfold Browser.once
    rw [hu]
    dsimp only
    rw [hagain]
    rfl

lemma once_utf16 (hay needle : List Char) (shift : ℤ) :
    Browser.once (utf16 hay) (utf16 needle) shift = once hay needle shift := by
  apply ext
  intro r
  rw [Browser.once_eq_some, once_eq_some]
  constructor
  · rintro ⟨u, hat, honly, rfl⟩
    have hne : needle ≠ [] := by
      rintro rfl
      exact absurd (honly (u + 1) nil_prefix) (Nat.succ_ne_self u)
    obtain ⟨p, q, rfl, rfl, hpre⟩ := (utf16_occurs hne u).1 hat
    refine ⟨hne, p, q, rfl, hpre, fun i hi => ?_, rfl⟩
    obtain ⟨p', q', hsplit, rfl, hpre'⟩ := hi.split hne
    have hwidth := honly _ ((utf16_occurs hne _).2 ⟨p', q', hsplit, rfl, hpre'⟩)
    exact congrArg length (append_unique charLenUtf16_pos hsplit hwidth.symm).1.symm
  · rintro ⟨hne, p, q, rfl, hpre, honly, rfl⟩
    refine ⟨lenUtf16 p, (utf16_occurs hne _).2 ⟨p, q, rfl, rfl, hpre⟩, fun v hv => ?_, rfl⟩
    obtain ⟨p', q', hsplit, rfl, hpre'⟩ := (utf16_occurs hne v).1 hv
    have hlength := honly p'.length (by
      unfold OccursAt
      rw [hsplit, drop_left]
      exact hpre')
    rw [(append_inj hsplit hlength.symm).1]

lemma utf16_cons_newline (text : List Char) : utf16 ('\n' :: text) = newline :: utf16 text := rfl

/-- No unit of another character is the unit of a newline. -/
lemma newline_unit {c : Char} (h : newline ∈ encodeUtf16 c) : c = '\n' := by
  have hc := not_surrogate c
  have hmem := mem_map_of_mem (f := UInt16.toNat) h
  rw [encodeUtf16_cases] at hmem
  have hten : newline.toNat = 10 := rfl
  rw [hten] at hmem
  apply Char.toNat_inj.1
  split_ifs at hmem
  · rw [← mem_singleton.1 hmem]
    rfl
  · simp only [mem_cons, not_mem_nil, or_false] at hmem
    omega

lemma head_utf16 {text : List Char} :
    (utf16 text).head? = some newline ↔ text.head? = some '\n' := by
  cases text with
  | nil => exact ⟨nofun, nofun⟩
  | cons c text =>
    constructor
    · intro h
      obtain ⟨b, rest, hcode, -, -⟩ := synchronizing_utf16.head c
      unfold utf16 at h
      rw [coded_cons, hcode, cons_append, head?_cons, some.injEq] at h
      have hmem : newline ∈ encodeUtf16 c := by
        rw [hcode, h]
        exact mem_cons_self
      rw [newline_unit hmem, head?_cons]
    · intro h
      cases h
      rfl

lemma getLast_utf16 {text : List Char} :
    (utf16 text).getLast? = some newline ↔ text.getLast? = some '\n' := by
  induction text using reverseRecOn with
  | nil => exact ⟨nofun, nofun⟩
  | append_singleton text c _ =>
    rw [utf16_append, getLast?_append, getLast?_append, getLast?_singleton, some_or]
    have hc : utf16 [c] = encodeUtf16 c := append_nil _
    constructor
    · intro h
      have hsome : (utf16 [c]).getLast? = some newline := by
        cases hl : (utf16 [c]).getLast? with
        | none => exact absurd (utf16_eq_nil.1 (getLast?_eq_none_iff.1 hl)) (by simp)
        | some u =>
          rw [hl, some_or] at h
          exact h
      rw [hc] at hsome
      rw [newline_unit (mem_of_getLast? hsome)]
    · intro h
      cases h
      rfl

lemma movedNewline_utf16 (hay text : List Char) :
    Browser.movedNewline (utf16 hay) (utf16 text) = movedNewline hay text := by
  unfold Browser.movedNewline movedNewline
  simp only [length_utf16, head_utf16, getLast_utf16]
  by_cases hlast : text.getLast? = some '\n'
  · obtain ⟨body, rfl⟩ : ∃ body, text = body ++ ['\n'] := getLast?_eq_some_iff.1 hlast
    have hone : width charLenUtf16 ['\n'] = 1 := by decide
    have hbody : slice (utf16 (body ++ ['\n'])) 0 (lenUtf16 (body ++ ['\n']) - 1) = utf16 body := by
      unfold slice
      rw [lenUtf16, width_append, hone, Nat.add_sub_cancel, take_utf16, drop_zero]
    have hshort : lenUtf16 (body ++ ['\n']) < 2 ↔ (body ++ ['\n']).length < 2 := by
      have hnil : width charLenUtf16 body = 0 ↔ body = [] :=
        ⟨width_eq_zero charLenUtf16_pos, fun h => by rw [h]; rfl⟩
      rw [lenUtf16, width_append, hone, length_append, length_singleton]
      constructor
      · intro h
        rw [hnil.1 (by omega)]
        decide
      · intro h
        rw [hnil.2 (length_eq_zero_iff.1 (by omega))]
        decide
    simp only [hshort, if_pos hlast, dropLast_concat, hbody, ← utf16_cons_newline, once_utf16]
  · by_cases hhead : text.head? = some '\n'
    · obtain ⟨rest, rfl⟩ : ∃ rest, text = '\n' :: rest := head?_eq_some_iff.1 hhead
      obtain ⟨c, rest, rfl⟩ : ∃ c r, rest = c :: r := by
        refine exists_cons_of_ne_nil ?_
        rintro rfl
        exact hlast rfl
      have hlong : ¬lenUtf16 ('\n' :: c :: rest) < 2 := by
        have hc := charLenUtf16_pos c
        have hone : charLenUtf16 '\n' = 1 := by decide
        rw [lenUtf16, width_cons, width_cons]
        omega
      have hlong' : ¬('\n' :: c :: rest).length < 2 := by simp
      have htail : (utf16 ('\n' :: c :: rest)).drop 1 ++ [newline] = utf16 (c :: rest ++ ['\n']) := by
        rw [utf16_append]
        rfl
      rw [if_neg hlong, if_neg hlong', if_neg hlast, if_neg hlast, if_pos hhead, if_pos hhead,
        htail, once_utf16]
      rfl
    · rw [if_neg hlast, if_neg hhead]
      simp only [ite_self, if_neg hlast, if_neg hhead]

lemma found_utf16 (inserted text : List Char) :
    (Browser.once (utf16 inserted) (utf16 text) 0).or
      (Browser.movedNewline (utf16 inserted) (utf16 text)) = found inserted text := by
  rw [once_utf16, movedNewline_utf16]
  rfl

end LibrePaper.Anchors
