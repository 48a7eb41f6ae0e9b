import LibrePaper.Library.Splits
import LibrePaper.Source.Tree
import LibrePaper.Storage.SourceArchive

/-!
# Names with a number

A number in a name changes neither the directories it is in nor that it is composed. What it can
change is the length and the extension.
-/
namespace LibrePaper.Source
open Library Storage Browser List

/-- A character of the number that is put into a name. -/
def Numbering (c : Char) : Prop := c = ' ' ∨ c = '(' ∨ c = ')' ∨ c.isDigit = true

/-- What Unicode says of composition: it can be repeated and commutes with trimming, parts of a
composed text are composed, and a number composes with nothing around it. -/
structure Composing (u : Unicode) : Prop where
  trim : u.trim = strip isWhitespace
  again : ∀ text, u.nfc (u.nfc text) = u.nfc text
  commutes : ∀ text, u.nfc (u.trim text) = u.trim (u.nfc text)
  parts : ∀ x y, u.nfc (x ++ y) = x ++ y → u.nfc x = x ∧ u.nfc y = y
  around : ∀ x c y, Numbering c → u.nfc x = x → u.nfc y = y → u.nfc (x ++ c :: y) = x ++ c :: y

/-- The number stands in the last segment, before an extension. -/
structure Numbered (path new front number back : Path) : Prop where
  was : path = front ++ back
  became : new = front ++ (number ++ back)
  rooted : front ≠ []
  flat : '/' ∉ back
  dotted : back = [] ∨ back.head? = some '.'
  marked : number ≠ []
  numbering : ∀ c ∈ number, Numbering c

lemma numbering_digits (nth : ℕ) : ∀ c ∈ [' ', '('] ++ (toString nth).toList ++ [')'],
    Numbering c := by
  intro c hc
  simp only [mem_append, mem_cons, not_mem_nil, or_false] at hc
  rcases hc with ((rfl | rfl) | hc) | rfl
  · exact .inl rfl
  · exact .inr (.inl rfl)
  · rw [Nat.toString_eq_repr, Nat.toList_repr] at hc
    exact .inr (.inr (.inr (Nat.isDigit_of_mem_toDigits (by decide) (by decide) hc)))
  · exact .inr (.inr (.inl rfl))

lemma dotted_splitExtension (path : Path) :
    (splitExtension path).2 = [] ∨ (splitExtension path).2.head? = some '.' := by
  by_cases hdot : '.' ∈ path
  · obtain ⟨back, front, hsplit, hback⟩ := eq_append_cons_of_mem (mem_reverse.2 hdot)
    have hpath : path = front.reverse ++ '.' :: back.reverse := by
      rw [← reverse_reverse path, hsplit, reverse_append, reverse_cons,
        append_assoc, singleton_append]
    rw [hpath, splitExtension_append _ _ fun hin => hback (mem_reverse.1 hin)]
    exact .inr rfl
  · rw [splitExtension_of_notMem hdot]
    exact .inl rfl

variable {path : Path}

lemma exists_numbered (hne : path ≠ []) (nth : ℕ) :
    ∃ front number back, Numbered path (suffixed path nth) front number back := by
  have hnumber : [' ', '('] ++ (toString nth).toList ++ [')'] ≠ [] :=
    append_ne_nil_of_right_ne_nil _ (cons_ne_nil _ _)
  unfold suffixed
  dsimp only
  split_ifs with hstem
  · refine ⟨(splitExtension path).1, [' ', '('] ++ (toString nth).toList ++ [')'],
      (splitExtension path).2, (splitExtension_join path).symm, ?_, hstem.1, hstem.2,
      dotted_splitExtension path, hnumber, numbering_digits nth⟩
    simp
  · refine ⟨path, [' ', '('] ++ (toString nth).toList ++ [')'], [], (append_nil path).symm,
      ?_, hne, not_mem_nil, .inl rfl, hnumber, numbering_digits nth⟩
    simp

section Numbered
variable {u : Unicode} {path new front number back : Path}

lemma Composing.clean (h : Composing u) (path : Path) :
    Clean isWhitespace (normalise u path) := by
  rw [normalise, h.commutes, h.trim]
  exact clean_strip isWhitespace _

lemma Composing.normalise_eq (h : Composing u) (hclean : Clean isWhitespace path)
    (hnfc : u.nfc path = path) : normalise u path = path := by
  rw [normalise, h.trim, strip_of_clean hclean, hnfc]

lemma Composing.nfc_normalise (h : Composing u) (path : Path) :
    u.nfc (normalise u path) = normalise u path := h.again _

/-- A number in a composed name leaves it composed. -/
lemma Numbered.nfc (hn : Numbered path new front number back) (h : Composing u)
    (hpath : u.nfc path = path) : u.nfc new = new := by
  rw [hn.was] at hpath
  obtain ⟨hfront, hback⟩ := h.parts front back hpath
  have hnil : u.nfc [] = [] := (h.parts front [] (by rwa [append_nil])).2
  have hbehind : ∀ text : Path, (∀ c ∈ text, Numbering c) →
      u.nfc (text ++ back) = text ++ back := by
    intro text htext
    induction text with
    | nil => exact hback
    | cons c text ih =>
      obtain ⟨hc, htext⟩ := forall_mem_cons.1 htext
      exact h.around [] c (text ++ back) hc hnil (ih htext)
  rw [hn.became]
  obtain ⟨c, text, hnumber⟩ := exists_cons_of_ne_nil hn.marked
  obtain ⟨hc, htext⟩ := forall_mem_cons.1 (hnumber ▸ hn.numbering)
  rw [hnumber]
  exact h.around front c (text ++ back) hc hfront (hbehind text htext)

lemma normalise_suffixed (h : Composing u) (hne : path ≠ []) (hpath : normalise u path = path)
    (nth : ℕ) : normalise u (suffixed path nth) = suffixed path nth := by
  obtain ⟨front, number, back, hn⟩ := exists_numbered hne nth
  refine h.normalise_eq (clean_suffixed (by decide) hne (hpath ▸ h.clean path) nth) ?_
  exact hn.nfc h (by rw [← hpath, h.nfc_normalise])

/-- The segments of a name with a number are those of the name, but for the last one. -/
lemma Numbered.segments (hn : Numbered path new front number back) :
    ∃ parts last, path.splitOn '/' = parts ++ [last ++ back] ∧
      new.splitOn '/' = parts ++ [last ++ (number ++ back)] := by
  obtain ⟨parts, last, -, hput⟩ := exists_splitOn_append (a := '/') front
  refine ⟨parts, last, hn.was ▸ hput back hn.flat, hn.became ▸ hput _ fun hin => ?_⟩
  rcases mem_append.1 hin with hin | hin
  · exact absurd (hn.numbering _ hin) (by unfold Numbering; decide)
  · exact hn.flat hin

/-- A segment with a number is as good as it was. -/
lemma Numbered.badSegment (hn : Numbered path new front number back) {last : Path} (p q : Path)
    (h : Source.badSegment p (last ++ back) = none) :
    Source.badSegment q (last ++ (number ++ back)) = none := by
  unfold Source.badSegment at h ⊢
  simp only [ite_some_eq_none] at h ⊢
  obtain ⟨hne, -, hhead, -⟩ := h
  have hlast : last ≠ [] := by
    rintro rfl
    rcases hn.dotted with hback | hback
    · exact hne hback
    · exact hhead hback
  rw [head?_append_of_ne_nil _ hlast] at hhead
  have hshort : ∀ text : Path, text.head? = some '.' → last ++ (number ++ back) ≠ text := by
    intro text htext heq
    rw [← heq, head?_append_of_ne_nil _ hlast] at htext
    exact hhead htext
  refine ⟨append_ne_nil_of_left_ne_nil hlast _, ?_, ?_, trivial⟩
  · rintro (hdot | hdots)
    · exact hshort _ rfl hdot
    · exact hshort _ rfl hdots
  · rwa [head?_append_of_ne_nil _ hlast]

lemma Numbering.plain {c : Char} (h : Numbering c) :
    0x20 ≤ c.toNat ∧ c.toNat ≠ 0x7f ∧ c ≠ '\\' ∧ c ≠ '/' := by
  rcases h with rfl | rfl | rfl | hdigit
  · decide
  · decide
  · decide
  · have hrange : 48 ≤ c.toNat ∧ c.toNat ≤ 57 := by
      simpa [Char.isDigit, UInt32.le_iff_toNat_le] using hdigit
    refine ⟨by omega, by omega, ?_, ?_⟩
    · rintro rfl
      exact absurd hrange (by decide)
    · rintro rfl
      exact absurd hrange (by decide)

lemma segments_refused {p q : Path} {l : List Path} : l.findSome? (Source.badSegment p) = none ↔
    ∀ segment ∈ l, Source.badSegment q segment = none := by
  rw [findSome?_eq_none_iff]
  refine forall₂_congr fun segment _ => ?_
  unfold Source.badSegment
  simp only [ite_some_eq_none]

variable {rules : Rules} {kind : Kind}

/-- A path is accepted when nothing is wrong with it. -/
lemma admission_ok_iff :
    admission u rules path = .ok kind ↔
      normalise u path ≠ [] ∧ lenUtf8 (normalise u path) ≤ rules.maxPath ∧
      (normalise u path).head? ≠ some '/' ∧ '\\' ∉ normalise u path ∧
      (∀ c ∈ normalise u path, 0x20 ≤ c.toNat ∧ c.toNat ≠ 0x7f) ∧
      ((normalise u path).splitOn '/').length ≤ rules.maxSegments ∧
      (∀ segment ∈ (normalise u path).splitOn '/', Source.badSegment [] segment = none) ∧
      kindOf u rules (normalise u path) = .ok kind := by
  have hcontrol : ¬((normalise u path).any fun c => decide (c.toNat < 0x20) || c.toNat == 0x7f) =
      true ↔ ∀ c ∈ normalise u path, 0x20 ≤ c.toNat ∧ c.toNat ≠ 0x7f := by
    simp
  unfold admission
  dsimp only
  simp only [ite_error_eq_ok, hcontrol, not_lt]
  refine and_congr_right' (and_congr_right' (and_congr_right' (and_congr_right'
    (and_congr_right' (and_congr_right' ?_)))))
  rw [← segments_refused (p := normalise u path)]
  split
  · next why hwhy =>
    rw [hwhy]
    exact iff_of_false nofun fun hno => nomatch hno.1
  · next hnone =>
    rw [hnone]
    exact (and_iff_right rfl).symm

/-- An accepted path is a relative path. -/
lemma relPath_of_admission (h : admission u rules path = .ok kind) :
    relPath (normalise u path) = true := by
  obtain ⟨hne, -, hroot, hback, hcontrol, -, hsegments, -⟩ := admission_ok_iff.1 h
  have hparts : ((normalise u path).splitOn '/').any
      (fun part => part == [] || part == ['.'] || part == ['.', '.']) = false := by
    rw [any_eq_false]
    intro part hpart
    have hgood := hsegments part hpart
    unfold Source.badSegment at hgood
    simp only [ite_some_eq_none, not_or] at hgood
    simp [hgood.1, hgood.2.1.1, hgood.2.1.2]
  have hplain : ((normalise u path).any fun ch => decide (ch.toNat < 0x20) || ch.toNat == 0x7f) =
      false := by
    rw [any_eq_false]
    intro c hc
    have hbounds := hcontrol c hc
    simp [hbounds.1, hbounds.2]
  unfold relPath
  rw [hparts, hplain]
  simp [hne, hroot, hback]

/-- A name with a number is refused for its length or its extension only. -/
lemma admission_suffixed (h : Composing u) {raw : Path} {kind' : Kind}
    (hold : admission u rules raw = .ok kind) (nth : ℕ) :
    admission u rules (suffixed (normalise u raw) nth) = .ok kind' ↔
      lenUtf8 (suffixed (normalise u raw) nth) ≤ rules.maxPath ∧
        kindOf u rules (suffixed (normalise u raw) nth) = .ok kind' := by
  have hne := name_ne_nil hold
  have hnew := normalise_suffixed h hne (normalise_normalise u raw) nth
  obtain ⟨front, number, back, hn⟩ := exists_numbered hne nth
  obtain ⟨parts, last, hwas, hbecame⟩ := hn.segments
  obtain ⟨-, -, hroot, hback, hcontrol, hdeep, hsegments, -⟩ := admission_ok_iff.1 hold
  have hchars : ∀ c ∈ suffixed (normalise u raw) nth, c ∈ normalise u raw ∨ Numbering c := by
    intro c hc
    rw [hn.became] at hc
    rw [hn.was]
    simp only [mem_append] at hc ⊢
    rcases hc with hc | hc | hc
    · exact .inl (.inl hc)
    · exact .inr (hn.numbering c hc)
    · exact .inl (.inr hc)
  have hhead : (suffixed (normalise u raw) nth).head? = (normalise u raw).head? := by
    rw [hn.became, hn.was, head?_append_of_ne_nil _ hn.rooted, head?_append_of_ne_nil _ hn.rooted]
  rw [admission_ok_iff, hnew, hhead, hbecame]
  rw [hwas] at hdeep hsegments
  constructor
  · rintro ⟨-, hlength, -, -, -, -, -, hkind⟩
    exact ⟨hlength, hkind⟩
  · rintro ⟨hlength, hkind⟩
    refine ⟨?_, hlength, hroot, fun hin => ?_, fun c hc => ?_, ?_, fun segment hsegment => ?_,
      hkind⟩
    · rw [hn.became]
      exact append_ne_nil_of_left_ne_nil hn.rooted _
    · rcases hchars _ hin with hin | hin
      · exact hback hin
      · exact hin.plain.2.2.1 rfl
    · rcases hchars c hc with hc | hc
      · exact hcontrol c hc
      · exact ⟨hc.plain.1, hc.plain.2.1⟩
    · rw [length_append] at hdeep ⊢
      exact hdeep
    · rcases mem_append.1 hsegment with hsegment | hsegment
      · exact hsegments segment (mem_append_left _ hsegment)
      · rw [mem_singleton.1 hsegment]
        exact hn.badSegment [] [] (hsegments _ (mem_append_right _ (mem_singleton_self _)))

end Numbered

end LibrePaper.Source
