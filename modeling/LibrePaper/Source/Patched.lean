import LibrePaper.Source.Apply

/-!
# The text of a patched file

Patches that a change was accepted with replace ranges of the text one after the other, and
the edits they become leave the same text.
-/
namespace LibrePaper.Source
open Library Anchors List

/-- Ranges from an offset on, each after the one before it. -/
def Ascends : ℕ → List (ℕ × ℕ) → Prop
  | _, [] => True
  | u, r :: ranges => u ≤ r.1 ∧ r.1 ≤ r.2 ∧ Ascends r.2 ranges

variable {ranges : List (ℕ × ℕ)} {u : ℕ} {text out : List Char} {patches : List Patch}

/-- Ranges without a conflict ascend. -/
lemma ascends_of_anyConflict {policy : OverlapPolicy} (h : anyConflict policy ranges = false)
    (hle : ∀ r ∈ ranges, r.1 ≤ r.2) (hu : ∀ r ∈ ranges.head?, u ≤ r.1) : Ascends u ranges := by
  induction ranges generalizing u with
  | nil => trivial
  | cons a ranges ih =>
    refine ⟨hu a rfl, hle a mem_cons_self, ?_⟩
    cases ranges with
    | nil => trivial
    | cons b ranges =>
      unfold anyConflict at h
      rw [Bool.or_eq_false_iff] at h
      refine ih h.2 (fun r hr => hle r (mem_cons_of_mem _ hr)) fun r hr => ?_
      cases hr
      have ha := hle a mem_cons_self
      have hconflict := h.1
      unfold conflicts at hconflict
      grind

/-- Ranges that ascend have no conflict when everything may touch. -/
lemma anyConflict_of_ascends (h : Ascends u ranges) : anyConflict applySorted ranges = false := by
  induction ranges generalizing u with
  | nil => rfl
  | cons a ranges ih =>
    obtain ⟨-, hle, hrest⟩ := h
    cases ranges with
    | nil => rfl
    | cons b ranges =>
      unfold anyConflict
      rw [ih hrest, Bool.or_false]
      obtain ⟨hab, hb, -⟩ := hrest
      unfold conflicts applySorted
      grind

/-- Patches replace ranges of the text behind an offset, one after the other. -/
inductive Replaced : ℕ → List Char → List Patch → List Char → Prop where
  | nil (pos : ℕ) (rest : List Char) : Replaced pos rest [] rest
  | cons {pos : ℕ} (kept : List Char) {p : Patch} {rest out : List Char} {patches : List Patch} :
      p.start = pos + lenUtf8 kept → p.stop = p.start + lenUtf8 p.captured →
      Replaced p.stop rest patches out →
      Replaced pos (kept ++ p.captured ++ rest) (p :: patches)
        (kept ++ normaliseEndings p.replacement ++ out)

lemma rangeMatches_split {start stop : ℕ} {captured : List Char}
    (h : rangeMatches text start stop captured = true) :
    ∃ front rest, text = front ++ captured ++ rest ∧ lenUtf8 front = start ∧
      lenUtf8 captured + start = stop := by
  unfold rangeMatches at h
  split at h
  · rename_i i j hi hj
    rw [Bool.and_eq_true, decide_eq_true_eq, decide_eq_true_eq] at h
    obtain ⟨hle, hcaptured⟩ := h
    have hstart := boundaryAt_some hi
    have hstop := boundaryAt_some hj
    have hij : i ≤ j ∨ text.length ≤ j := by
      by_contra hno
      rw [not_or, not_le, not_le] at hno
      have hsplit : text.take i = text.take j ++ (text.take i).drop j := by
        conv_lhs => rw [← take_append_drop j (text.take i)]
        rw [take_take, min_eq_left hno.1.le]
      have hwidth : lenUtf8 ((text.take i).drop j) = 0 := by
        have := congrArg (width Char.utf8Size) hsplit
        rw [width_append] at this
        simp only [lenUtf8]
        omega
      have hnil := width_eq_zero Char.utf8Size_pos hwidth
      have hlen := congrArg length hnil
      simp at hlen
      omega
    have htake : text.take i = (text.take j).take i := by
      rw [take_take]
      rcases hij with hij | hlong
      · rw [min_eq_left hij]
      · rcases le_total i j with hij | hji
        · rw [min_eq_left hij]
        · rw [min_eq_right hji, take_of_length_le (hlong.trans hji),
            take_of_length_le hlong]
    have hfront : text.take j = text.take i ++ captured := by
      rw [← hcaptured, htake, take_append_drop]
    refine ⟨text.take i, text.drop j, ?_, hstart, ?_⟩
    · rw [← hfront, take_append_drop]
    · rw [hfront, width_append] at hstop
      simp only [lenUtf8]
      omega
  · cases h

/-- Patches that match a text and ascend replace ranges of it. -/
lemma replaced_of_ascends (front rest : List Char) (htext : text = front ++ rest)
    (hmatch : ∀ p ∈ patches, rangeMatches text p.start p.stop p.captured = true)
    (hasc : Ascends (lenUtf8 front) (patches.map fun p => (p.start, p.stop))) :
    ∃ out, Replaced (lenUtf8 front) rest patches out := by
  induction patches generalizing front rest with
  | nil => exact ⟨rest, .nil _ _⟩
  | cons p patches ih =>
    obtain ⟨hstart, -, hrest⟩ := hasc
    obtain ⟨before, after, hsplit, hbefore, hstop⟩ := rangeMatches_split (hmatch p mem_cons_self)
    have hle : lenUtf8 front ≤ lenUtf8 before := hbefore ▸ hstart
    obtain ⟨kept, rfl, hkept⟩ := append_split Char.utf8Size_pos
      (show front ++ rest = before ++ (p.captured ++ after) by
        rw [← htext, hsplit, append_assoc]) hle
    have hwidth : lenUtf8 (front ++ kept ++ p.captured) = p.stop := by
      simp only [lenUtf8, width_append] at hbefore hstop ⊢
      omega
    obtain ⟨out, hout⟩ := ih (front ++ kept ++ p.captured) after (by rw [hsplit]) (fun q hq => hmatch q (mem_cons_of_mem _ hq)) (hwidth ▸ hrest)
    rw [hkept, ← append_assoc]
    refine ⟨_, .cons kept ?_ ?_ (hwidth ▸ hout)⟩
    · simp only [lenUtf8, width_append] at hbefore ⊢
      omega
    · simp only [lenUtf8] at hstop ⊢
      omega

lemma utf16Of_width (p q : List Char) : utf16Of (p ++ q) (lenUtf8 p) = some (lenUtf16 p) := by
  unfold utf16Of
  rw [boundaryAt_width Char.utf8Size_pos, Option.map_some, take_left]

lemma applyEdit_between (p d q insert : List Char) :
    applyEdit (p ++ d ++ q) ⟨lenUtf16 p, lenUtf16 d, insert⟩ = some (p ++ insert ++ q) := by
  have hfirst : boundaryAt charLenUtf16 (p ++ d ++ q) (lenUtf16 p) = some p.length := by
    rw [append_assoc]
    exact boundaryAt_width charLenUtf16_pos p (d ++ q)
  have hlast : boundaryAt charLenUtf16 (p ++ d ++ q) (lenUtf16 p + lenUtf16 d) =
      some (p ++ d).length := by
    have h := boundaryAt_width charLenUtf16_pos (p ++ d) q
    rwa [width_append] at h
  unfold applyEdit
  rw [hfirst, hlast]
  change some (splice _ _ _ _) = _
  unfold splice
  rw [drop_left, append_assoc p d q, take_left]

/-- What the edits of patches are, and the text they leave. -/
structure Lands (text : List Char) (u : ℕ) (edits : List Edit) (out : List Char) : Prop where
  ascends : Ascends u (edits.map fun e => (e.pos, e.pos + e.delete))
  fits : ∀ e ∈ edits, (boundaryAt charLenUtf16 text e.pos).isSome ∧
    (boundaryAt charLenUtf16 text (e.pos + e.delete)).isSome ∧
    e.pos + e.delete ≤ lenUtf16 text
  applied : edits.foldr (fun e text => text.bind fun text => applyEdit text e) (some text) =
    some out

lemma Replaced.edits (path : Path) {pos : ℕ} {rest : List Char}
    (h : Replaced pos rest patches out) (front : List Char) (hfront : lenUtf8 front = pos)
    (htext : text = front ++ rest) :
    ∃ edits, patches.mapM (patchEdit path text) = .ok edits ∧
      Lands text (lenUtf16 front) edits (front ++ out) := by
  induction h generalizing front with
  | nil pos rest => exact ⟨[], rfl, trivial, nofun, by rw [htext]; rfl⟩
  | @cons pos kept p rest out patches hstart hstop _ ih =>
    have hleft : text = (front ++ kept) ++ (p.captured ++ rest) := by
      rw [htext]
      simp
    have hright : text = (front ++ kept ++ p.captured) ++ rest := by
      rw [htext]
      simp
    have hp : p.start = lenUtf8 (front ++ kept) := by
      rw [hstart, ← hfront]
      exact (width_append _ _ _).symm
    have hq : p.stop = lenUtf8 (front ++ kept ++ p.captured) := by
      rw [hstop, hp]
      exact (width_append _ _ _).symm
    obtain ⟨edits, hedits, hlands⟩ := ih (front ++ kept ++ p.captured) hq.symm hright
    have hedit : patchEdit path text p = .ok ⟨lenUtf16 (front ++ kept), lenUtf16 p.captured,
        normaliseEndings p.replacement⟩ := by
      have h₁ : utf16Of text p.start = some (lenUtf16 (front ++ kept)) := by
        rw [hp, hleft]
        exact utf16Of_width _ _
      have h₂ : utf16Of text p.stop = some (lenUtf16 (front ++ kept ++ p.captured)) := by
        rw [hq, hright]
        exact utf16Of_width _ _
      unfold patchEdit
      rw [h₁, h₂]
      have hwidth : lenUtf16 (front ++ kept ++ p.captured) =
          lenUtf16 (front ++ kept) + lenUtf16 p.captured := width_append _ _ _
      dsimp only
      rw [hwidth, if_pos (Nat.le_add_right _ _), Nat.add_sub_cancel_left]
    have hwidth : lenUtf16 (front ++ kept) + lenUtf16 p.captured =
        lenUtf16 (front ++ kept ++ p.captured) := (width_append _ _ _).symm
    refine ⟨⟨lenUtf16 (front ++ kept), lenUtf16 p.captured, normaliseEndings p.replacement⟩ ::
      edits, ?_, ⟨?_, Nat.le_add_right _ _, ?_⟩, ?_, ?_⟩
    · rw [mapM_cons, hedit, hedits]
      rfl
    · change lenUtf16 front ≤ lenUtf16 (front ++ kept)
      simp only [lenUtf16, width_append]
      omega
    · dsimp only
      rw [hwidth]
      exact hlands.ascends
    · intro e he
      rcases mem_cons.1 he with rfl | he
      · refine ⟨?_, ?_, ?_⟩
        · rw [hleft, boundaryAt_width charLenUtf16_pos]
          rfl
        · dsimp only
          rw [hwidth, hright, boundaryAt_width charLenUtf16_pos]
          rfl
        · dsimp only
          rw [hwidth, hright]
          simp only [lenUtf16, width_append]
          omega
      · exact hlands.fits e he
    · rw [foldr_cons, hlands.applied]
      change applyEdit _ _ = _
      rw [show front ++ kept ++ p.captured ++ out = (front ++ kept) ++ p.captured ++ out from rfl,
        applyEdit_between]
      simp

lemma Lands.untracked {edits : List Edit} (h : Lands text u edits out) :
    untrackedText text edits = some out := by
  unfold untrackedText
  rw [if_pos]
  · unfold applyTextEdits
    rw [if_neg]
    · exact h.applied
    · rw [Bool.or_eq_true, not_or]
      refine ⟨?_, ?_⟩
      · rw [any_eq_true]
        rintro ⟨e, he, hlt⟩
        exact absurd (h.fits e he).2.2 (not_le.mpr (decide_eq_true_eq.mp hlt))
      · have hnone : overlapping applySorted (edits.map fun e => (e.pos, e.pos + e.delete)) =
            false := anyConflict_of_ascends h.ascends
        rw [hnone]
        exact Bool.false_ne_true
  · rw [all_eq_true]
    intro e he
    obtain ⟨hstart, hstop, -⟩ := h.fits e he
    rw [hstart, hstop]
    rfl

lemma patches_land (path : Path)
    (hmatch : ∀ p ∈ patches, rangeMatches text p.start p.stop p.captured = true)
    (hasc : Ascends 0 (patches.map fun p => (p.start, p.stop))) :
    ∃ edits out, patches.mapM (patchEdit path text) = .ok edits ∧
      untrackedText text edits = some out ∧ Replaced 0 text patches out := by
  obtain ⟨out, hout⟩ := replaced_of_ascends [] text (nil_append text).symm hmatch hasc
  obtain ⟨edits, hedits, hlands⟩ := hout.edits path [] rfl (nil_append text).symm
  exact ⟨edits, out, hedits, hlands.untracked, hout⟩

end LibrePaper.Source
