import LibrePaper.Anchors.Follow

/-!
# What an anchor covers

An anchor that the second phase attaches covers words that were held of it, and an anchor
that was attached before covers what it did; both with pieces that were cut from them back
at their ends.
-/
namespace LibrePaper.Anchors
open Library

/-- The text of an anchor. -/
def covers (text : List Char) (a : Anchor) : List Char := slice16Widened text a.start a.stop

/-- A text with pieces that are remembered of an anchor back at its ends. -/
inductive Regained (m : MoveMemory) (id : ℕ) (own : List Char) : List Char → Prop
  | own : Regained m id own own
  | head {t e h} : Regained m id own t → e ∈ m.entries → h ∈ e.held → h.id = id →
      h.side = some .head → Regained m id own (h.text ++ t)
  | tail {t e h} : Regained m id own t → e ∈ m.entries → h ∈ e.held → h.id = id →
      h.side = some .tail → Regained m id own (t ++ h.text)

/-- Words that are remembered as the whole of an anchor. -/
def HeldWhole (m : MoveMemory) (id : ℕ) (words : List Char) : Prop :=
  ∃ e ∈ m.entries, ∃ h ∈ e.held, h.id = id ∧ h.side = none ∧ h.text = words

/-- An anchor begins inside the text, and ends at a character boundary unless it ends past
the end. -/
structure Solid (text : List Char) (a : Anchor) : Prop where
  lt : a.start < a.stop
  start : a.start < lenUtf16 text
  stop : Boundary charLenUtf16 text a.stop ∨ lenUtf16 text < a.stop

lemma InText.solid {text : List Char} {a : Anchor} (h : InText text a) : Solid text a :=
  ⟨h.lt, h.lt.trans_le h.stop.le, .inl h.stop⟩

section

variable {text piece : List Char} {a b : Anchor}

lemma lenUtf16_pos (h : piece ≠ []) : 0 < lenUtf16 piece :=
  Nat.pos_of_ne_zero fun hzero => h (width_eq_zero charLenUtf16_pos hzero)

variable {start : ℕ}

/-- A text that is found in a range that is as long is found inside the text. -/
lemma solid_of_slice (hne : piece ≠ [])
    (hslice : slice16Widened text start (start + lenUtf16 piece) = piece) :
    start < lenUtf16 text ∧ (Boundary charLenUtf16 text start ∧
        Boundary charLenUtf16 text (start + lenUtf16 piece) ∨
      lenUtf16 text < start + lenUtf16 piece) := by
  have hpos := lenUtf16_pos hne
  refine ⟨Nat.lt_of_not_le fun hpast => hne ?_, ?_⟩
  · rw [← hslice]
    exact widened_past hpast _
  · refine widened_exact (Nat.lt_add_of_pos_right hpos) ?_
    rw [Nat.add_sub_cancel_left]
    exact congrArg lenUtf16 hslice

/-- A piece that goes back at the start of an anchor is joined to its text. -/
lemma Solid.join_head (h : Solid text a) (hne : piece ≠ [])
    (hslice : slice16Widened text start (start + lenUtf16 piece) = piece)
    (hedge : start + lenUtf16 piece = a.start) (hbs : b.start = start) (hbt : b.stop = a.stop) :
    Solid text b ∧ covers text b = piece ++ covers text a := by
  obtain ⟨hlt, hbound⟩ := solid_of_slice hne hslice
  rw [hedge] at hslice hbound
  have ha := h.start
  have hmid : Boundary charLenUtf16 text a.start := (hbound.resolve_right (Nat.not_lt.2 ha.le)).2
  have hle : start ≤ a.start := hedge ▸ Nat.le_add_right _ _
  refine ⟨⟨?_, ?_, ?_⟩, ?_⟩
  · rw [hbs, hbt]
    exact hle.trans_lt h.lt
  · rw [hbs]
    exact hlt
  · rw [hbt]
    exact h.stop
  · unfold covers
    rw [hbs, hbt, slice16Widened, widened_join charLenUtf16_pos hmid hle h.lt.le]
    exact congrArg (· ++ _) hslice

/-- A piece that goes back at the end of an anchor is joined to its text. -/
lemma Solid.join_tail (h : Solid text a) (hne : piece ≠ [])
    (hslice : slice16Widened text start (start + lenUtf16 piece) = piece) (hedge : start = a.stop)
    (hbs : b.start = a.start) (hbt : b.stop = start + lenUtf16 piece) :
    Solid text b ∧ covers text b = covers text a ++ piece := by
  obtain ⟨hlt, hbound⟩ := solid_of_slice hne hslice
  subst hedge
  have hmid : Boundary charLenUtf16 text a.stop := h.stop.resolve_right (Nat.not_lt.2 hlt.le)
  refine ⟨⟨?_, ?_, ?_⟩, ?_⟩
  · rw [hbs, hbt]
    exact Nat.lt_add_right _ h.lt
  · rw [hbs]
    exact h.start
  · rw [hbt]
    exact hbound.imp_left And.right
  · unfold covers
    rw [hbs, hbt, slice16Widened, widened_join charLenUtf16_pos hmid h.lt.le (Nat.le_add_right _ _)]
    exact congrArg (_ ++ ·) hslice

end

/-- Where the text of an attached anchor comes from. -/
structure Source (first : List Work) (m : MoveMemory) (i : ℕ) (text : List Char)
    (p : PlannedAnchor) (j : ℕ) (q : PlannedAnchor) : Prop where
  sits : Sits first j q
  id : q.anchor.id = p.anchor.id
  attached : q.anchor.attached = true → j = i ∧ p.anchor.start ≤ q.anchor.start ∧
    q.anchor.stop ≤ p.anchor.stop ∧ Regained m p.anchor.id (covers text q.anchor)
      (covers text p.anchor)
  detached : q.anchor.attached = false → ∃ words, HeldWhole m p.anchor.id words ∧
    Regained m p.anchor.id words (covers text p.anchor)

variable {w : Work} {m : MoveMemory} {h : Held} {start : ℕ}

lemma Lands.ne (hl : Lands w m h start) : h.text ≠ [] := by
  obtain ⟨pos, text, e, hit, shift, -, -, -, -, hne, -⟩ := hl
  exact hne

lemma Lands.entry (hl : Lands w m h start) : ∃ e ∈ m.entries, h ∈ e.held := by
  obtain ⟨pos, text, e, hit, shift, -, he, -, hh, -, -⟩ := hl
  exact ⟨e, he, hh⟩

/-- What the second phase attaches covers words that were held of it, and what was attached
before covers its own text, with pieces rejoined. -/
lemma Carried.text {first : List Work}
    (hok : ∀ w ∈ first, ∀ p ∈ w.anchors, p.anchor.attached = true → Solid w.after p.anchor) {i : ℕ}
    {p : PlannedAnchor} (hc : Carried first m i p) (ha : p.anchor.attached = true)
    (hw : first[i]? = some w) : Solid w.after p.anchor ∧ ∃ j q, Source first m i w.after p j q := by
  induction hc with
  | stays hs =>
    obtain ⟨v, hv, hp⟩ := hs
    obtain rfl := Option.some.inj (hv.symm.trans hw)
    refine ⟨hok v (List.mem_of_getElem? hv) _ hp ha, _, _, ⟨v, hv, hp⟩, rfl,
      fun _ => ⟨rfl, le_rfl, le_rfl, .own⟩, fun hd => ?_⟩
    cases hd.symm.trans ha
  | pinned movedFrom hc hatt hv hlands hid hside hslice hmoved _ =>
    obtain rfl := Option.some.inj (hv.symm.trans hw)
    obtain ⟨hlt, hbound⟩ := solid_of_slice hlands.ne hslice
    refine ⟨⟨Nat.lt_add_of_pos_right (lenUtf16_pos hlands.ne), hlt, hbound.imp_left And.right⟩,
      _, _, hc.detached hatt, rfl, fun hq => ?_, fun _ => ?_⟩
    · cases hq.symm.trans hatt
    · obtain ⟨e, he, hh⟩ := hlands.entry
      refine ⟨_, ⟨e, he, _, hh, hid, hside, rfl⟩, ?_⟩
      rw [covers]
      exact hslice.symm ▸ .own
  | rejoined hc hv hlands hid hside hq ih =>
    obtain rfl := Option.some.inj (hv.symm.trans hw)
    obtain ⟨hslice, hpatt, horigin, -, hedge⟩ := rejoinPiece_spec hq
    obtain ⟨hsolid, j, r, hsource⟩ := ih hpatt hw
    obtain ⟨e, he, hh⟩ := hlands.entry
    obtain ⟨hqid, -⟩ := Prod.mk.inj horigin
    have hpid := hid.trans hqid.symm
    rcases hedge with ⟨rfl, hedge, hqs, hqt⟩ | ⟨rfl, hedge, hqs, hqt⟩
    · obtain ⟨hnew, hcovers⟩ := hsolid.join_head hlands.ne hslice hedge hqs hqt
      refine ⟨hnew, j, r, hsource.sits, hsource.id.trans hqid.symm, fun hr => ?_, fun hr => ?_⟩
      · obtain ⟨hj, hs, ht, hregained⟩ := hsource.attached hr
        rw [hcovers]
        exact ⟨hj, by omega, by omega, .head (hqid ▸ hregained) he hh hpid hside⟩
      · obtain ⟨words, hwords, hregained⟩ := hsource.detached hr
        rw [hcovers]
        exact ⟨words, hqid ▸ hwords, .head (hqid ▸ hregained) he hh hpid hside⟩
    · obtain ⟨hnew, hcovers⟩ := hsolid.join_tail hlands.ne hslice hedge hqs hqt
      refine ⟨hnew, j, r, hsource.sits, hsource.id.trans hqid.symm, fun hr => ?_, fun hr => ?_⟩
      · obtain ⟨hj, hs, ht, hregained⟩ := hsource.attached hr
        rw [hcovers]
        exact ⟨hj, by omega, by omega, .tail (hqid ▸ hregained) he hh hpid hside⟩
      · obtain ⟨words, hwords, hregained⟩ := hsource.detached hr
        rw [hcovers]
        exact ⟨words, hqid ▸ hwords, .tail (hqid ▸ hregained) he hh hpid hside⟩

end LibrePaper.Anchors
