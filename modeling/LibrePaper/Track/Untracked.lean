import LibrePaper.Track.Ownership

/-!
# Untracked edits

A text with pending changes is read in layers: the deleted text that stands in its gaps,
its original characters, and the characters of pending insertions. An untracked edit is a
splice of the layers. It deletes characters of both kinds, keeps all deleted text, and what
it inserts is original.
-/
namespace LibrePaper.Track
open Library List

/-- A character of a text with pending changes. -/
inductive Layer where
  | restored (fragment : Option String) (change : String) (ch : Char)
  | original (ch : Char)
  | pending (ch : Char)
deriving DecidableEq

namespace Layer

def isRestored : Layer → Bool
  | restored .. => true
  | _ => false

/-- What rejecting everything leaves of a character. -/
def rejected : Layer → Option Char
  | restored _ _ ch => some ch
  | original ch => some ch
  | pending _ => none

/-- Splits after a number of characters of the text. -/
def cut : ℕ → List Layer → List Layer × List Layer
  | 0, l => ([], l)
  | _ + 1, [] => ([], [])
  | n + 1, restored fragment change ch :: l =>
    (restored fragment change ch :: (cut (n + 1) l).1, (cut (n + 1) l).2)
  | n + 1, a :: l => (a :: (cut n l).1, (cut n l).2)

/-- Deletes the characters between two offsets, and inserts before the deleted text that
stands at the second one. -/
def strike (l : List Layer) (first last : ℕ) (insert : List Char) : List Layer :=
  let before := cut first l
  let between := cut (last - first) before.2
  before.1 ++ between.1.filter isRestored ++ insert.map original ++ between.2

/-- A run of deleted text, and the character after it. -/
lemma cut_block {block : List Layer} (hblock : ∀ a ∈ block, a.isRestored = true) {a : Layer}
    (ha : a.isRestored = false) (n : ℕ) (l : List Layer) :
    cut (n + 1) (block ++ a :: l) = (block ++ a :: (cut n l).1, (cut n l).2) := by
  induction block with
  | nil => cases a <;> first | rfl | exact absurd ha nofun
  | cons b block ih =>
    have hb := hblock b mem_cons_self
    have hrest := ih fun a ha => hblock a (mem_cons_of_mem _ ha)
    cases b with
    | restored fragment change ch => rw [cons_append, cut, hrest]; rfl
    | original | pending => exact absurd hb nofun

lemma cut_append (n : ℕ) (l : List Layer) : (cut n l).1 ++ (cut n l).2 = l := by
  induction n, l using cut.induct with
  | case1 => simp [cut]
  | case2 => rfl
  | case3 n fragment change ch l ih => exact congrArg (_ :: ·) ih
  | case4 n a l ha ih =>
    cases a with
    | restored fragment change ch => exact (ha fragment change ch rfl).elim
    | original | pending => exact congrArg (_ :: ·) ih

lemma strike_self (l : List Layer) (n : ℕ) : strike l n n [] = l := by
  rw [strike, Nat.sub_self]
  simpa [cut] using cut_append n l

/-- Striking keeps the deleted text. -/
lemma filter_strike (l : List Layer) (first last : ℕ) (insert : List Char) :
    (strike l first last insert).filter isRestored = l.filter isRestored := by
  have hinsert : (insert.map original).filter isRestored = [] :=
    filter_eq_nil_iff.2 fun a ha => by
      obtain ⟨ch, -, rfl⟩ := mem_map.1 ha
      exact Bool.false_ne_true
  have hbefore := congrArg (filter isRestored) (cut_append first l)
  have hbetween := congrArg (filter isRestored) (cut_append (last - first) (cut first l).2)
  rw [filter_append] at hbefore hbetween
  simp only [strike, filter_append, filter_filter, Bool.and_self, hinsert, append_nil]
  rw [append_assoc, hbetween, hbefore]

end Layer

/-- One edit of a batch applied to the layers in place of the characters. -/
def strikeStep (s : ℤ × List Layer) (e : Edit) : ℤ × List Layer :=
  (s.1 + e.insert.length - (e.toPos - e.fromPos),
    Layer.strike s.2 (e.fromPos + s.1).toNat (e.toPos + s.1).toNat e.insert)

/-- The deleted text of fragments, with what it belongs to. -/
def restoredText (l : List Fragment) : List Layer :=
  l.flatMap fun f => f.text.map (Layer.restored f.id f.change)

/-- The character at `p`, by its kind. -/
def standingAt (text : List Char) (rows : List Row) (p : ℕ) : List Layer :=
  text[p]?.toList.map fun ch => if Covered rows p then .pending ch else .original ch

/-- The deleted text at `p`, then the character there. -/
def layersAt (text : List Char) (rows : List Row) (gaps : List GapRow) (p : ℕ) : List Layer :=
  restoredText (fragmentsAt gaps p) ++ standingAt text rows p

/-- A text with its pending changes. -/
def layers (text : List Char) (rows : List Row) (gaps : List GapRow) : List Layer :=
  joinRange (layersAt text rows gaps) 0 (text.length + 1)

variable {text : List Char} {rows : List Row} {gaps : List GapRow}

lemma filterMap_restoredText (l : List Fragment) :
    (restoredText l).filterMap Layer.rejected = deletedText l := by
  induction l with
  | nil => rfl
  | cons f l ih =>
    simp only [restoredText, deletedText, flatMap_cons, filterMap_append] at ih ⊢
    rw [ih, filterMap_map]
    congr 1
    exact filterMap_some

lemma filterMap_standingAt (p : ℕ) :
    (standingAt text rows p).filterMap Layer.rejected = originalAt text rows p := by
  unfold standingAt originalAt
  cases text[p]? <;> split_ifs <;> rfl

/-- Rejecting everything is reading the layers without the pending insertions. -/
lemma rejectAll_eq_layers :
    rejectAll text rows gaps = (layers text rows gaps).filterMap Layer.rejected := by
  unfold rejectAll layers joinRange
  rw [filterMap_flatMap]
  refine flatMap_congr fun p _ => ?_
  rw [layersAt, filterMap_append, filterMap_restoredText, filterMap_standingAt]
  rfl

lemma isRestored_restoredText {l : List Fragment} {a : Layer} (h : a ∈ restoredText l) :
    a.isRestored = true := by
  obtain ⟨f, -, hf⟩ := mem_flatMap.1 h
  obtain ⟨ch, -, rfl⟩ := mem_map.1 hf
  rfl

lemma filter_restoredText (l : List Fragment) :
    (restoredText l).filter Layer.isRestored = restoredText l :=
  filter_eq_self.2 fun _ => isRestored_restoredText

lemma filter_standingAt (p : ℕ) : (standingAt text rows p).filter Layer.isRestored = [] := by
  unfold standingAt
  cases text[p]? <;> split_ifs <;> rfl

lemma filter_layersAt (p : ℕ) :
    (layersAt text rows gaps p).filter Layer.isRestored = restoredText (fragmentsAt gaps p) := by
  rw [layersAt, filter_append, filter_restoredText, filter_standingAt, append_nil]

/-- A position of the text holds one character, after the deleted text there. -/
lemma cut_layersAt {p : ℕ} (hp : p < text.length) (n : ℕ) (l : List Layer) :
    Layer.cut (n + 1) (layersAt text rows gaps p ++ l) =
      (layersAt text rows gaps p ++ (Layer.cut n l).1, (Layer.cut n l).2) := by
  have hstanding : ∃ a, standingAt text rows p = [a] ∧ a.isRestored = false := by
    unfold standingAt
    rw [getElem?_eq_getElem hp]
    split_ifs
    · exact ⟨_, rfl, rfl⟩
    · exact ⟨_, rfl, rfl⟩
  obtain ⟨a, ha, hkind⟩ := hstanding
  rw [layersAt, ha, append_assoc, append_assoc]
  exact Layer.cut_block (fun _ => isRestored_restoredText) hkind n l

lemma cut_layers {a k : ℕ} (h : a + k ≤ text.length) :
    Layer.cut k (joinRange (layersAt text rows gaps) a (text.length + 1)) =
      (joinRange (layersAt text rows gaps) a (a + k),
        joinRange (layersAt text rows gaps) (a + k) (text.length + 1)) := by
  induction k generalizing a with
  | zero => simp [Layer.cut]
  | succ k ih =>
    rw [joinRange_succ_left _ (by omega : a < text.length + 1), cut_layersAt (by omega),
      ih (by omega), joinRange_succ_left _ (by omega : a < a + (k + 1)),
      show a + 1 + k = a + (k + 1) by omega]

lemma joinRange_map_getElem? {α β : Type*} (f : α → β) (l : List α) :
    joinRange (fun i => l[i]?.toList.map f) 0 l.length = l.map f := by
  induction l with
  | nil => rfl
  | cons a l ih =>
    have hrest : joinRange (fun i => (a :: l)[i]?.toList.map f) 1 (l.length + 1) =
        joinRange (fun i => l[i]?.toList.map f) 0 l.length :=
      joinRange_shift (by omega) fun i _ => by
        rw [Nat.zero_add, Nat.add_comm, getElem?_cons_succ]
    rw [length_cons, joinRange_succ_left _ (Nat.succ_pos _), hrest, ih]
    rfl

@[simp] lemma restoredText_append (l l' : List Fragment) :
    restoredText (l ++ l') = restoredText l ++ restoredText l' := by simp [restoredText]

lemma restoredText_pushFragment (l : List Fragment) (f : Fragment) :
    restoredText (pushFragment l f) = restoredText l ++ restoredText [f] := by
  rcases pushFragment_cases l f with ⟨l', last, rfl, hchange, hlast, hid, h⟩ | h
  · simp [h, restoredText, hchange, hlast, hid]
  · simp [h, restoredText]

lemma restoredText_pushFragments (l ps : List Fragment) :
    restoredText (pushFragments l ps) = restoredText l ++ restoredText ps := by
  induction ps generalizing l with
  | nil => simp [pushFragments, restoredText]
  | cons f ps ih =>
    have h := ih (pushFragment l f)
    simp only [pushFragments, foldl_cons] at h ⊢
    rw [h, restoredText_pushFragment, append_assoc]
    simp [restoredText]

/-- An untracked call on rows whose ends are in order. -/
structure Call.Untracked (c : Call) : Prop where
  untracked : c.untracked = true
  fits : c.edit.Fits c.cur.length
  ordered : ∀ r ∈ c.changes, r.1.fromPos ≤ r.1.toPos

namespace Call
variable {c : Call}

lemma mine_untracked (hu : c.untracked = true) : c.mine = none := by
  rw [mine_eq_none, records, recordsChange, hu]
  rfl

lemma kept_untracked (hu : c.untracked = true) (d : ChangeRecord) :
    absorbedBy c.mine c.owned d = false := by
  rw [absorbedBy, mine_untracked hu]
  rfl

lemma out_ordered_untracked (h : c.Untracked) {y : Row} (hy : y ∈ c.out) :
    y.1.fromPos ≤ y.1.toPos := by
  have hle := h.fits.le
  rcases mem_out.1 hy with ⟨r, hr, hk⟩ | hh | ⟨m, hm, -⟩
  · have hr' := h.ordered r hr
    simp only [keepRow, kept_untracked h.untracked, Bool.false_eq_true, if_false] at hk
    split_ifs at hk <;> simp only [mem_singleton] at hk <;> subst hk <;>
      first | exact hr' | exact le_rfl | (simp only [OneEdit.shift]; omega) | (dsimp only; omega)
  · obtain ⟨r, -, hs, i, -, -, rfl⟩ := mem_splitRows hh
    simp only [splitsRow, Bool.and_eq_true, decide_eq_true_eq] at hs
    simp only [rightCopy, OneEdit.stop, OneEdit.shift]
    omega
  · rw [mine_untracked h.untracked] at hm
    cases hm

/-- An untracked edit covers nothing that was not covered. -/
lemma covered_untracked (h : c.Untracked) (q : ℕ) :
    Covered c.rows q ↔ ∃ p, c.edit.Moves p q ∧ Covered c.changes p := by
  have hrow : ∀ (r : Row) (id : String),
      ((∃ x ∈ keepRow c.edit c.mine c.owned r, x.1.covers q) ∨
        (splitsRow c.edit c.mine c.owned r = true ∧ (rightCopy c.edit id r.1).1.covers q)) ↔
      ∃ p, c.edit.Moves p q ∧ r.1.covers p := fun r id =>
    keepRow_covers h.fits.le (kept_untracked h.untracked r.1) q id
  constructor
  · rintro ⟨x, hx, hq⟩
    obtain ⟨y, hy, -, rfl⟩ := mem_rows.1 hx
    have hy' := (settled_covers (out_ordered_untracked h hy) q).1 hq
    rcases mem_out.1 hy with ⟨r, hr, hk⟩ | hh | ⟨m, hm, -⟩
    · obtain ⟨p, hm, hp⟩ := (hrow r "").1 (.inl ⟨y, hk, hy'⟩)
      exact ⟨p, hm, r, hr, hp⟩
    · obtain ⟨r, hr, hs, i, -, -, rfl⟩ := mem_splitRows hh
      obtain ⟨p, hm, hp⟩ := (hrow r _).1 (.inr ⟨hs, hy'⟩)
      exact ⟨p, hm, r, hr, hp⟩
    · rw [mine_untracked h.untracked] at hm
      exact absurd hm nofun
  · rintro ⟨p, hm, r, hr, hp⟩
    have hout : ∃ y ∈ c.out, y.1.covers q := by
      rcases (hrow r "").2 ⟨p, hm, hp⟩ with ⟨x, hx, hq⟩ | ⟨hs, hq⟩
      · exact ⟨x, mem_out.2 (.inl ⟨r, hr, hx⟩), hq⟩
      · obtain ⟨i, -, hi⟩ := splitRows_of_mem c.fresh c.made.2 hr hs
        exact ⟨_, mem_out.2 (.inr (.inl hi)), hq⟩
    obtain ⟨y, hy, hq⟩ := hout
    exact ⟨c.settled y, mem_rows.2 ⟨y, hy, liveRow_revive.2 (.inl hq.hasSpan), rfl⟩,
      (settled_covers (out_ordered_untracked h hy) q).2 hq⟩

lemma relabel_untracked (hu : c.untracked = true) (f : Fragment) :
    relabel c.mine c.owned f = f := by
  rw [mine_untracked hu]
  rfl

lemma pieces_untracked (hu : c.untracked = true) (p : ℕ) :
    c.pieces p = if c.splitAtEnd && p = c.edit.et then [] else fragmentsAt c.gaps p := by
  have horig : originalPiece c.cur c.changes c.mine c.edit p = [] := by
    rw [mine_untracked hu]
    rfl
  rw [pieces, horig, append_nil, map_congr_left fun f _ => relabel_untracked hu f, map_id']

lemma free_keepGap {e : OneEdit} (hle : e.ef ≤ e.et) (gaps : List GapRow) :
    ((gaps.filterMap (keepGap e)).filter fun g => g.1.point = e.ef) = [] := by
  refine filter_eq_nil_iff.2 fun g hg hpoint => ?_
  obtain ⟨g', -, hkeep⟩ := mem_filterMap.1 hg
  have hpoint := of_decide_eq_true hpoint
  unfold keepGap at hkeep
  split_ifs at hkeep with hbefore hafter <;> cases hkeep
  · omega
  · simp only [OneEdit.shift] at hpoint
    omega

/-- Merged fragments that find no gap make one. -/
lemma fragmentsAt_placeMerged_free {fresh : ℕ → String} {pos : ℕ} (merged : List Fragment)
    {out : List GapRow} (ids : List String) (n : ℕ)
    (hfree : (out.filter fun g => g.1.point = pos) = []) :
    fragmentsAt (placeMerged fresh pos merged out ids n).1 pos = fragmentsAt out pos ++ merged := by
  unfold placeMerged
  split
  next hnil => rw [hnil, append_nil]
  split
  next hthere => exact absurd (hfree.symm.trans hthere) nofun
  · rw [fragmentsAt_append, fragmentsAt_singleton, if_pos rfl]

/-- The gaps before the edit, the ones that merge, and the one after what is inserted. -/
lemma fragmentsAt_untracked (hu : c.untracked = true) (hle : c.edit.ef ≤ c.edit.et) (q : ℕ) :
    restoredText (fragmentsAt c.gapRows q) =
      restoredText (fragmentsAt (c.gaps.filterMap (keepGap c.edit)) q) ++
        (if q = c.edit.ef then restoredText (joinRange c.pieces c.edit.ef (c.edit.et + 1))
          else []) ++
        if q = c.edit.stop ∧ c.splitAtEnd = true then restoredText (fragmentsAt c.gaps c.edit.et)
          else [] := by
  have hmine := mine_untracked hu
  have hpos : c.pos = c.edit.ef := by rw [pos, hmine]; rfl
  have hout : c.gapsOut = c.all.1 := by
    have hgap : ∀ g ∈ c.all.1, relabelGap c.mine c.owned g = id g := fun g _ => by
      rw [hmine]
      rfl
    rw [gapsOut, map_congr_left hgap, map_id]
  have hafter : restoredText c.after = if c.splitAtEnd = true then
      restoredText (fragmentsAt c.gaps c.edit.et) else [] := by
    rw [after_eq hle, map_congr_left fun f _ => relabel_untracked hu f, map_id']
    split
    · exact restoredText_pushFragments [] _
    · rfl
  have hmerged : restoredText c.merged =
      restoredText (joinRange c.pieces c.edit.ef (c.edit.et + 1)) := by
    rw [merged_eq]
    exact restoredText_pushFragments [] _
  have hplaced : restoredText (fragmentsAt c.placed.1 q) =
      restoredText (fragmentsAt (c.gaps.filterMap (keepGap c.edit)) q) ++
        if q = c.edit.ef then restoredText c.merged else [] := by
    by_cases hq : q = c.edit.ef
    · rw [placed, hpos, hq, fragmentsAt_placeMerged_free _ _ _ (free_keepGap hle c.gaps),
        if_pos rfl, restoredText_append]
    · rw [placed, hpos, fragmentsAt_placeMerged_ne _ _ _ _ _ hq, if_neg hq, append_nil]
  have hgaps : fragmentsAt c.gapRows q = fragmentsAt c.gapsOut q := fragmentsAt_sort _ _
  rw [hgaps, hout, all, fragmentsAt_placeAfter, restoredText_append, hplaced, hmerged,
    apply_ite restoredText, hafter, ite_and]
  rfl

lemma splitAtEnd_untracked (hu : c.untracked = true) :
    c.splitAtEnd = decide (0 < c.edit.len) := by
  have howned : c.owned = [] := by rw [owned, ownedIds, hu]; rfl
  have hown : ownAtEnd c.changes c.sw c.me c.owned c.edit = false := by simp [ownAtEnd, howned]
  rw [splitAtEnd, hown, Bool.not_false, Bool.and_true]

/-- The deleted text that merges at the place of the edit. -/
lemma restoredText_pieces (hu : c.untracked = true) (hle : c.edit.ef ≤ c.edit.et) :
    restoredText (joinRange c.pieces c.edit.ef (c.edit.et + 1)) =
      joinRange (fun p => restoredText (fragmentsAt c.gaps p)) c.edit.ef c.edit.et ++
        if 0 < c.edit.len then [] else restoredText (fragmentsAt c.gaps c.edit.et) := by
  have hjoin : restoredText (joinRange c.pieces c.edit.ef (c.edit.et + 1)) =
      joinRange (fun p => restoredText (c.pieces p)) c.edit.ef (c.edit.et + 1) := by
    simp only [restoredText, joinRange, flatMap_assoc]
  rw [hjoin, joinRange_succ_right _ hle]
  congr 1
  · refine joinRange_congr fun p _ hp => ?_
    rw [pieces_untracked hu, if_neg (by simp; omega)]
  · rw [pieces_untracked hu, splitAtEnd_untracked hu]
    by_cases hlen : 0 < c.edit.len <;> simp [hlen, restoredText]

lemma standing_moves (h : c.Untracked) {p q : ℕ} (hm : c.edit.Moves p q) :
    standingAt c.text c.rows q = standingAt c.cur c.changes p := by
  have hcov : Covered c.rows q ↔ Covered c.changes p := by
    rw [covered_untracked h]
    exact ⟨fun ⟨p', hm', hp'⟩ => hm.inj h.fits.le hm' ▸ hp', fun hp => ⟨p, hm, hp⟩⟩
  simp only [standingAt, hcov, text_moves h.fits hm]

lemma standing_inserted (h : c.Untracked) {i : ℕ} (hi : i < c.edit.len) :
    standingAt c.text c.rows (c.edit.ef + i) = c.edit.insert[i]?.toList.map Layer.original := by
  have hcov : ¬ Covered c.rows (c.edit.ef + i) := by
    rw [covered_untracked h]
    rintro ⟨p, hm, -⟩
    exact hm.not_inserted h.fits.le ⟨by omega, by simp only [OneEdit.stop]; omega⟩
  have hch : c.text[c.edit.ef + i]? = c.edit.insert[i]? := by
    have hb := h.fits.bound
    have hle := h.fits.le
    unfold OneEdit.len at hi
    rw [text, splice, append_assoc, getElem?_append_right (by simp),
      length_take, min_eq_left (by omega), Nat.add_sub_cancel_left,
      getElem?_append_left hi]
  simp [standingAt, hcov, hch]

lemma layers_before (h : c.Untracked) {q : ℕ} (hq : q < c.edit.ef) :
    layersAt c.text c.rows c.gapRows q = layersAt c.cur c.changes c.gaps q := by
  have hstop : c.edit.ef ≤ c.edit.stop := Nat.le_add_right _ _
  rw [layersAt, layersAt, standing_moves h (.inl ⟨hq, rfl⟩),
    fragmentsAt_untracked h.untracked h.fits.le, fragmentsAt_keepGap h.fits.le, if_pos hq,
    if_neg (by omega), if_neg (by omega), append_nil, append_nil]

lemma layers_after (h : c.Untracked) (i : ℕ) :
    layersAt c.text c.rows c.gapRows (c.edit.stop + 1 + i) =
      layersAt c.cur c.changes c.gaps (c.edit.et + 1 + i) := by
  have hle := h.fits.le
  have hstop : c.edit.ef ≤ c.edit.stop := Nat.le_add_right _ _
  have hm : c.edit.Moves (c.edit.et + 1 + i) (c.edit.stop + 1 + i) := by
    simp only [OneEdit.Moves, OneEdit.shift, OneEdit.stop]
    omega
  have hback : c.edit.stop + 1 + i + (c.edit.et - c.edit.ef) - c.edit.len =
      c.edit.et + 1 + i := by
    simp only [OneEdit.stop]
    omega
  rw [layersAt, layersAt, standing_moves h hm, fragmentsAt_untracked h.untracked hle,
    fragmentsAt_keepGap hle, if_neg (by omega), if_pos (by omega), if_neg (by omega),
    if_neg (by omega), append_nil, append_nil, hback]

/-- The layers at the place of the edit. -/
lemma layers_stop (h : c.Untracked) :
    layersAt c.text c.rows c.gapRows c.edit.stop =
      (if c.edit.stop = c.edit.ef then
        restoredText (joinRange c.pieces c.edit.ef (c.edit.et + 1)) else []) ++
      (if 0 < c.edit.len then restoredText (fragmentsAt c.gaps c.edit.et) else []) ++
      standingAt c.cur c.changes c.edit.et := by
  have hle := h.fits.le
  have hstop : c.edit.ef ≤ c.edit.stop := Nat.le_add_right _ _
  have hm : c.edit.Moves c.edit.et c.edit.stop := by
    simp only [OneEdit.Moves, OneEdit.shift, OneEdit.stop]
    omega
  rw [layersAt, standing_moves h hm, fragmentsAt_untracked h.untracked hle,
    fragmentsAt_keepGap hle, if_neg (by omega), if_neg (by omega),
    splitAtEnd_untracked h.untracked]
  simp only [true_and, decide_eq_true_eq]
  rfl

/-- The layers from the place of the edit to the end of what it inserts. -/
lemma layers_inserted (h : c.Untracked) :
    joinRange (layersAt c.text c.rows c.gapRows) c.edit.ef c.edit.stop =
      (if 0 < c.edit.len then restoredText (joinRange c.pieces c.edit.ef (c.edit.et + 1))
        else []) ++ c.edit.insert.map Layer.original := by
  have hle := h.fits.le
  have hat : ∀ i, i < c.edit.len → layersAt c.text c.rows c.gapRows (c.edit.ef + i) =
      (if i = 0 then restoredText (joinRange c.pieces c.edit.ef (c.edit.et + 1)) else []) ++
        c.edit.insert[i]?.toList.map Layer.original := by
    intro i hi
    have hlt : c.edit.ef + i < c.edit.stop := Nat.add_lt_add_left hi _
    have hend : ¬ (c.edit.ef + i = c.edit.stop ∧ c.splitAtEnd = true) := fun h => by omega
    rw [layersAt, standing_inserted h hi, fragmentsAt_untracked h.untracked hle,
      fragmentsAt_keepGap hle, if_neg (by omega), if_neg (by omega), if_neg hend, append_nil]
    simp only [Nat.add_eq_left]
    rfl
  split
  next hlen =>
    have hstop : c.edit.ef < c.edit.stop := by simp only [OneEdit.stop]; omega
    have hzero := hat 0 hlen
    have hrest : joinRange (layersAt c.text c.rows c.gapRows) (c.edit.ef + 1) c.edit.stop =
        joinRange (fun i => c.edit.insert[i]?.toList.map Layer.original) 1 c.edit.len := by
      refine joinRange_shift (by simp only [OneEdit.stop]; omega) fun i hi => ?_
      have hi' : 1 + i < c.edit.len := by simp only [OneEdit.stop] at hi; omega
      have hone := hat (1 + i) hi'
      rw [if_neg (by omega), nil_append] at hone
      rw [Nat.add_assoc]
      exact hone
    rw [Nat.add_zero, if_pos rfl] at hzero
    rw [joinRange_succ_left _ hstop, hzero, hrest, append_assoc]
    congr 1
    exact (joinRange_succ_left _ hlen).symm.trans (joinRange_map_getElem? Layer.original _)
  next hlen =>
    have hnil : c.edit.insert = [] := length_eq_zero_iff.1 (Nat.eq_zero_of_not_pos hlen)
    have hstop : c.edit.stop = c.edit.ef := by simp only [OneEdit.stop]; omega
    rw [hstop, joinRange_self, hnil]
    rfl

lemma strike_layers (h : c.edit.Fits c.cur.length) :
    Layer.strike (layers c.cur c.changes c.gaps) c.edit.ef c.edit.et c.edit.insert =
      joinRange (layersAt c.cur c.changes c.gaps) 0 c.edit.ef ++
        joinRange (fun p => restoredText (fragmentsAt c.gaps p)) c.edit.ef c.edit.et ++
        c.edit.insert.map Layer.original ++
        joinRange (layersAt c.cur c.changes c.gaps) c.edit.et (c.cur.length + 1) := by
  have hle := h.le
  have hb := h.bound
  have hrestored : (joinRange (layersAt c.cur c.changes c.gaps) c.edit.ef c.edit.et).filter
      Layer.isRestored =
      joinRange (fun p => restoredText (fragmentsAt c.gaps p)) c.edit.ef c.edit.et := by
    unfold joinRange
    rw [filter_flatMap]
    exact flatMap_congr fun p _ => filter_layersAt p
  unfold Layer.strike layers
  dsimp only
  rw [cut_layers (by omega), Nat.zero_add, cut_layers (by omega),
    show c.edit.ef + (c.edit.et - c.edit.ef) = c.edit.et by omega, hrestored]

/-- An untracked edit strikes the layers. -/
lemma layers_untracked (h : c.Untracked) :
    layers c.text c.rows c.gapRows =
      Layer.strike (layers c.cur c.changes c.gaps) c.edit.ef c.edit.et c.edit.insert := by
  have hle := h.fits.le
  have hb := h.fits.bound
  have hlen := length_text h.fits
  have hstop : c.edit.ef ≤ c.edit.stop := Nat.le_add_right _ _
  have hbefore : joinRange (layersAt c.text c.rows c.gapRows) 0 c.edit.ef =
      joinRange (layersAt c.cur c.changes c.gaps) 0 c.edit.ef :=
    joinRange_congr fun _ _ => layers_before h
  have hafter : joinRange (layersAt c.text c.rows c.gapRows) (c.edit.stop + 1)
      (c.text.length + 1) = joinRange (layersAt c.cur c.changes c.gaps) (c.edit.et + 1)
      (c.cur.length + 1) := joinRange_shift (by omega) fun i _ => layers_after h i
  have hold : joinRange (layersAt c.cur c.changes c.gaps) c.edit.et (c.cur.length + 1) =
      restoredText (fragmentsAt c.gaps c.edit.et) ++ standingAt c.cur c.changes c.edit.et ++
        joinRange (layersAt c.cur c.changes c.gaps) (c.edit.et + 1) (c.cur.length + 1) :=
    joinRange_succ_left _ (by omega)
  have hpieces := restoredText_pieces h.untracked hle
  rw [strike_layers h.fits, hold, layers, ← joinRange_append _ (Nat.zero_le c.edit.stop) (by omega),
    ← joinRange_append _ (Nat.zero_le c.edit.ef) hstop, hbefore, layers_inserted h,
    joinRange_succ_left _ (by omega : c.edit.stop < c.text.length + 1), layers_stop h, hafter,
    hpieces]
  by_cases hins : 0 < c.edit.len
  · rw [if_pos hins, if_pos hins, if_pos hins, if_neg (by simp only [OneEdit.stop]; omega)]
    simp
  · have hnil : c.edit.insert = [] := length_eq_zero_iff.1 (Nat.eq_zero_of_not_pos hins)
    rw [if_neg hins, if_neg hins, if_neg hins, if_pos (by simp only [OneEdit.stop]; omega), hnil]
    simp

end Call

/-- A text with the pending changes of a state. -/
def FileState.layers (state : FileState) (text : List Char) : List Layer :=
  Track.layers text (keptRows state) (keptGaps state)

lemma layers_congr {rows' : List Row} {gaps' : List GapRow}
    (hrows : rows'.map Prod.fst = rows.map Prod.fst)
    (hgaps : gaps'.map Prod.fst = gaps.map Prod.fst) :
    layers text rows' gaps' = layers text rows gaps := by
  refine joinRange_congr fun p _ _ => ?_
  simp only [layersAt, standingAt, covered_congr hrows, fragmentsAt_congr hgaps]

namespace Batch
variable {b : Batch} {lo : ℕ} {p : Progress} {edit : Edit}

lemma strikeStep_eq {g : ℤ × List Layer} (hs : b.Sound lo p) (hlo : lo ≤ edit.fromPos)
    (hle : edit.fromPos ≤ edit.toPos) (hadj : g.1 = p.adj) :
    strikeStep g edit = ((b.next p edit).adj, Layer.strike g.2 (b.call p edit).edit.ef
      (b.call p edit).edit.et (b.call p edit).edit.insert) := by
  have h1 := hs.reached
  simp only [strikeStep, hadj, Batch.next, call, OneEdit.len, Prod.mk.injEq, and_true]
  omega

lemma strikeStep_skip {g : ℤ × List Layer} (hs : b.Sound lo p) (hlo : lo ≤ edit.fromPos)
    (hle : edit.fromPos ≤ edit.toPos) (hadj : g.1 = p.adj)
    (hskip : (b.call p edit).edit.ef = (b.call p edit).edit.et ∧ edit.insert = []) :
    strikeStep g edit = g := by
  have h1 := hs.reached
  obtain ⟨heq, hins⟩ := hskip
  simp only [call] at heq
  have hft : edit.fromPos = edit.toPos := by omega
  obtain ⟨a, l⟩ := g
  simp only [strikeStep, hins, hft, Layer.strike_self, Prod.mk.injEq, and_true, length_nil]
  omega

lemma Sound.untracked (hs : b.Sound lo p) (hu : b.untracked = true) (hlo : lo ≤ edit.fromPos)
    (hle : edit.fromPos ≤ edit.toPos) (hb : edit.toPos ≤ b.before.length) :
    (b.call p edit).Untracked :=
  ⟨hu, (hs.ready hlo hle hb).fits, (hs.ready hlo hle hb).valid.ordered⟩

/-- An untracked batch strikes the layers, edit by edit. -/
lemma Ready.layers (h : b.Ready) (hu : b.untracked = true) :
    Track.layers b.text b.plan.liveChanges b.plan.liveGaps =
      (b.edits.foldl strikeStep (0, b.state.layers b.before)).2 := by
  obtain ⟨-, -, hlayers⟩ := Sound.fold
    (motive := fun _ g p => g.1 = p.adj ∧ g.2 = Track.layers p.cur p.changes p.gaps) strikeStep
    (fun lo g p edit hs hlo hle hb hm => by
      rw [step_eq]
      split
      next hskip =>
        rw [strikeStep_skip hs hlo hle hm.1 hskip]
        exact hm
      · rw [strikeStep_eq hs hlo hle hm.1, hm.2]
        exact ⟨rfl, (Call.layers_untracked (hs.untracked hu hlo hle hb)).symm⟩)
    h.fits h.start (g := (0, b.state.layers b.before)) ⟨rfl, rfl⟩
  exact (layers_congr h.live.1 h.live.2).trans hlayers.symm

/-- What an untracked batch inserts is not pending. -/
lemma Ready.inserted_original (h : b.Ready) (hu : b.untracked = true) {j : ℕ}
    (hj : b.origins[j]? = some none) : ¬ Covered b.plan.liveChanges j := by
  obtain ⟨-, -, -, hcovered⟩ := Sound.fold
    (motive := fun _ g p => g.1 = p.adj ∧ g.2.length = p.cur.length ∧
      ∀ k, g.2[k]? = some none → ¬ Covered p.changes k) originStep
    (fun lo g p edit hs hlo hle hb hm => by
      obtain ⟨hadj, hlength, hnone⟩ := hm
      have huntracked := hs.untracked hu hlo hle hb
      have hfits : (b.call p edit).edit.Fits g.2.length := hlength ▸ huntracked.fits
      rw [step_eq]
      split
      next hskip =>
        rw [originStep_skip hs hlo hle hadj hskip]
        exact ⟨hadj, hlength, hnone⟩
      · rw [originStep_eq hs hlo hle hadj]
        refine ⟨rfl, ?_, fun q hq hcov => ?_⟩
        · have hlen := Call.length_text huntracked.fits
          have hcur : (b.call p edit).cur = p.cur := rfl
          rw [length_splice _ _ _ _ hfits.le hfits.bound, length_replicate, hlength]
          rw [hcur] at hlen
          exact hlen.symm
        · obtain ⟨k, hm, hk⟩ := (Call.covered_untracked huntracked q).1 hcov
          refine hnone k ?_ hk
          rw [← splice_moves hfits hm]
          exact hq)
    h.fits h.start (g := (0, (range b.before.length).map some))
    ⟨rfl, by simp [Batch.start, startProgress], fun k hk => by simp at hk⟩
  rw [covered_congr h.live.1]
  exact hcovered j hj

lemma Ready.ownership_untracked (h : b.Ready) (hu : b.untracked = true) : b.OwnershipKept := by
  refine h.ownership_kept fun pre edit post _ d ht _ _ _ _ => ?_
  have htracked := (recordsChange_iff.1 ht.1).1
  exact absurd (hu.symm.trans htracked) nofun

end Batch

/-- The layers before a batch, struck edit by edit. -/
def Batch.struck (b : Batch) : List Layer :=
  (b.edits.foldl strikeStep (0, b.state.layers b.before)).2

lemma filter_strikeStep (edits : List Edit) (g : ℤ × List Layer) :
    (edits.foldl strikeStep g).2.filter Layer.isRestored = g.2.filter Layer.isRestored := by
  induction edits generalizing g with
  | nil => rfl
  | cons edit edits ih =>
    rw [foldl_cons, ih, strikeStep]
    exact Layer.filter_strike ..

/-- An untracked batch strikes the layers of the text, edit by edit: original characters and
characters of pending insertions are deleted, deleted text stays in its order, and what the
batch inserts is original, also between two characters of a pending insertion, which is split
there. Nobody's span takes anything, and a surviving character stays in the span that held
it, or in a copy of it. -/
theorem untracked_batch (b : Batch) (hvalid : b.state.Valid b.before.length)
    (hfresh : Fresh b.fresh b.taken (keptRows b.state))
    (hfits : FitsFrom 0 b.before.length b.edits) (hu : b.untracked = true) :
    layers b.text b.plan.liveChanges b.plan.liveGaps = b.struck ∧
      rejectAll b.text b.plan.liveChanges b.plan.liveGaps = b.struck.filterMap Layer.rejected ∧
      b.struck.filter Layer.isRestored = (b.state.layers b.before).filter Layer.isRestored ∧
      b.OwnershipKept ∧
      ∀ j, b.origins[j]? = some none → ¬ Covered b.plan.liveChanges j := by
  have hready : b.Ready := ⟨hvalid, hfresh, hfits⟩
  have hlayers := hready.layers hu
  refine ⟨hlayers, ?_, filter_strikeStep b.edits _, hready.ownership_untracked hu,
    fun j => hready.inserted_original hu⟩
  rw [rejectAll_eq_layers, hlayers]
  rfl

/-- An author types into a text. -/
def sampleTypist : Batch where
  fresh := names
  before := "xy".toList
  state := noChanges
  edits := [⟨1, 1, "ab".toList⟩]
  me := ⟨"u1", "Ann"⟩
  run := none
  now := 1
  untracked := false
  taken := 0

/-- An untracked edit inserts between two characters that are pending. -/
def sampleInside : Batch where
  fresh := names
  before := "xaby".toList
  state := sampleTypist.plan.storedAs "f"
  edits := [⟨2, 2, "Z".toList⟩]
  me := ⟨"", ""⟩
  run := none
  now := 0
  untracked := true
  taken := 1

lemma sampleInside_valid : sampleInside.state.Valid 4 :=
  (ReadBack.storedAs _ "f").valid
    (Batch.Ready.plan_valid (b := sampleTypist) ⟨noChanges_valid 2, names_fresh 0, by decide⟩)

lemma sampleInside_fresh : Fresh names 1 (keptRows sampleInside.state) :=
  names_new [0] (by decide) (by decide)

/-- An insertion inside a pending span adds to what rejecting everything leaves. -/
theorem insertion_inside_span :
    ¬ ∀ b : Batch, b.state.Valid b.before.length → Fresh b.fresh b.taken (keptRows b.state) →
      FitsFrom 0 b.before.length b.edits → b.untracked = true →
      (∀ e ∈ b.edits, e.fromPos = e.toPos ∧
        ∃ c ∈ b.state.changes, c.fromPos < e.fromPos ∧ e.fromPos < c.toPos) →
      rejectAll b.text b.plan.liveChanges b.plan.liveGaps = b.state.rejectAll b.before := by
  intro h
  have hsame := h sampleInside sampleInside_valid sampleInside_fresh (by decide) rfl (by decide)
  exact absurd hsame (by decide)

theorem untracked_batch_inside :
    rejectAll sampleInside.text sampleInside.plan.liveChanges sampleInside.plan.liveGaps =
      "xZy".toList :=
  (untracked_batch sampleInside sampleInside_valid sampleInside_fresh (by decide) rfl).2.1.trans
    (by decide)

end LibrePaper.Track
