import LibrePaper.Track.Runs

/-!
# Rejecting everything

The reject-all view of a file is the text it would have if every pending change were
rejected: each gap's fragments are put back at its position, and the characters of
pending insertions are left out. Tracked edits do not change it, since an original
character that an edit removes moves into a gap, in its place among the others.
-/
namespace LibrePaper.Track
open Library List Option

/-- The character at `p`, unless a pending change inserted it. -/
def originalAt (text : List Char) (rows : List Row) (p : ℕ) : List Char :=
  if Covered rows p then [] else text[p]?.toList

/-- What rejecting everything leaves at the position `p`. -/
def rejectedAt (text : List Char) (rows : List Row) (gaps : List GapRow) (p : ℕ) : List Char :=
  deletedText (fragmentsAt gaps p) ++ originalAt text rows p

/-- The text with every pending change rejected. -/
def rejectAll (text : List Char) (rows : List Row) (gaps : List GapRow) : List Char :=
  joinRange (rejectedAt text rows gaps) 0 (text.length + 1)

variable {text : List Char} {rows rows' : List Row} {p : ℕ} {plan : Plan} {state : FileState}

lemma originalAt_covered (h : Covered rows p) : originalAt text rows p = [] := if_pos h

lemma deletedText_joinRange (f : ℕ → List Fragment) (a b : ℕ) :
    deletedText (joinRange f a b) = joinRange (fun p => deletedText (f p)) a b := by
  simp only [deletedText, joinRange, flatMap_assoc]

namespace Call
variable {c : Call}

/-- Settling changes no coverage. -/
lemma Ready.covered_rows (h : c.Ready) (q : ℕ) : Covered c.rows q ↔ Covered c.out q := by
  constructor
  · rintro ⟨x, hx, hq⟩
    obtain ⟨y, hy, -, rfl⟩ := mem_rows.1 hx
    exact ⟨y, hy, (settled_covers (h.out_ordered hy) q).1 hq⟩
  · rintro ⟨y, hy, hq⟩
    exact ⟨c.settled y, mem_rows.2 ⟨y, hy, liveRow_revive.2 (.inl hq.hasSpan), rfl⟩,
      (settled_covers (h.out_ordered hy) q).2 hq⟩

variable {q : ℕ}

lemma text_moves (h : c.edit.Fits c.cur.length) (hm : c.edit.Moves p q) :
    c.text[q]? = c.cur[p]? := by
  rcases hm with ⟨hp, rfl⟩ | ⟨hp, rfl⟩
  · exact getElem?_splice_left hp (h.le.trans h.bound)
  · exact getElem?_splice_right hp h.le (h.le.trans h.bound)

/-- A survivor is original text after the edit exactly when it was before. -/
lemma Ready.original_moves (h : c.Ready) (hm : c.edit.Moves p q) :
    originalAt c.text c.rows q = originalAt c.cur c.changes p := by
  have hcov : Covered c.rows q ↔ Covered c.changes p := by
    rw [h.covered_rows, covered_out h.ids h.fits.le]
    constructor
    · rintro (⟨-, hi⟩ | ⟨p', hm', hp'⟩)
      · exact (hm.not_inserted h.fits.le hi).elim
      · exact hm.inj h.fits.le hm' ▸ hp'
    · exact fun hp => .inr ⟨p, hm, hp⟩
  simp only [originalAt, hcov, text_moves h.fits hm]

lemma Ready.original_inserted (h : c.Ready) (hu : c.untracked = false) (h1 : c.edit.ef ≤ q)
    (h2 : q < c.edit.stop) : originalAt c.text c.rows q = [] := by
  refine originalAt_covered ?_
  rw [h.covered_rows, covered_out h.ids h.fits.le]
  refine .inl ⟨recordsChange_iff.2 ⟨hu, .inr ?_⟩, h1, h2⟩
  simp only [OneEdit.stop] at h2
  omega

lemma deletedText_gapRows (he : c.edit.ef ≤ c.edit.et) (q : ℕ) :
    deletedText (fragmentsAt c.gapRows q) =
      deletedText (fragmentsAt (c.gaps.filterMap (keepGap c.edit)) q) ++
        (if q = c.pos then deletedText (joinRange c.pieces c.edit.ef (c.edit.et + 1)) else []) ++
        if q = c.edit.stop ∧ c.splitAtEnd = true then deletedText (fragmentsAt c.gaps c.edit.et)
          else [] := by
  rw [(gapRows_regrouped he q).text, layout, deletedText_append, deletedText_append,
    deletedText_relabel, apply_ite deletedText, apply_ite deletedText, deletedText_nil,
    deletedText_relabel]

/-- The pieces that merge hold what rejecting everything left at their position, except
for the text that comes after the insertion. -/
lemma Ready.pieces_text (h : c.Ready) (hu : c.untracked = false) :
    deletedText (joinRange c.pieces c.edit.ef (c.edit.et + 1)) ++
        (if c.splitAtEnd = true then deletedText (fragmentsAt c.gaps c.edit.et) else []) =
      joinRange (rejectedAt c.cur c.changes c.gaps) c.edit.ef c.edit.et ++
        deletedText (fragmentsAt c.gaps c.edit.et) := by
  have hbefore : ∀ p, c.edit.ef ≤ p → p < c.edit.et →
      deletedText (c.pieces p) = rejectedAt c.cur c.changes c.gaps p := by
    intro p h1 h2
    rw [pieces, if_neg (by simp; omega), deletedText_append, deletedText_relabel, rejectedAt]
    congr 1
    unfold originalPiece originalAt
    by_cases hc : Covered c.changes p
    · simp only [spanEndAt_eq_none, hc, not_true_eq_false, and_false, if_false, if_true]
      split <;> rfl
    · have hrec : c.records = true := recordsChange_iff.2 ⟨hu, .inl ⟨p, h1, h2, hc⟩⟩
      obtain ⟨m, hm⟩ : ∃ m, c.mine = some m := by rw [← isSome_iff_exists, mine_isSome, hrec]
      cases hch : c.cur[p]? <;> simp [hm, hc, h2, deletedText, spanEndAt_eq_none]
  have hat : deletedText (c.pieces c.edit.et) ++
      (if c.splitAtEnd = true then deletedText (fragmentsAt c.gaps c.edit.et) else []) =
      deletedText (fragmentsAt c.gaps c.edit.et) := by
    have horig : originalPiece c.cur c.changes c.mine c.edit c.edit.et = [] := by
      unfold originalPiece
      split
      · simp
      · rfl
    rw [pieces, horig, append_nil]
    cases c.splitAtEnd <;> simp
  rw [deletedText_joinRange, joinRange_succ_right _ h.fits.le, append_assoc, hat,
    joinRange_congr hbefore]

/-- Between the place of the merged gap and the edit lies only the edit's own span. -/
lemma Ready.between (h : c.Ready) (h1 : c.pos ≤ p) (h2 : p < c.edit.ef) :
    Covered c.changes p ∧ (c.pos < p → fragmentsAt c.gaps p = []) := by
  cases hm : c.mine with
  | none =>
    simp only [pos, hm, map_none, getD_none] at h1
    omega
  | some m =>
    obtain ⟨-, -, -, hf, -⟩ := mine_spec h.ids hm
    have hposm : c.pos = widenFrom c.changes c.owned c.edit := by simp [pos, hm, hf]
    rcases (widenFrom_le h.ids).1 (hposm ▸ h1) with hge | ⟨-, d, hd, hdf⟩
    · omega
    obtain ⟨⟨s, hs⟩, -, -, -, hdt⟩ := firstSpan_spec hd
    have hcov : d.covers p := ⟨hdf, by omega⟩
    refine ⟨⟨(d, s), hs, hcov⟩, fun hlt => fragmentsAt_eq_nil fun hg => ?_⟩
    refine h.valid.outside p hg (d, s) hs ⟨?_, hcov.2⟩
    have hle := (widenFrom_le (p := c.pos) h.ids).1 hposm.ge
    rcases hle with hge | ⟨-, d', hd', hdf'⟩
    · omega
    · rw [hd, some.injEq] at hd'
      subst hd'
      exact lt_of_le_of_lt hdf' hlt

/-! The layout of the new text around the edit. -/

lemma Ready.rejected_before (h : c.Ready) (hq : q < c.pos) :
    rejectedAt c.text c.rows c.gapRows q = rejectedAt c.cur c.changes c.gaps q := by
  have hpos := pos_le (c := c)
  have hstop : c.edit.ef ≤ c.edit.stop := Nat.le_add_right _ _
  have hsame := h.original_moves (p := q) (q := q) (.inl ⟨by omega, rfl⟩)
  rw [rejectedAt, rejectedAt, hsame, deletedText_gapRows h.fits.le,
    fragmentsAt_keepGap h.fits.le, if_pos (by omega), if_neg (by omega), if_neg (by omega),
    append_nil, append_nil]

lemma Ready.rejected_after (h : c.Ready) (i : ℕ) :
    rejectedAt c.text c.rows c.gapRows (c.edit.stop + 1 + i) =
      rejectedAt c.cur c.changes c.gaps (c.edit.et + 1 + i) := by
  have hpos := pos_le (c := c)
  have hle := h.fits.le
  have hstop : c.edit.ef ≤ c.edit.stop := Nat.le_add_right _ _
  have hm : c.edit.Moves (c.edit.et + 1 + i) (c.edit.stop + 1 + i) := by
    simp only [OneEdit.Moves, OneEdit.shift, OneEdit.stop]
    omega
  have hback : c.edit.stop + 1 + i + (c.edit.et - c.edit.ef) - c.edit.len =
      c.edit.et + 1 + i := by
    simp only [OneEdit.stop]
    omega
  rw [rejectedAt, rejectedAt, h.original_moves hm, deletedText_gapRows hle,
    fragmentsAt_keepGap hle, if_neg (by omega), if_pos (by omega), if_neg (by omega),
    if_neg (by omega), append_nil, append_nil, hback]

lemma Ready.rejected_stop (h : c.Ready) :
    rejectedAt c.text c.rows c.gapRows c.edit.stop =
      (if c.edit.stop = c.pos then deletedText (joinRange c.pieces c.edit.ef (c.edit.et + 1))
        else []) ++
      (if c.splitAtEnd = true then deletedText (fragmentsAt c.gaps c.edit.et) else []) ++
      originalAt c.cur c.changes c.edit.et := by
  have hle := h.fits.le
  have hstop : c.edit.ef ≤ c.edit.stop := Nat.le_add_right _ _
  have hm : c.edit.Moves c.edit.et c.edit.stop := by
    simp only [OneEdit.Moves, OneEdit.shift, OneEdit.stop]
    omega
  rw [rejectedAt, h.original_moves hm, deletedText_gapRows hle, fragmentsAt_keepGap hle,
    if_neg (by omega), if_neg (by omega)]
  simp

/-- Inside the edit's own span nothing original is left. -/
lemma Ready.rejected_inside (h : c.Ready) (hu : c.untracked = false) (h1 : c.pos < q)
    (h2 : q < c.edit.stop) : rejectedAt c.text c.rows c.gapRows q = [] := by
  have hle := h.fits.le
  rw [rejectedAt, deletedText_gapRows hle, if_neg (by omega), if_neg (by omega),
    fragmentsAt_keepGap hle]
  by_cases hq : q < c.edit.ef
  · obtain ⟨hcov, hnil⟩ := h.between h1.le hq
    rw [if_pos hq, hnil h1, h.original_moves (p := q) (.inl ⟨hq, rfl⟩), originalAt_covered hcov]
    rfl
  · rw [if_neg hq, if_neg (by omega), h.original_inserted hu (by omega) h2]
    rfl

lemma Ready.rejected_pos (h : c.Ready) (hu : c.untracked = false) (hlt : c.pos < c.edit.stop) :
    rejectedAt c.text c.rows c.gapRows c.pos =
      (if c.pos < c.edit.ef then rejectedAt c.cur c.changes c.gaps c.pos else []) ++
        deletedText (joinRange c.pieces c.edit.ef (c.edit.et + 1)) := by
  have hle := h.fits.le
  have hpos := pos_le (c := c)
  rw [rejectedAt, deletedText_gapRows hle, if_pos rfl, if_neg (by omega),
    fragmentsAt_keepGap hle, append_nil]
  by_cases hq : c.pos < c.edit.ef
  · obtain ⟨hcov, -⟩ := h.between le_rfl hq
    rw [if_pos hq, if_pos hq, h.original_moves (p := c.pos) (.inl ⟨hq, rfl⟩), rejectedAt,
      originalAt_covered hcov, append_nil, append_nil]
  · rw [if_neg hq, if_neg (by omega), if_neg hq, h.original_inserted hu (by omega) hlt,
      append_nil]
    rfl

/-- The merged text follows what stood at the place of the merged gap. -/
lemma Ready.rejected_middle (h : c.Ready) (hu : c.untracked = false) :
    joinRange (rejectedAt c.text c.rows c.gapRows) c.pos c.edit.stop ++
        (if c.edit.stop = c.pos then deletedText (joinRange c.pieces c.edit.ef (c.edit.et + 1))
          else []) =
      joinRange (rejectedAt c.cur c.changes c.gaps) c.pos c.edit.ef ++
        deletedText (joinRange c.pieces c.edit.ef (c.edit.et + 1)) := by
  have hpos := pos_le (c := c)
  have hstop : c.edit.ef ≤ c.edit.stop := Nat.le_add_right _ _
  rcases hpos.lt_or_eq with hlt | heq
  · have hold : joinRange (rejectedAt c.cur c.changes c.gaps) (c.pos + 1) c.edit.ef = [] := by
      refine joinRange_eq_nil fun p h1 h2 => ?_
      obtain ⟨hcov, hnil⟩ := h.between (p := p) (by omega) h2
      rw [rejectedAt, hnil (by omega), originalAt_covered hcov]
      rfl
    have hnew : joinRange (rejectedAt c.text c.rows c.gapRows) (c.pos + 1) c.edit.stop = [] :=
      joinRange_eq_nil fun _ _ => h.rejected_inside hu (by omega)
    rw [joinRange_succ_left _ hlt, joinRange_succ_left _ (hlt.trans_le hstop), hold, hnew,
      h.rejected_pos hu (by omega), if_pos hlt, if_neg (by omega)]
    simp
  · rcases hstop.lt_or_eq with hlt | heq'
    · have hnew : joinRange (rejectedAt c.text c.rows c.gapRows) (c.pos + 1) c.edit.stop = [] :=
        joinRange_eq_nil fun _ _ => h.rejected_inside hu (by omega)
      rw [joinRange_succ_left _ (by omega), hnew, h.rejected_pos hu (by omega),
        if_neg (by omega), if_neg (by omega), heq]
      simp
    · rw [← heq', heq]
      simp

/-- One tracked edit keeps the reject-all view. -/
lemma Ready.rejectAll (h : c.Ready) (hu : c.untracked = false) :
    rejectAll c.text c.rows c.gapRows = rejectAll c.cur c.changes c.gaps := by
  have hpos := pos_le (c := c)
  have hle := h.fits.le
  have hb := h.fits.bound
  have hlen := length_text h.fits
  have hstop : c.edit.ef ≤ c.edit.stop := Nat.le_add_right _ _
  have hbefore : joinRange (rejectedAt c.text c.rows c.gapRows) 0 c.pos =
      joinRange (rejectedAt c.cur c.changes c.gaps) 0 c.pos :=
    joinRange_congr fun _ _ => h.rejected_before
  have hafter : joinRange (rejectedAt c.text c.rows c.gapRows) (c.edit.stop + 1)
      (c.text.length + 1) = joinRange (rejectedAt c.cur c.changes c.gaps) (c.edit.et + 1)
      (c.cur.length + 1) := joinRange_shift (by omega) fun i _ => h.rejected_after i
  have hmiddle := h.rejected_middle hu
  have hpieces := h.pieces_text hu
  have hsplit : ∀ (f : ℕ → List Char) {a b d n : ℕ}, a ≤ b → b ≤ d → d < n →
      joinRange f 0 n = joinRange f 0 a ++ joinRange f a b ++ joinRange f b d ++ f d ++
        joinRange f (d + 1) n := by
    intro f a b d n h1 h2 h3
    rw [← joinRange_append f (Nat.zero_le d) (by omega : d ≤ n), joinRange_succ_left f h3,
      ← joinRange_append f (Nat.zero_le b) h2, ← joinRange_append f (Nat.zero_le a) h1]
    simp
  unfold Track.rejectAll
  have hnew := hsplit (rejectedAt c.text c.rows c.gapRows) (hpos.trans hstop) le_rfl
    (n := c.text.length + 1) (by omega)
  have hold := hsplit (rejectedAt c.cur c.changes c.gaps) hpos hle (n := c.cur.length + 1)
    (by omega)
  rw [hnew, hold, hbefore, hafter, h.rejected_stop, joinRange_self, append_nil]
  congr 1
  calc _ = joinRange (rejectedAt c.cur c.changes c.gaps) 0 c.pos ++
        (joinRange (rejectedAt c.text c.rows c.gapRows) c.pos c.edit.stop ++
          (if c.edit.stop = c.pos then
            deletedText (joinRange c.pieces c.edit.ef (c.edit.et + 1)) else [])) ++
        (if c.splitAtEnd = true then deletedText (fragmentsAt c.gaps c.edit.et) else []) ++
        originalAt c.cur c.changes c.edit.et := by
        simp
    _ = joinRange (rejectedAt c.cur c.changes c.gaps) 0 c.pos ++
        joinRange (rejectedAt c.cur c.changes c.gaps) c.pos c.edit.ef ++
        (joinRange (rejectedAt c.cur c.changes c.gaps) c.edit.ef c.edit.et ++
          deletedText (fragmentsAt c.gaps c.edit.et)) ++
        originalAt c.cur c.changes c.edit.et := by
        rw [hmiddle, ← hpieces]
        simp
    _ = _ := by
        rw [rejectedAt]
        simp

end Call

lemma covered_congr (h : rows'.map Prod.fst = rows.map Prod.fst) (p : ℕ) :
    Covered rows' p ↔ Covered rows p := by
  have key : ∀ rs : List Row, Covered rs p ↔ ∃ c ∈ rs.map Prod.fst, c.covers p := by
    intro rs
    simp [Covered]
  rw [key, key, h]

lemma rejectAll_congr {gaps gaps' : List GapRow} (hcov : ∀ p, Covered rows' p ↔ Covered rows p)
    (hgaps : ∀ p, deletedText (fragmentsAt gaps' p) = deletedText (fragmentsAt gaps p)) :
    rejectAll text rows' gaps' = rejectAll text rows gaps := by
  refine joinRange_congr fun p _ _ => ?_
  simp only [rejectedAt, originalAt, hcov, hgaps]

/-- The text with every pending change of the state rejected. -/
def FileState.rejectAll (state : FileState) (text : List Char) : List Char :=
  Track.rejectAll text (keptRows state) (keptGaps state)

lemma Batch.Ready.rejectAll {b : Batch} (h : b.Ready) (hu : b.untracked = false) :
    rejectAll b.text b.plan.liveChanges b.plan.liveGaps = b.state.rejectAll b.before := by
  have hlive : Track.rejectAll b.text b.plan.liveChanges b.plan.liveGaps =
      Track.rejectAll b.loop.cur b.loop.changes b.loop.gaps :=
    rejectAll_congr (covered_congr h.live.1) fun p => by rw [fragmentsAt_congr h.live.2]
  rw [hlive]
  exact (h.induct (motive := fun p => Track.rejectAll p.cur p.changes p.gaps =
    b.state.rejectAll b.before) rfl fun p edit hr hp => (hr.rejectAll hu).trans hp).1

/-- Storing a plan whose emptied rows have no span keeps its reject-all view. -/
lemma ReadBack.rejectAll_of_emptied (h : ReadBack plan state)
    (hemptied : ∀ r ∈ plan.liveChanges, r.1.emptied = true → hasSpan r.1 = false) (text : List Char) :
    state.rejectAll text = Track.rejectAll text plan.liveChanges plan.liveGaps := by
  refine rejectAll_congr (fun p => ?_) fun p => ?_
  · constructor
    · rintro ⟨r', hr', hp⟩
      obtain ⟨r, hr, -, he⟩ := h.rows.1 r' hr'
      exact ⟨r, hr, ((samePlace he).covers p).1 hp⟩
    · rintro ⟨r, hr, hp⟩
      have hem : r.1.emptied = false := by
        by_contra hne
        have hs := hemptied r hr (by simpa using hne)
        rw [hp.hasSpan] at hs
        simp at hs
      obtain ⟨r', hr', he⟩ := h.rows.2 r hr hem
      exact ⟨r', hr', ((samePlace he).covers p).2 hp⟩
  · have htext := forall₂_map_eq (f := Fragment.text) (g := Fragment.text)
      (fun _ _ h => h.2.1) (h.fragmentsAt p)
    simp only [deletedText, flatMap_def, htext]

lemma ReadBack.rejectAll {n : ℕ} (h : ReadBack plan state)
    (hv : Valid n plan.liveChanges plan.liveGaps) (text : List Char) :
    state.rejectAll text = Track.rejectAll text plan.liveChanges plan.liveGaps :=
  h.rejectAll_of_emptied hv.emptied text

lemma BatchRun.rejectAll {text' : List Char} {state' : FileState}
    (hrun : BatchRun true (text, state) (text', state')) (h : state.Valid text.length) :
    state'.rejectAll text' = state.rejectAll text := by
  suffices key : ∀ x y, BatchRun true x y → x.2.Valid x.1.length →
      y.2.Valid y.1.length ∧ y.2.rejectAll y.1 = x.2.rejectAll x.1 from (key _ _ hrun h).2
  intro x y hxy hx
  induction hxy with
  | refl => exact ⟨hx, rfl⟩
  | tail _ hstep ih =>
    cases hstep with
    | plan b state hfits hfresh htracked hread =>
      have hready : b.Ready := ⟨ih.1, hfresh, hfits⟩
      refine ⟨hread.valid hready.plan_valid, ?_⟩
      rw [hread.rejectAll hready.plan_valid, hready.rejectAll (htracked rfl)]
      exact ih.2

/-- Tracked edits keep the reject-all view: over one batch from any valid state, and over
any run of batches by any authors. -/
theorem rejectAll_preserved :
    (∀ b : Batch, b.state.Valid b.before.length → Fresh b.fresh b.taken (keptRows b.state) →
      FitsFrom 0 b.before.length b.edits → b.untracked = false →
      Track.rejectAll b.text b.plan.liveChanges b.plan.liveGaps = b.state.rejectAll b.before) ∧
    ∀ text text' state state', FileState.Valid text.length state →
      BatchRun true (text, state) (text', state') →
      state'.rejectAll text' = state.rejectAll text :=
  ⟨fun _ hv hf hfit => Batch.Ready.rejectAll ⟨hv, hf, hfit⟩,
    fun _ _ _ _ hv hrun => hrun.rejectAll hv⟩

theorem rejectAll_preserved_replace :
    Track.rejectAll sampleReplace.text sampleReplace.plan.liveChanges
        sampleReplace.plan.liveGaps = "abcd".toList ∧
      (sampleReplace.plan.storedAs "f").rejectAll sampleReplace.text =
        noChanges.rejectAll "abcd".toList :=
  ⟨(rejectAll_preserved.1 sampleReplace (noChanges_valid 4) (names_fresh 0)
      (by decide) rfl).trans (by decide),
    rejectAll_preserved.2 _ _ _ _ (noChanges_valid 4) (Relation.ReflTransGen.single
      (.plan sampleReplace _ (by decide) (names_fresh 0) (fun _ => rfl) (ReadBack.storedAs _ "f")))⟩

end LibrePaper.Track
