import LibrePaper.Track.Runs

/-!
# Stored fragments

A plan keeps every stored fragment: it may move to another gap and to the change its
owner merged into, and nothing else happens to it. Nor does a plan drop a change row.
-/
namespace LibrePaper.Track
open Library List

/-- The fragment under another owner. -/
def reown (ρ : String → String) (f : Fragment) : Fragment := { f with change := ρ f.change }

/-- The fragments of the gaps, in their order. -/
def allFragments (gaps : List GapRow) : List Fragment := gaps.flatMap fun g => g.1.fragments

variable {gaps : List GapRow} {n : ℕ} {l : List Fragment} {b : Batch}

lemma allFragments_perm (h : ∀ q ∈ points gaps, q ≤ n) :
    (allFragments gaps).Perm (joinRange (fragmentsAt gaps) 0 (n + 1)) := by
  have hp := flatMap_filter_key_perm (fun g : GapRow => g.1.point) gaps 0 (n + 1)
  have hall : gaps.filter (fun g => decide (0 ≤ g.1.point) && decide (g.1.point < 0 + (n + 1))) =
      gaps := by
    rw [filter_eq_self]
    intro g hg
    have := h g.1.point (mem_points.2 ⟨g, hg, rfl⟩)
    simp
    omega
  rw [hall] at hp
  refine (hp.symm.flatMap_right _).trans (Perm.of_eq ?_)
  rw [flatMap_assoc]
  rfl

lemma stored_perm {l' : List Fragment} (h : l.Perm l') : (stored l).Perm (stored l') :=
  (h.filter _).map _

lemma stored_joinRange (f : ℕ → List Fragment) (a b : ℕ) :
    stored (joinRange f a b) = joinRange (fun p => stored (f p)) a b := by
  simp only [joinRange, stored_flatMap]

lemma allFragments_stored (h : ∀ q ∈ points gaps, q ≤ n) :
    (stored (allFragments gaps)).Perm
      (joinRange (fun p => stored (fragmentsAt gaps p)) 0 (n + 1)) := by
  rw [← stored_joinRange]
  exact stored_perm (allFragments_perm h)

namespace Call
variable {c : Call}

/-- Who owns the fragments of a change after the edit. -/
def owner (c : Call) : String → String := newOwner c.mine c.owned

lemma stored_originalPiece (c : Call) (p : ℕ) :
    stored (originalPiece c.cur c.changes c.mine c.edit p) = [] := by
  unfold originalPiece
  split
  · split <;> rfl
  · rfl

lemma stored_pieces (p : ℕ) : stored (c.pieces p) =
    if c.splitAtEnd && p = c.edit.et then []
    else (stored (fragmentsAt c.gaps p)).map (reown c.owner) := by
  rw [pieces, stored_append, stored_originalPiece, append_nil, apply_ite stored,
    stored_nil, stored_relabel]
  rfl

lemma stored_gapRows (he : c.edit.ef ≤ c.edit.et) (q : ℕ) :
    stored (fragmentsAt c.gapRows q) =
      (stored (fragmentsAt (c.gaps.filterMap (keepGap c.edit)) q)).map (reown c.owner) ++
        (if q = c.pos then
          joinRange (fun p => stored (c.pieces p)) c.edit.ef (c.edit.et + 1) else []) ++
        if q = c.edit.stop then (if c.splitAtEnd = true then
          (stored (fragmentsAt c.gaps c.edit.et)).map (reown c.owner) else []) else [] := by
  rw [(gapRows_regrouped he q).stored, layout, stored_append, stored_append, stored_relabel,
    apply_ite stored, apply_ite stored, stored_nil, stored_joinRange, stored_relabel, ite_and]
  rfl

/-- One edit permutes the stored fragments, under their new owners. -/
lemma Ready.stored_perm (h : c.Ready) :
    (stored (allFragments c.gapRows)).Perm
      ((stored (allFragments c.gaps)).map (reown c.owner)) := by
  have hle := h.fits.le
  have hb := h.fits.bound
  have hpos := pos_le (c := c)
  have hlen := length_text h.fits
  have hstop : c.edit.ef ≤ c.edit.stop := Nat.le_add_right _ _
  set old := fun p => (stored (fragmentsAt c.gaps p)).map (reown c.owner) with hold
  set kept := fun q => (stored (fragmentsAt (c.gaps.filterMap (keepGap c.edit)) q)).map
    (reown c.owner) with hkept
  have hkeep : joinRange kept 0 (c.text.length + 1) =
      joinRange old 0 c.edit.ef ++ joinRange old (c.edit.et + 1) (c.cur.length + 1) := by
    rw [← joinRange_append kept (Nat.zero_le c.edit.ef) (by omega),
      ← joinRange_append kept (by omega : c.edit.ef ≤ c.edit.stop + 1) (by omega)]
    have h1 : joinRange kept 0 c.edit.ef = joinRange old 0 c.edit.ef :=
      joinRange_congr fun q _ hq => by
        simp only [hkept, hold, fragmentsAt_keepGap hle, if_pos hq]
    have h2 : joinRange kept c.edit.ef (c.edit.stop + 1) = [] :=
      joinRange_eq_nil fun q hq hq' => by
        simp only [hkept, fragmentsAt_keepGap hle, if_neg (show ¬ q < c.edit.ef by omega),
          if_neg (show ¬ c.edit.stop < q by omega)]
        rfl
    have h3 : joinRange kept (c.edit.stop + 1) (c.text.length + 1) =
        joinRange old (c.edit.et + 1) (c.cur.length + 1) := by
      refine joinRange_shift (by omega) fun i _ => ?_
      simp only [hkept, hold, fragmentsAt_keepGap hle,
        if_neg (show ¬ c.edit.stop + 1 + i < c.edit.ef by omega),
        if_pos (show c.edit.stop < c.edit.stop + 1 + i by omega)]
      congr 3
      simp only [OneEdit.stop]
      omega
    rw [h1, h2, h3, nil_append]
  have hpieces : joinRange (fun p => stored (c.pieces p)) c.edit.ef (c.edit.et + 1) ++
      (if c.splitAtEnd = true then old c.edit.et else []) =
      joinRange old c.edit.ef (c.edit.et + 1) := by
    have hbefore : joinRange (fun p => stored (c.pieces p)) c.edit.ef c.edit.et =
        joinRange old c.edit.ef c.edit.et := joinRange_congr fun p _ hp => by
      rw [stored_pieces, if_neg (by simp; omega)]
    rw [joinRange_succ_right _ hle, joinRange_succ_right _ hle, hbefore, stored_pieces,
      append_assoc]
    cases c.splitAtEnd <;> simp [hold]
  have hnew : (stored (allFragments c.gapRows)).Perm (joinRange kept 0 (c.text.length + 1) ++
      joinRange (fun p => stored (c.pieces p)) c.edit.ef (c.edit.et + 1) ++
      (if c.splitAtEnd = true then old c.edit.et else [])) := by
    refine (allFragments_stored fun q hq => h.gapInText hq).trans ?_
    rw [joinRange_congr fun q _ _ => stored_gapRows hle q]
    refine (joinRange_insert_perm _ _ (Nat.zero_le _) (by omega)).trans ?_
    exact (joinRange_insert_perm _ _ (Nat.zero_le _) (by omega)).append_right _
  have hmap : ((stored (allFragments c.gaps)).map (reown c.owner)).Perm
      (joinRange old 0 (c.cur.length + 1)) := by
    rw [hold, ← map_joinRange]
    exact (allFragments_stored h.valid.gapInText).map _
  refine hnew.trans (Perm.trans ?_ hmap.symm)
  have hsplit : joinRange old 0 (c.cur.length + 1) = joinRange old 0 c.edit.ef ++
      (joinRange old c.edit.ef (c.edit.et + 1) ++
        joinRange old (c.edit.et + 1) (c.cur.length + 1)) := by
    rw [joinRange_append old (by omega) (by omega), joinRange_append old (by omega) (by omega)]
  rw [hkeep, append_assoc, hpieces, hsplit, append_assoc]
  exact perm_append_comm.append_left _

/-- The stored fragments at one position stay together and keep their order. -/
lemma Ready.stored_together (h : c.Ready) (p : ℕ) : ∃ q,
    ((stored (fragmentsAt c.gaps p)).map (reown c.owner)).Sublist
      (stored (fragmentsAt c.gapRows q)) := by
  have hle := h.fits.le
  by_cases h1 : p < c.edit.ef
  · refine ⟨p, ?_⟩
    rw [stored_gapRows hle, fragmentsAt_keepGap hle, if_pos h1]
    exact (sublist_append_left _ _).trans (sublist_append_left _ _)
  by_cases h2 : c.edit.et < p
  · refine ⟨c.edit.shift p, ?_⟩
    have hback : c.edit.shift p + (c.edit.et - c.edit.ef) - c.edit.len = p := by
      simp only [OneEdit.shift]
      omega
    rw [stored_gapRows hle, fragmentsAt_keepGap hle,
      if_neg (by simp only [OneEdit.shift]; omega),
      if_pos (by simp only [OneEdit.shift, OneEdit.stop]; omega), hback]
    exact (sublist_append_left _ _).trans (sublist_append_left _ _)
  by_cases h3 : c.splitAtEnd = true ∧ p = c.edit.et
  · refine ⟨c.edit.stop, ?_⟩
    rw [stored_gapRows hle, if_pos rfl, if_pos h3.1, h3.2]
    exact sublist_append_right _ _
  · refine ⟨c.pos, ?_⟩
    have hp : stored (c.pieces p) = (stored (fragmentsAt c.gaps p)).map (reown c.owner) := by
      rw [stored_pieces, if_neg (by simpa using h3)]
    rw [stored_gapRows hle, if_pos rfl, ← hp]
    refine (sublist_joinRange (f := fun p => stored (c.pieces p))
      (by omega : c.edit.ef ≤ p) (by omega : p < c.edit.et + 1)).trans ?_
    exact (sublist_append_right _ _).trans (sublist_append_left _ _)

/-! The rows of a plan. -/

variable {id : String} {r : Row}

/-- The owner of a fragment, under its new name, owns a fragment after the edit. -/
lemma Ready.owns_kept (h : c.Ready) {p : ℕ} (ho : Owns (fragmentsAt c.gaps p) id) :
    ∃ q, Owns (fragmentsAt c.gapRows q) (c.owner id) := by
  have hle := h.fits.le
  have hre : Owns ((fragmentsAt c.gaps p).map (relabel c.mine c.owned)) (c.owner id) :=
    owns_relabel.2 ⟨id, ho, rfl⟩
  simp only [(gapRows_regrouped hle _).owns, layout, owns_append]
  by_cases h1 : p < c.edit.ef
  · exact ⟨p, .inl (.inl (by rwa [fragmentsAt_keepGap hle, if_pos h1]))⟩
  by_cases h2 : c.edit.et < p
  · refine ⟨c.edit.shift p, .inl (.inl ?_)⟩
    have hback : c.edit.shift p + (c.edit.et - c.edit.ef) - c.edit.len = p := by
      simp only [OneEdit.shift]
      omega
    rwa [fragmentsAt_keepGap hle, if_neg (by simp only [OneEdit.shift]; omega),
      if_pos (by simp only [OneEdit.shift, OneEdit.stop]; omega), hback]
  by_cases h3 : c.splitAtEnd = true ∧ p = c.edit.et
  · refine ⟨c.edit.stop, .inr ?_⟩
    rw [if_pos ⟨rfl, h3.1⟩, ← h3.2]
    exact hre
  · refine ⟨c.pos, .inl (.inr ?_)⟩
    rw [if_pos rfl]
    obtain ⟨f, hf, hid⟩ := hre
    refine ⟨f, mem_joinRange.2 ⟨p, by omega, by omega, ?_⟩, hid⟩
    rw [pieces, if_neg (by simpa using h3)]
    exact mem_append_left _ hf

lemma settled_mem {y : Row} (hy : y ∈ c.out) (hl : hasSpan y.1 = true ∨
    referenced c.gapRows y.1.id = true ∨ y.1.emptied = true) : c.settled y ∈ c.rows :=
  mem_rows.2 ⟨y, hy, liveRow_revive.2 hl, rfl⟩

/-- The change that the edit writes is a row of the plan. -/
lemma Ready.mine_live (h : c.Ready) {m : ChangeRecord} (hm : c.mine = some m) :
    ∃ x ∈ c.rows, x.1.id = m.id ∧ x.1.who = c.me.who := by
  obtain ⟨hrec, hw, -⟩ := mine_spec h.ids hm
  have hout : ((m, .set) : Row) ∈ c.out := mem_out.2 (.inr (.inr ⟨m, hm, rfl⟩))
  have hsame := settled_same (c := c) (m, .set)
  refine ⟨c.settled (m, .set), settled_mem hout ?_, hsame.1, hsame.2.1.trans hw⟩
  rcases (recordsChange_iff.1 hrec).2 with ⟨p, h1, h2, hp⟩ | hlen
  · have hb := h.fits.bound
    refine .inr (.inl (referenced_iff.2 ⟨c.pos, ?_⟩))
    rw [(gapRows_regrouped h.fits.le _).owns, layout, owns_append, owns_append, if_pos rfl]
    refine .inl (.inr ?_)
    have hch : c.cur[p]? = some (c.cur.get ⟨p, by omega⟩) := getElem?_eq_getElem _
    refine ⟨⟨none, m.id, [c.cur.get ⟨p, by omega⟩], none, false⟩,
      mem_joinRange.2 ⟨p, h1, by omega, mem_append_right _ ?_⟩, rfl⟩
    simp [originalPiece, hm, hch, h2, spanEndAt_eq_none, hp]
  · refine .inl (ChangeRecord.covers.hasSpan (p := c.edit.ef) ?_)
    exact (mine_covers h.ids h.fits.le hm _).2 (.inl ⟨le_rfl, by
      simp only [OneEdit.stop]
      omega⟩)

lemma owner_of_not_owned (h : id ∉ c.owned) : c.owner id = id := by
  unfold owner newOwner
  split
  · exact if_neg h
  · rfl

/-- An emptied row owns nothing, so no edit takes it over. -/
lemma Ready.emptied_not_owned (h : c.Ready) (hr : r ∈ c.changes) (hem : r.1.emptied = true) :
    (∀ p, ¬ Owns (fragmentsAt c.gaps p) r.1.id) ∧ r.1.id ∉ c.owned := by
  have hnone : ∀ p, ¬ Owns (fragmentsAt c.gaps p) r.1.id := by
    intro p ho
    obtain ⟨s, hs, hid, hlive⟩ := h.valid.owned p _ ho
    rw [row_ext h.ids hs hr hid, hem] at hlive
    simp at hlive
  refine ⟨hnone, fun ho => ?_⟩
  have hspan := h.valid.emptied r hr hem
  have hu := (owned_row ho).1
  unfold Call.owned ownedIds at ho
  simp only [hu, Bool.false_eq_true, if_false, mem_touchedIds] at ho
  rcases ho with ⟨d, hd, hid⟩ | ⟨-, g, hg, f, hf, hid⟩
  · obtain ⟨⟨s, hs⟩, -, hds, -⟩ := firstSpan_spec hd
    rw [row_ext h.ids hr hs hid.symm, hds] at hspan
    simp at hspan
  · simp only [swallowed, mem_map, mem_filter] at hg
    obtain ⟨g', ⟨hg', -⟩, rfl⟩ := hg
    exact hnone _ (owns_fragmentsAt.2 ⟨g', hg', rfl, f, hf, hid⟩)

/-- A row emptied earlier in the batch stays, emptied. -/
lemma Ready.emptied_kept (h : c.Ready) (hr : r ∈ c.changes) (hem : r.1.emptied = true) :
    ∃ x ∈ c.rows, x.1.id = r.1.id ∧ x.1.who = r.1.who ∧ x.1.emptied = true := by
  obtain ⟨hnone, hno⟩ := h.emptied_not_owned hr hem
  have ha : absorbedBy c.mine c.owned r.1 = false := by simp [absorbedBy, hno]
  have hk : keepRow c.edit c.mine c.owned r = [r] := by simp [keepRow, ha, h.valid.emptied r hr hem]
  have hout : r ∈ c.out := mem_out.2 (.inl ⟨r, hr, by simp [hk]⟩)
  have hsame := settled_same (c := c) r
  refine ⟨c.settled r, settled_mem hout (.inr (.inr hem)), hsame.1, hsame.2.1,
    settled_emptied.2 ⟨hem, ?_⟩⟩
  rw [← Bool.not_eq_true, referenced_iff]
  rintro ⟨q, ho⟩
  rcases owns_gapRows h.fits.le ho with ⟨p, hp, -⟩ | ⟨m, hm, hid⟩
  · exact hnone p hp
  · rcases mine_id h.ids hm with ⟨hmo, -⟩ | ⟨-, hfresh, -⟩
    · exact hno (hid ▸ hmo)
    · exact h.fresh.new r hr _ le_rfl (hid.trans hfresh)

/-- No edit drops a row. -/
lemma Ready.row_kept (h : c.Ready) (hr : r ∈ c.changes) :
    ∃ x ∈ c.rows, x.1.id = r.1.id ∧ x.1.who = r.1.who := by
  have settle : ∀ y ∈ keepRow c.edit c.mine c.owned r, (hasSpan y.1 = true ∨
      referenced c.gapRows y.1.id = true ∨ y.1.emptied = true) →
      ∃ x ∈ c.rows, x.1.id = r.1.id ∧ x.1.who = r.1.who := by
    intro y hy hl
    obtain ⟨hid, hw, -⟩ := keepRow_same hy
    have hsame := settled_same (c := c) y
    exact ⟨c.settled y, settled_mem (mem_out.2 (.inl ⟨r, hr, hy⟩)) hl, hsame.1.trans hid,
      hsame.2.1.trans hw⟩
  cases ha : absorbedBy c.mine c.owned r.1 with
  | true =>
    by_cases hid : c.mine.map ChangeRecord.id = some r.1.id
    · obtain ⟨m, hm, hmid⟩ := Option.map_eq_some_iff.1 hid
      obtain ⟨x, hx, hxid, hxw⟩ := h.mine_live hm
      obtain ⟨-, s, hs, hsid, hsw⟩ := owned_row (absorbedBy_iff.1 ha).2
      rw [row_ext h.ids hs hr hsid] at hsw
      exact ⟨x, hx, hxid.trans hmid, hxw.trans hsw.symm⟩
    · exact settle (emptiedRow r.1 c.edit) (by simp [keepRow, ha, hid]) (.inr (.inr rfl))
  | false =>
    cases hspan : hasSpan r.1 with
    | false =>
      have hk : keepRow c.edit c.mine c.owned r = [r] := by simp [keepRow, ha, hspan]
      refine settle r (by simp [hk]) ?_
      cases hem : r.1.emptied with
      | true => exact .inr (.inr rfl)
      | false =>
        obtain ⟨q, hq⟩ := h.owns_kept (h.valid.seated r hr hspan hem)
        have hsame : c.owner r.1.id = r.1.id := by
          unfold owner newOwner
          cases hm : c.mine with
          | none => rfl
          | some m =>
            have hno : r.1.id ∉ c.owned := by simpa [absorbedBy, hm] using ha
            simp [hno]
        exact .inr (.inl (referenced_iff.2 ⟨q, hsame ▸ hq⟩))
    | true =>
      have hk := keepRow_ids c.edit c.mine c.owned r
      rw [if_neg (by simp [ha])] at hk
      obtain ⟨y, hy⟩ : ∃ y, y ∈ keepRow c.edit c.mine c.owned r := by
        cases hkr : keepRow c.edit c.mine c.owned r with
        | nil => simp [hkr] at hk
        | cons y l => exact ⟨y, by simp⟩
      refine settle y hy ?_
      rw [hasSpan_iff] at hspan
      simp only [keepRow, ha, Bool.false_eq_true, if_false] at hy
      have hle := h.fits.le
      split_ifs at hy <;> simp only [mem_singleton] at hy <;> subst hy <;>
        simp only [emptiedRow, hasSpan_iff, OneEdit.shift] <;> first | tauto | omega

/-- An owner that an edit replaces was the author's change, and its row is emptied now. -/
lemma Ready.owner_ne (h : c.Ready) (hne : c.owner id ≠ id) :
    (∃ x ∈ c.rows, x.1.id = id ∧ x.1.who = c.me.who ∧ x.1.emptied = true) ∧
      ∃ x ∈ c.rows, x.1.id = c.owner id ∧ x.1.who = c.me.who := by
  have ho : id ∈ c.owned := by
    by_contra hno
    exact hne (owner_of_not_owned hno)
  obtain ⟨-, r, hr, rfl, hw⟩ := owned_row ho
  cases hm : c.mine with
  | none => exact (hne (by simp [owner, newOwner, hm])).elim
  | some m =>
    have hown : c.owner r.1.id = m.id := by simp [owner, newOwner, hm, ho]
    refine ⟨?_, hown ▸ h.mine_live hm⟩
    have ha : absorbedBy c.mine c.owned r.1 = true := by simp [absorbedBy, hm, ho]
    have hmid : c.mine.map ChangeRecord.id ≠ some r.1.id := by simpa [hm, ← hown] using hne
    have hy : emptiedRow r.1 c.edit ∈ c.out := mem_out.2 (.inl ⟨r, hr, by simp [keepRow, ha, hmid]⟩)
    have hsame := settled_same (c := c) (emptiedRow r.1 c.edit)
    refine ⟨_, settled_mem hy (.inr (.inr rfl)), hsame.1, hsame.2.1.trans hw,
      settled_emptied.2 ⟨rfl, ?_⟩⟩
    rw [← Bool.not_eq_true, referenced_iff]
    rintro ⟨q, hq⟩
    rcases owns_gapRows h.fits.le hq with ⟨p, -, hno | hno⟩ | ⟨m', hm', hid⟩
    · simp [hm] at hno
    · exact hno ho
    · rw [hm, Option.some.injEq] at hm'
      subst hm'
      exact hne (hown.trans hid.symm)

end Call

/-! What a batch keeps. -/

/-- The batch merged the change `id` of its author into the change `id'`: both are the
author's, and the row of the first is emptied. -/
def MergedInto (rows : List Row) (me : Author) (id id' : String) : Prop :=
  (∃ r ∈ rows, r.1.id = id ∧ r.1.who = me.who ∧ r.1.emptied = true) ∧
    ∃ r ∈ rows, r.1.id = id' ∧ r.1.who = me.who

/-- What became of the stored fragments and the rows of the batch's state. -/
structure Batch.Kept (b : Batch) (ρ : String → String) (rows : List Row)
    (gaps : List GapRow) : Prop where
  owners : ∀ id, ρ id = id ∨ MergedInto rows b.me id (ρ id)
  perm : (stored (allFragments gaps)).Perm
    ((stored (allFragments (keptGaps b.state))).map (reown ρ))
  together : ∀ p, ∃ q, ((stored (fragmentsAt (keptGaps b.state) p)).map (reown ρ)).Sublist
    (stored (fragmentsAt gaps q))
  rows : ∀ c ∈ b.state.changes, ∃ r ∈ rows, r.1.id = c.id

lemma Batch.Kept.next {ρ : String → String} {p : Progress} {edit : Edit}
    (hr : (b.call p edit).Ready) (h : b.Kept ρ p.changes p.gaps) :
    b.Kept ((b.call p edit).owner ∘ ρ) (b.next p edit).changes (b.next p edit).gaps where
  owners id := by
    rcases h.owners id with hid | ⟨⟨r, hr', rfl, hw, hem⟩, s, hs, hsid, hsw⟩
    · by_cases hne : (b.call p edit).owner id = id
      · exact .inl (by simp [hid, hne])
      · exact .inr (by
          rw [Function.comp_apply, hid]
          exact hr.owner_ne hne)
    · refine .inr ⟨?_, ?_⟩
      · obtain ⟨x, hx, hxid, hxw, hxe⟩ := hr.emptied_kept hr' hem
        exact ⟨x, hx, hxid, hxw.trans hw, hxe⟩
      · by_cases hne : (b.call p edit).owner (ρ r.1.id) = ρ r.1.id
        · obtain ⟨x, hx, hxid, hxw⟩ := hr.row_kept hs
          exact ⟨x, hx, by rw [Function.comp_apply, hne, hxid, hsid], hxw.trans hsw⟩
        · exact (hr.owner_ne hne).2
  perm := by
    have hmap := (h.perm.map (reown (b.call p edit).owner))
    rw [map_map] at hmap
    exact hr.stored_perm.trans hmap
  together p' := by
    obtain ⟨q, hq⟩ := h.together p'
    obtain ⟨q', hq'⟩ := hr.stored_together q
    have hmap := hq.map (reown (b.call p edit).owner)
    rw [map_map] at hmap
    exact ⟨q', hmap.trans hq'⟩
  rows c hc := by
    obtain ⟨r, hr', hid⟩ := h.rows c hc
    obtain ⟨x, hx, hxid, -⟩ := hr.row_kept hr'
    exact ⟨x, hx, hxid.trans hid⟩

lemma Batch.Ready.kept (h : b.Ready) : ∃ ρ, b.Kept ρ b.loop.changes b.loop.gaps := by
  have hstart : b.Kept id b.start.changes b.start.gaps := by
    refine ⟨fun _ => .inl rfl, ?_, fun p => ⟨p, ?_⟩, fun c hc =>
      ⟨(c, .kept), mem_map_of_mem hc, rfl⟩⟩
    · exact Perm.of_eq (map_id _).symm
    · exact (map_id (stored (fragmentsAt (keptGaps b.state) p))).symm ▸ Sublist.refl _
  exact (h.induct (motive := fun p => ∃ ρ, b.Kept ρ p.changes p.gaps) ⟨id, hstart⟩
    fun p edit hr ⟨ρ, hp⟩ => ⟨_, hp.next hr⟩).1

lemma MergedInto.congr {rows rows' : List Row} {me : Author} {id id' : String}
    (h : MergedInto rows me id id') (hr : rows'.map Prod.fst = rows.map Prod.fst) :
    MergedInto rows' me id id' := by
  have hmem : ∀ r ∈ rows, ∃ r' ∈ rows', r'.1 = r.1 := by
    intro r hr'
    have hm : r.1 ∈ rows'.map Prod.fst := hr ▸ mem_map_of_mem hr'
    exact mem_map.1 hm
  obtain ⟨⟨r, hr1, h1⟩, s, hs, h2⟩ := h
  obtain ⟨r', hr', he⟩ := hmem r hr1
  obtain ⟨s', hs', he'⟩ := hmem s hs
  exact ⟨⟨r', hr', he ▸ h1⟩, s', hs', he' ▸ h2⟩

end LibrePaper.Track
