import LibrePaper.Track.Agreement
import LibrePaper.Track.Ownership

/-!
# Batches in both planners

A batch leads to the same text, the same rows and the same marks in both planners, and so does every
prefix of it, exactly when no edit of the batch empties a stored row that an earlier edit has marked
to be written.
-/
namespace LibrePaper.Track
open Library List
open Anchors.Browser (Units utf16)

/-- A collection of rows that went away, one for each id. -/
structure Notes {α : Type*} (id : α → String)
    (note : List (α × PlanState) → α → List (α × PlanState)) : Prop where
  mem : ∀ l x y, y ∈ note l x ↔ y = (x, .removed) ∨ y ∈ l ∧ id y.1 ≠ id x
  nodup : ∀ l x, (l.map (id ·.1)).Nodup → ((note l x).map (id ·.1)).Nodup

lemma notes_noteRemoved {α : Type*} (id : α → String) : Notes id (noteRemoved id) where
  mem l x y := by
    have hne : id y.1 ≠ id x ↔ ¬id x ≤ id y.1 ∨ id x < id y.1 := by
      constructor
      · intro h
        rcases lt_trichotomy (id x) (id y.1) with hlt | heq | hgt
        · exact .inr hlt
        · exact absurd heq.symm h
        · exact .inl (not_le.2 hgt)
      · rintro (h | h) heq
        · exact h heq.ge
        · exact h.ne heq.symm
    rw [noteRemoved, mem_append, mem_cons, mem_filter, mem_filter, hne]
    simp only [Bool.not_eq_true', decide_eq_false_iff_not, decide_eq_true_eq]
    tauto
  nodup l x h := by
    have hsub : ∀ p : α × PlanState → Bool, ((l.filter p).map (id ·.1)).Nodup := fun p =>
      h.sublist (filter_sublist.map _)
    have hbelow : ∀ y ∈ l.filter fun r => !decide (id x ≤ id r.1), id y.1 < id x := by
      intro y hy
      have hy := (mem_filter.1 hy).2
      rw [Bool.not_eq_true', decide_eq_false_iff_not] at hy
      exact not_le.1 hy
    have habove : ∀ y ∈ l.filter fun r => decide (id x < id r.1), id x < id y.1 := fun y hy =>
      of_decide_eq_true (mem_filter.1 hy).2
    rw [noteRemoved, map_append, map_cons, nodup_append, nodup_cons]
    refine ⟨hsub _, ⟨fun hx => ?_, hsub _⟩, ?_⟩
    · obtain ⟨y, hy, heq⟩ := mem_map.1 hx
      exact (habove y hy).ne heq.symm
    · intro a ha b hb hab
      obtain ⟨y, hy, rfl⟩ := mem_map.1 ha
      have hlt := hbelow y hy
      rcases mem_cons.1 hb with rfl | hb
      · exact hlt.ne hab
      · obtain ⟨z, hz, rfl⟩ := mem_map.1 hb
        exact (hlt.trans (habove z hz)).ne hab

lemma notes_setRemoved {α : Type*} (id : α → String) : Notes id (Browser.setRemoved id) where
  mem l x y := by
    rw [Browser.setRemoved]
    split
    · next hany =>
      obtain ⟨z, hz, hid⟩ := any_eq_true.1 hany
      have hid := of_decide_eq_true hid
      rw [mem_map]
      constructor
      · rintro ⟨r, hr, rfl⟩
        by_cases h : id r.1 = id x
        · exact .inl (if_pos h)
        · rw [if_neg h]
          exact .inr ⟨hr, h⟩
      · rintro (rfl | ⟨hy, hne⟩)
        · exact ⟨z, hz, if_pos hid⟩
        · exact ⟨y, hy, if_neg hne⟩
    · next hany =>
      have hne : ∀ r ∈ l, id r.1 ≠ id x := fun r hr heq =>
        hany (any_eq_true.2 ⟨r, hr, decide_eq_true heq⟩)
      rw [mem_append, mem_singleton]
      constructor
      · rintro (hy | hy)
        · exact .inr ⟨hy, hne y hy⟩
        · exact .inl hy
      · rintro (hy | hy)
        · exact .inr hy
        · exact .inl hy.1
  nodup l x h := by
    rw [Browser.setRemoved]
    split
    · have hids : (l.map fun r => if id r.1 = id x then (x, .removed) else r).map (id ·.1) =
          l.map (id ·.1) := by
        rw [map_map]
        refine map_congr_left fun r _ => ?_
        show id (if id r.1 = id x then (x, PlanState.removed) else r).1 = id r.1
        split
        · next heq => exact heq.symm
        · rfl
      rwa [hids]
    · next hany =>
      rw [map_append, map_singleton, nodup_append]
      refine ⟨h, nodup_singleton _, fun a ha b hb hab => ?_⟩
      obtain ⟨r, hr, rfl⟩ := mem_map.1 ha
      rw [mem_singleton.1 hb] at hab
      exact hany (any_eq_true.2 ⟨r, hr, decide_eq_true hab⟩)

def AllGone {α : Type*} (l : List (α × PlanState)) : Prop := ∀ r ∈ l, r.2 = .removed

namespace Notes
variable {α β γ : Type*} {id : α → String} {id' : β → String}
  {note : List (α × PlanState) → α → List (α × PlanState)}
  {note' : List (β × PlanState) → β → List (β × PlanState)}

lemma fold_gone (h : Notes id note) {xs l : List (α × PlanState)} (hl : AllGone l) :
    AllGone (xs.foldl (fun acc r => note acc r.1) l) := by
  induction xs generalizing l with
  | nil => exact hl
  | cons x xs ih =>
    refine ih fun r hr => ?_
    rcases (h.mem l x.1 r).1 hr with rfl | ⟨hr, -⟩
    · rfl
    · exact hl r hr

lemma fold_ids (h : Notes id note) (xs : List (α × PlanState)) {l : List (α × PlanState)}
    (hl : (l.map (id ·.1)).Nodup) :
    ((xs.foldl (fun acc r => note acc r.1) l).map (id ·.1)).Nodup ∧
      ∀ i, i ∈ (xs.foldl (fun acc r => note acc r.1) l).map (id ·.1) ↔
        i ∈ xs.map (id ·.1) ∨ i ∈ l.map (id ·.1) := by
  induction xs generalizing l with
  | nil => exact ⟨hl, fun i => (or_iff_right not_mem_nil).symm⟩
  | cons x xs ih =>
    obtain ⟨hnodup, hmem⟩ := ih (h.nodup l x.1 hl)
    refine ⟨hnodup, fun i => (hmem i).trans ?_⟩
    have hnote : i ∈ (note l x.1).map (id ·.1) ↔ i = id x.1 ∨ i ∈ l.map (id ·.1) := by
      simp only [mem_map, h.mem]
      constructor
      · rintro ⟨y, rfl | ⟨hy, -⟩, rfl⟩
        · exact .inl rfl
        · exact .inr ⟨y, hy, rfl⟩
      · rintro (rfl | ⟨y, hy, rfl⟩)
        · exact ⟨_, .inl rfl, rfl⟩
        · by_cases heq : id y.1 = id x.1
          · exact ⟨_, .inl rfl, heq.symm⟩
          · exact ⟨y, .inr ⟨hy, heq⟩, rfl⟩
    rw [hnote, map_cons, mem_cons]
    tauto

lemma fold_perm (h : Notes id note) (h' : Notes id' note') {xs l : List (α × PlanState)}
    {xs' l' : List (β × PlanState)} (hl : (l.map (id ·.1)).Nodup)
    (hperm : (l'.map (id' ·.1)).Perm (l.map (id ·.1)))
    (hxs : (xs'.map (id' ·.1)).Perm (xs.map (id ·.1))) :
    ((xs'.foldl (fun acc r => note' acc r.1) l').map (id' ·.1)).Perm
      ((xs.foldl (fun acc r => note acc r.1) l).map (id ·.1)) := by
  obtain ⟨hnodup, hmem⟩ := h.fold_ids xs hl
  obtain ⟨hnodup', hmem'⟩ := h'.fold_ids xs' (hperm.nodup_iff.2 hl)
  refine (perm_ext_iff_of_nodup hnodup' hnodup).2 fun i => ?_
  rw [hmem, hmem', hperm.mem_iff, hxs.mem_iff]

/-- What is kept of the rows that went away. -/
def entries (id : α → String) (data : α → γ) (l : List (α × PlanState)) : List (String × γ) :=
  l.map fun r => (id r.1, data r.1)

lemma nodup_entries {data : α → γ} {l : List (α × PlanState)} (h : (l.map (id ·.1)).Nodup) :
    (entries id data l).Nodup := by
  refine Nodup.of_map Prod.fst ?_
  rw [entries, map_map]
  exact h

lemma mem_entries (h : Notes id note) {data : α → γ} {l : List (α × PlanState)} {x : α}
    {v : String × γ} : v ∈ entries id data (note l x) ↔
      v = (id x, data x) ∨ v ∈ entries id data l ∧ v.1 ≠ id x := by
  simp only [entries, mem_map, h.mem]
  constructor
  · rintro ⟨y, rfl | ⟨hy, hne⟩, rfl⟩
    · exact .inl rfl
    · exact .inr ⟨⟨y, hy, rfl⟩, hne⟩
  · rintro (rfl | ⟨⟨y, hy, rfl⟩, hne⟩)
    · exact ⟨_, .inl rfl, rfl⟩
    · exact ⟨y, .inr ⟨hy, hne⟩, rfl⟩

lemma fold_entries (h : Notes id note) (h' : Notes id' note') {data : α → γ} {data' : β → γ}
    {xs l : List (α × PlanState)} {xs' l' : List (β × PlanState)} (hl : (l.map (id ·.1)).Nodup)
    (hl' : (l'.map (id' ·.1)).Nodup)
    (hperm : (entries id' data' l').Perm (entries id data l))
    (hxs : entries id' data' xs' = entries id data xs) :
    (entries id' data' (xs'.foldl (fun acc r => note' acc r.1) l')).Perm
      (entries id data (xs.foldl (fun acc r => note acc r.1) l)) := by
  induction xs generalizing l xs' l' with
  | nil =>
    rw [map_eq_nil_iff.1 hxs]
    exact hperm
  | cons x xs ih =>
    obtain ⟨x', xs', rfl, hx, hxs⟩ := map_eq_cons_iff.1 hxs
    have hx : (id' x'.1, data' x'.1) = (id x.1, data x.1) := hx
    have hnext : (entries id' data' (note' l' x'.1)).Perm (entries id data (note l x.1)) := by
      refine (perm_ext_iff_of_nodup (nodup_entries (h'.nodup l' x'.1 hl'))
        (nodup_entries (h.nodup l x.1 hl))).2 fun v => ?_
      rw [h'.mem_entries, h.mem_entries, hperm.mem_iff, hx, (Prod.mk.inj hx).1]
    have hrest := ih (h.nodup l x.1 hl) (h'.nodup l' x'.1 hl') hnext hxs
    exact hrest

end Notes

lemma utf16_splice {text insert : List Char} {lo hi : ℕ} (hlo : lo ≤ hi)
    (hhi : hi ≤ text.length) : utf16 (splice text lo hi insert) =
      splice (utf16 text) (offset text lo) (offset text hi) (utf16 insert) := by
  have hoffset : ∀ p ≤ text.length, offset text p = Anchors.lenUtf16 (text.take p) := fun p hp => by
    rw [offset, Nat.sub_eq_zero_of_le hp, Nat.add_zero]
  have htake : (utf16 text).take (offset text lo) = utf16 (text.take lo) := by
    have h := Anchors.take_utf16 (text.take lo) (text.drop lo)
    rwa [take_append_drop, ← hoffset lo (hlo.trans hhi)] at h
  have hdrop : (utf16 text).drop (offset text hi) = utf16 (text.drop hi) := by
    have h := Anchors.drop_utf16 (text.take hi) (text.drop hi)
    rwa [take_append_drop, ← hoffset hi hhi] at h
  rw [splice, splice, htake, hdrop, Anchors.utf16_append, Anchors.utf16_append]

/-- Stored fragments have ids, and a fragment that is read as a change has no span. -/
structure FileState.Resolved (state : FileState) : Prop where
  named : ∀ g ∈ state.gaps, Named g.fragments
  orphan : ∀ c ∈ state.changes, c.orphan = true → hasSpan c = false

/-- What is compared of a gap that went away: the records that are deleted. -/
def gapEntries (gaps : List GapRow) : List (String × List Browser.Fragment) :=
  Notes.entries Gap.id (fun g => g.fragments.map Fragment.inUnits) gaps

def Browser.gapEntries (gaps : List GapRow) : List (String × List Fragment) :=
  Notes.entries Gap.id Gap.fragments gaps

namespace Batch
variable {b : Batch}

/-- The change is stored before the batch. -/
def known (b : Batch) (id : String) : Bool := b.state.changes.any fun c => c.id = id

/-- The state before the batch, as the browser reads it. -/
def unitState (b : Batch) : Browser.FileState := b.state.inUnits (offset b.before)

def browserStep (b : Batch) (q : Browser.Progress) (edit : Edit) : Browser.Progress :=
  Browser.planStep b.fresh b.unitState b.me b.run b.now b.untracked q
    (edit.inUnits (offset b.before))

def browserPassed (b : Batch) (es : List Edit) : Browser.Progress :=
  es.foldl b.browserStep (Browser.startProgress (utf16 b.before) b.unitState b.taken)

/-- The plan that the browser makes of the batch. -/
def browserPlan (b : Batch) : Browser.Plan :=
  Browser.planEdits b.fresh (utf16 b.before) b.unitState
    (b.edits.map (Edit.inUnits (offset b.before))) b.me b.run b.now b.untracked b.taken

/-- The text after the batch in the browser. -/
def browserText (b : Batch) : Units :=
  Browser.planText b.fresh (utf16 b.before) b.unitState
    (b.edits.map (Edit.inUnits (offset b.before))) b.me b.run b.now b.untracked b.taken

lemma browserLoop_eq (b : Batch) :
    Browser.planLoop b.fresh (utf16 b.before) b.unitState
      (b.edits.map (Edit.inUnits (offset b.before))) b.me b.run b.now b.untracked b.taken =
        b.browserPassed b.edits := foldl_map

/-- Both loops are at the same point of the batch, where the edits so far ended at `lo` in the
coordinates of the text before it. -/
structure Matches (b : Batch) (lo : ℕ) (p : Progress) (q : Browser.Progress) : Prop where
  cur : q.cur = utf16 p.cur
  rows : Paired (Alike b.known (offset p.cur)) p.changes q.changes
  gaps : q.gaps = p.gaps.map (gapInUnits (offset p.cur))
  adj : ∀ x, lo ≤ x → (offset b.before x : ℤ) + q.adj = offset p.cur (x + p.adj).toNat
  taken : q.taken = p.taken
  plain : Plain p.changes p.gaps
  nodupRows : (p.removedChanges.map (·.1.id)).Nodup
  removedRows : (q.removedChanges.map (·.1.id)).Perm (p.removedChanges.map (·.1.id))
  nodupGaps : (p.removedGaps.map (·.1.id)).Nodup
  removedGaps : (Browser.gapEntries q.removedGaps).Perm (gapEntries p.removedGaps)
  gone : AllGone p.removedChanges ∧ AllGone q.removedChanges ∧ AllGone p.removedGaps ∧
    AllGone q.removedGaps

/-- The progress of the browser's loop after the edit. -/
def browserNext (b : Batch) (p : Progress) (q : Browser.Progress) (edit : Edit) :
    Browser.Progress where
  cur := splice q.cur (b.call p edit).unitEdit.ef (b.call p edit).unitEdit.et (utf16 edit.insert)
  changes := ((b.call p edit).twin q.changes).1
  gaps := ((b.call p edit).twin q.changes).2.1
  removedChanges := (q.changes.filter fun r =>
    !((b.call p edit).twin q.changes).1.any (fun x => x.1.id = r.1.id) &&
      b.unitState.changes.any fun c => c.id = r.1.id).foldl
        (fun acc r => Browser.setRemoved ChangeRecord.id acc r.1) q.removedChanges
  removedGaps := (q.gaps.filter fun g =>
    !((b.call p edit).twin q.changes).2.1.any (fun x => x.1.id = g.1.id) &&
      b.unitState.gaps.any fun c => c.id = g.1.id).foldl
        (fun acc g => Browser.setRemoved Browser.Gap.id acc g.1) q.removedGaps
  adj := q.adj + (b.call p edit).unitEdit.len -
    ((b.call p edit).unitEdit.et - (b.call p edit).unitEdit.ef)
  taken := ((b.call p edit).twin q.changes).2.2

lemma Matches.mono {lo lo' : ℕ} {p : Progress} {q : Browser.Progress} (h : b.Matches lo p q)
    (hlo : lo ≤ lo') : b.Matches lo' p q :=
  { h with adj := fun x hx => h.adj x (hlo.trans hx) }

/-- One pass of the browser's loop plans the same edit in code units. -/
lemma Matches.browserStep_eq {lo : ℕ} {p : Progress} {q : Browser.Progress}
    (h : b.Matches lo p q) {edit : Edit} (hlo : lo ≤ edit.fromPos)
    (hle : edit.fromPos ≤ edit.toPos) :
    b.browserStep q edit = if (b.call p edit).unitEdit.ef = (b.call p edit).unitEdit.et ∧
      (b.call p edit).unitEdit.len = 0 then q else b.browserNext p q edit := by
  have hfrom : ((edit.inUnits (offset b.before)).fromPos : ℤ) + q.adj =
      (b.call p edit).unitEdit.ef := h.adj _ hlo
  have hto : ((edit.inUnits (offset b.before)).toPos : ℤ) + q.adj =
      (b.call p edit).unitEdit.et := h.adj _ (hlo.trans hle)
  have hplan : (b.call p edit).twin q.changes = Browser.planOne b.fresh q.cur q.changes q.gaps
      (b.call p edit).unitEdit b.me b.run b.now b.untracked q.taken := by
    rw [h.cur, h.gaps, h.taken]
    rfl
  rw [browserNext, hplan, browserStep, Browser.planStep]
  simp only [hfrom, hto, Int.toNat_natCast]
  rfl

lemma unitState_known (b : Batch) (id : String) :
    (b.unitState.changes.any fun c => c.id = id) = b.known id := by
  show (b.state.changes.map _).any _ = _
  rw [any_map]
  rfl

lemma unitState_gaps (b : Batch) (id : String) :
    (b.unitState.gaps.any fun g => g.id = id) = b.state.gaps.any fun g => g.id = id := by
  show (b.state.gaps.map _).any _ = _
  rw [any_map]
  rfl

/-- The rows that go away are the same on both sides. -/
lemma goneRows {known : String → Bool} {u v : ℕ → ℕ} {rows rows' next next' : List Row}
    (h : Same u rows rows') (hnext : Same v next next') :
    ((rows'.filter fun r => !next'.any (fun x => x.1.id = r.1.id) && known r.1.id).map
      (·.1.id)).Perm
    ((rows.filter fun r => known r.1.id && !next.any fun x => x.1.id = r.1.id).map (·.1.id)) := by
  have hany : ∀ id, (next'.any fun x => x.1.id = id) = next.any fun x => x.1.id = id := by
    intro id
    rw [Bool.eq_iff_iff, any_eq_true, any_eq_true]
    have hmem := hnext.ids.mem_iff (a := id)
    simp only [mem_map] at hmem
    simpa only [decide_eq_true_eq] using hmem
  have hrows := (h.filter fun c => known c.id && !next.any fun x => x.1.id = c.id).map
    ChangeRecord.id
  rw [map_map, map_map, map_map] at hrows
  simp only [hany, Bool.and_comm (!_)]
  exact hrows

/-- The gaps that go away are the same on both sides. -/
lemma goneGaps (known : String → Bool) {u v : ℕ → ℕ} (gaps next : List GapRow) :
    Browser.gapEntries ((gaps.map (gapInUnits u)).filter fun g =>
      !(next.map (gapInUnits v)).any (fun x => x.1.id = g.1.id) && known g.1.id) =
    gapEntries (gaps.filter fun g => known g.1.id && !next.any fun x => x.1.id = g.1.id) := by
  rw [Browser.gapEntries, gapEntries, Notes.entries, Notes.entries, filter_map, map_map]
  have hkept : gaps.filter ((fun g : Browser.GapRow =>
      !(next.map (gapInUnits v)).any (fun x => x.1.id = g.1.id) && known g.1.id) ∘ gapInUnits u) =
      gaps.filter fun g => known g.1.id && !next.any fun x => x.1.id = g.1.id := by
    refine filter_congr fun g _ => ?_
    rw [Function.comp_apply, any_map, Bool.and_comm]
    rfl
  rw [hkept]
  rfl

lemma Matches.next {lo : ℕ} {p : Progress} {q : Browser.Progress} (h : b.Matches lo p q)
    (hs : b.Sound lo p) {edit : Edit} (hlo : lo ≤ edit.fromPos) (hle : edit.fromPos ≤ edit.toPos)
    (hb : edit.toPos ≤ b.before.length) (hspared : (b.call p edit).Spared b.known) :
    b.Matches edit.toPos (b.step p edit) (b.browserStep q edit) := by
  have hready := hs.ready hlo hle hb
  have hcarries : Carries (b.call p edit).edit (b.call p edit).unitEdit (offset p.cur)
      (offset (b.call p edit).text) := hready.carries
  have hplain : Plain (b.call p edit).changes (b.call p edit).gaps := h.plain
  have hskip : (b.call p edit).unitEdit.ef = (b.call p edit).unitEdit.et ∧
      (b.call p edit).unitEdit.len = 0 ↔
        (b.call p edit).edit.ef = (b.call p edit).edit.et ∧ edit.insert = [] := by
    rw [hcarries.ef, hcarries.et, hcarries.mono.injective.eq_iff, hcarries.len]
    exact and_congr_right fun _ => length_eq_zero_iff
  obtain ⟨hnamed, hsettles⟩ := hready.twin_settles hplain h.rows
  have hpaired := hready.twin_paired hplain h.rows hspared
  rw [step_eq, h.browserStep_eq hlo hle]
  by_cases hnone : (b.call p edit).edit.ef = (b.call p edit).edit.et ∧ edit.insert = []
  · rw [if_pos hnone, if_pos (hskip.2 hnone)]
    exact h.mono (hlo.trans hle)
  rw [if_neg hnone, if_neg fun hno => hnone (hskip.1 hno)]
  have hgaps : ((b.call p edit).twin q.changes).2.1 =
      (b.call p edit).gapRows.map (gapInUnits (offset (b.call p edit).text)) := by
    rw [hsettles]
  have hids : ((b.call p edit).twin q.changes).2.2 = (b.call p edit).ids := by rw [hsettles]
  have hle' := hready.fits.le
  refine ⟨?_, hpaired, hgaps, fun x hx => ?_, hids, hready.plain_next hplain hnamed, ?_, ?_, ?_, ?_,
    (notes_noteRemoved _).fold_gone h.gone.1, (notes_setRemoved _).fold_gone h.gone.2.1,
    (notes_noteRemoved _).fold_gone h.gone.2.2.1, (notes_setRemoved _).fold_gone h.gone.2.2.2⟩
  · rw [browserNext, h.cur]
    exact (utf16_splice hle' hready.fits.bound).symm
  · have hto : (b.call p edit).edit.et = (edit.toPos + p.adj).toNat := rfl
    have hreached := hs.reached
    have hafter := hcarries.after (x + p.adj).toNat (by omega)
    have hunits := hcarries.mono.monotone (show (b.call p edit).edit.et ≤ (x + p.adj).toNat by omega)
    have hunits' := hcarries.mono.monotone hle'
    rw [← hcarries.et] at hunits hunits'
    rw [← hcarries.ef] at hunits'
    have hold := h.adj x (hlo.trans (hle.trans hx))
    have hpoint : (x + (b.next p edit).adj).toNat =
        (b.call p edit).edit.shift (x + p.adj).toNat := by
      show (x + (p.adj + (b.call p edit).edit.len -
        ((b.call p edit).edit.et - (b.call p edit).edit.ef))).toNat = _
      rw [OneEdit.shift]
      omega
    show offset b.before x + (q.adj + (b.call p edit).unitEdit.len -
      ((b.call p edit).unitEdit.et - (b.call p edit).unitEdit.ef)) =
        ((offset (b.call p edit).text _ : ℕ) : ℤ)
    rw [hpoint, hafter, Browser.OneEdit.shift]
    omega
  · exact ((notes_noteRemoved _).fold_ids _ h.nodupRows).1
  · refine (notes_noteRemoved _).fold_perm (notes_setRemoved _) h.nodupRows h.removedRows ?_
    simp only [unitState_known]
    exact goneRows h.rows.same hpaired.same
  · exact ((notes_noteRemoved _).fold_ids _ h.nodupGaps).1
  · refine (notes_noteRemoved _).fold_entries (notes_setRemoved _) h.nodupGaps ?_ h.removedGaps ?_
    · have hids := h.removedGaps.map Prod.fst
      rw [Browser.gapEntries, gapEntries, Notes.entries, Notes.entries, map_map, map_map] at hids
      exact hids.nodup_iff.2 h.nodupGaps
    · simp only [unitState_gaps, hgaps, h.gaps]
      exact goneGaps (fun id => b.state.gaps.any fun g => g.id = id) _ _

lemma Ready.matches_start (h : b.state.Resolved) :
    b.Matches 0 b.start (Browser.startProgress (utf16 b.before) b.unitState b.taken) where
  cur := rfl
  rows := by
    refine .of_forall₂ ?_
    show Forall₂ _ (b.state.changes.map _) ((b.state.changes.map _).map _)
    rw [map_map, forall₂_map_left_iff, forall₂_map_right_iff, forall₂_same]
    exact fun c _ => ⟨rfl, .inl rfl⟩
  gaps := by
    show (b.state.gaps.map _).map _ = (b.state.gaps.map _).map _
    rw [map_map, map_map]
    rfl
  adj x _ := by
    show (offset b.before x : ℤ) + 0 = offset b.before (x + 0 : ℤ).toNat
    rw [add_zero, add_zero, Int.toNat_natCast]
  taken := rfl
  plain := {
    named := fun g hg => by
      obtain ⟨gap, hgap, rfl⟩ := mem_map.1 hg
      exact h.named gap hgap
    orphan := fun r hr => by
      obtain ⟨c, hc, rfl⟩ := mem_map.1 hr
      exact h.orphan c hc
    live := fun r hr => by
      obtain ⟨c, -, rfl⟩ := mem_map.1 hr
      rintro ⟨⟩
    liveGaps := fun g hg => by
      obtain ⟨g, -, rfl⟩ := mem_map.1 hg
      rintro ⟨⟩ }
  nodupRows := nodup_nil
  removedRows := Perm.refl _
  nodupGaps := nodup_nil
  removedGaps := Perm.refl _
  gone := ⟨fun _ h => absurd h not_mem_nil, fun _ h => absurd h not_mem_nil,
    fun _ h => absurd h not_mem_nil, fun _ h => absurd h not_mem_nil⟩

/-- No edit of the batch empties a stored row that an earlier edit has marked to be written. -/
def Spared (b : Batch) : Prop :=
  ∀ es e, es ++ [e] <+: b.edits → (b.call (b.after es) e).Spared b.known

lemma after_concat (b : Batch) (es : List Edit) (e : Edit) :
    b.after (es ++ [e]) = b.step (b.after es) e := foldl_concat ..

lemma browserPassed_concat (b : Batch) (es : List Edit) (e : Edit) :
    b.browserPassed (es ++ [e]) = b.browserStep (b.browserPassed es) e := foldl_concat ..

lemma reach_concat (lo : ℕ) (es : List Edit) (e : Edit) : reach lo (es ++ [e]) = e.toPos := by
  induction es generalizing lo with
  | nil => rfl
  | cons _ es ih => exact ih _

lemma Ready.fits_concat (h : b.Ready) {es : List Edit} {e : Edit} (hes : es ++ [e] <+: b.edits) :
    reach 0 es ≤ e.fromPos ∧ e.fromPos ≤ e.toPos ∧ e.toPos ≤ b.before.length := by
  obtain ⟨rest, hrest⟩ := hes
  have hfits := h.fits
  rw [← hrest, append_assoc, fitsFrom_append] at hfits
  exact ⟨hfits.2.1, hfits.2.2.1, hfits.2.2.2.1⟩

/-- Both loops stay together as long as the edits spare the marked rows. -/
lemma Ready.matches_after (h : b.Ready) (hr : b.state.Resolved) {es : List Edit}
    (hes : es <+: b.edits)
    (hspared : ∀ es' e, es' ++ [e] <+: es → (b.call (b.after es') e).Spared b.known) :
    b.Sound (reach 0 es) (b.after es) ∧
      b.Matches (reach 0 es) (b.after es) (b.browserPassed es) := by
  induction es using reverseRecOn with
  | nil => exact ⟨h.start, Ready.matches_start hr⟩
  | append_singleton es e ih =>
    obtain ⟨hlo, hle, hb⟩ := h.fits_concat hes
    obtain ⟨hs, hm⟩ := ih ((prefix_append _ _).trans hes) fun es' e' hes' =>
      hspared es' e' (hes'.trans (prefix_append _ _))
    rw [after_concat, browserPassed_concat, reach_concat]
    refine ⟨?_, hm.next hs hlo hle hb (hspared es e (prefix_refl _))⟩
    rw [step_eq]
    split
    · exact hs.mono (hlo.trans hle)
    · exact hs.next hlo hle hb

end Batch

def rowInUnits (u : ℕ → ℕ) (r : Row) : Row := (r.1.inUnits u, r.2)

def Plan.goneChanges (plan : Plan) : List Row := plan.changes.filter fun r => r.2 = .removed
def Plan.goneGaps (plan : Plan) : List GapRow := plan.gaps.filter fun g => g.2 = .removed

namespace Browser.Plan

def liveChanges (plan : Plan) : List Row := plan.changes.filter fun r => r.2 ≠ .removed
def liveGaps (plan : Plan) : List GapRow := plan.gaps.filter fun g => g.2 ≠ .removed
def goneChanges (plan : Plan) : List Row := plan.changes.filter fun r => r.2 = .removed
def goneGaps (plan : Plan) : List GapRow := plan.gaps.filter fun g => g.2 = .removed

end Browser.Plan

lemma filter_finished {α : Type*} (known : α → Bool) {l removed : List (α × PlanState)}
    (hl : ∀ r ∈ l, r.2 ≠ .removed) (hr : AllGone removed) :
    (l.map (markNew known) ++ removed).filter (fun r => r.2 ≠ .removed) =
        l.map (markNew known) ∧
      (l.map (markNew known) ++ removed).filter (fun r => r.2 = .removed) = removed := by
  have hmarked : ∀ r ∈ l.map (markNew known), r.2 ≠ .removed := by
    intro r hr
    obtain ⟨x, hx, rfl⟩ := mem_map.1 hr
    exact (markNew_state (hl x hx)).2
  constructor
  · rw [filter_append, filter_eq_self.2 fun r h => decide_eq_true (hmarked r h),
      filter_eq_nil_iff.2 fun r h hno => absurd (hr r h) (of_decide_eq_true hno),
      append_nil]
  · rw [filter_append,
      filter_eq_nil_iff.2 fun r h hno => hmarked r h (of_decide_eq_true hno),
      filter_eq_self.2 fun r h => decide_eq_true (hr r h), nil_append]

lemma markNew_fst {α : Type*} (known : α → Bool) (r : α × PlanState) :
    (markNew known r).1 = r.1 := by
  rw [markNew]
  split <;> rfl

lemma markNew_known {α : Type*} {known : α → Bool} {r : α × PlanState}
    (h : known r.1 = true) : markNew known r = r := by
  rw [markNew, h]
  exact if_neg fun hno => Bool.false_ne_true hno.1

/-- Marking what is new leaves the same marks on both sides. -/
lemma Paired.marked {known : String → Bool} {u : ℕ → ℕ} {rows rows' : List Row}
    (h : Paired (Alike known u) rows rows') (hlive : ∀ r ∈ rows, r.2 ≠ .removed) :
    (rows'.map (markNew fun c => known c.id)).Perm
      ((rows.map (markNew fun c => known c.id)).map (rowInUnits u)) := by
  obtain ⟨m, hm, hperm⟩ := h
  refine (hperm.map _).symm.trans (Perm.of_eq ?_)
  clear hperm
  induction hm with
  | nil => rfl
  | @cons r r' l l' hr _ ih =>
    rw [map_cons, map_cons, map_cons, ih fun x hx => hlive x (mem_cons_of_mem _ hx)]
    refine congrArg (· :: _) ?_
    obtain ⟨c, st⟩ := r
    obtain ⟨c', st'⟩ := r'
    obtain ⟨hrecord, hmark⟩ := hr
    have hrecord : c' = c.inUnits u := hrecord
    subst hrecord
    have hstate : st ≠ .removed := hlive (c, st) mem_cons_self
    have hid : known (c.inUnits u).id = known c.id := rfl
    rw [markNew, markNew, hid]
    rcases hmark with hm | ⟨hm, hnew⟩
    · have hm : st' = st := hm
      subst hm
      split <;> rfl
    · have hm : st' = .set := hm
      have hnew : known c.id = false := hnew
      subst hm
      rw [hnew, if_neg fun hno => by cases hno.2]
      cases st with
      | kept => rfl
      | set => rfl
      | removed => exact absurd rfl hstate

namespace Batch
variable {b : Batch}

/-- Both planners lead to the same text and to the same stored records: the same live rows with the
same marks in some order, the same gaps, and the same records deleted. -/
structure Agrees (b : Batch) : Prop where
  text : b.browserText = utf16 b.text
  changes : b.browserPlan.liveChanges.Perm (b.plan.liveChanges.map (rowInUnits (offset b.text)))
  gaps : b.browserPlan.liveGaps = b.plan.liveGaps.map (gapInUnits (offset b.text))
  goneChanges : (b.browserPlan.goneChanges.map (·.1.id)).Perm (b.plan.goneChanges.map (·.1.id))
  goneGaps : (Browser.gapEntries b.browserPlan.goneGaps).Perm (gapEntries b.plan.goneGaps)

/-- The same call for the first edits only. -/
def upTo (b : Batch) (es : List Edit) : Batch := { b with edits := es }

lemma browserPlan_changes (b : Batch) : b.browserPlan.changes =
    (b.browserPassed b.edits).changes.map (markNew fun c => b.known c.id) ++
      (b.browserPassed b.edits).removedChanges := by
  rw [browserPlan, Browser.planEdits, browserLoop_eq, Browser.finishPlan]
  simp only [unitState_known]

lemma browserPlan_gaps (b : Batch) : b.browserPlan.gaps =
    (b.browserPassed b.edits).gaps.map
        (markNew fun g => b.state.gaps.any fun o => o.id = g.id) ++
      (b.browserPassed b.edits).removedGaps := by
  rw [browserPlan, Browser.planEdits, browserLoop_eq, Browser.finishPlan]
  simp only [unitState_gaps]

lemma Matches.live {lo : ℕ} {p : Progress} {q : Browser.Progress} (h : b.Matches lo p q) :
    (∀ r ∈ q.changes, r.2 ≠ .removed) ∧ ∀ g ∈ q.gaps, g.2 ≠ .removed := by
  constructor
  · intro r' hr'
    obtain ⟨r, hr, -, hmark⟩ := h.rows.exists_left hr'
    rcases hmark with hm | ⟨hm, -⟩
    · rw [hm]
      exact h.plain.live r hr
    · rw [hm]
      rintro ⟨⟩
  · intro g' hg'
    rw [h.gaps] at hg'
    obtain ⟨g, hg, rfl⟩ := mem_map.1 hg'
    exact h.plain.liveGaps g hg

lemma Matches.agrees {lo : ℕ} (h : b.Matches lo b.loop (b.browserPassed b.edits)) :
    b.Agrees := by
  have hrows := filter_finished (fun c : ChangeRecord => b.known c.id) h.plain.live h.gone.1
  have hrows' := filter_finished (fun c : ChangeRecord => b.known c.id) h.live.1 h.gone.2.1
  have hgaps := filter_finished (fun g : Gap => b.state.gaps.any fun o => o.id = g.id)
    h.plain.liveGaps h.gone.2.2.1
  have hgaps' := filter_finished (fun g : Browser.Gap => b.state.gaps.any fun o => o.id = g.id)
    h.live.2 h.gone.2.2.2
  refine ⟨?_, ?_, ?_, ?_, ?_⟩
  · rw [browserText, Browser.planText, browserLoop_eq, text_eq]
    exact h.cur
  · rw [Browser.Plan.liveChanges, browserPlan_changes, hrows'.1]
    have hlive : b.plan.liveChanges = _ := hrows.1
    rw [hlive, text_eq]
    exact h.rows.marked h.plain.live
  · rw [Browser.Plan.liveGaps, browserPlan_gaps, hgaps'.1]
    have hlive : b.plan.liveGaps = _ := hgaps.1
    rw [hlive, text_eq, h.gaps, map_map, map_map]
    refine map_congr_left fun g _ => ?_
    rw [Function.comp_apply, Function.comp_apply, markNew, markNew]
    by_cases hnew : (!b.state.gaps.any fun o => o.id = g.1.id) = true ∧ g.2 = .kept
    · rw [if_pos hnew]
      exact if_pos hnew
    · rw [if_neg hnew]
      exact if_neg hnew
  · rw [Browser.Plan.goneChanges, browserPlan_changes, hrows'.2]
    have hgone : b.plan.goneChanges = _ := hrows.2
    rw [hgone]
    exact h.removedRows
  · rw [Browser.Plan.goneGaps, browserPlan_gaps, hgaps'.2]
    have hgone : b.plan.goneGaps = _ := hgaps.2
    rw [hgone]
    exact h.removedGaps

lemma Ready.upTo (h : b.Ready) {es : List Edit} (hes : es <+: b.edits) : (b.upTo es).Ready where
  valid := h.valid
  fresh := h.fresh
  fits := by
    obtain ⟨rest, hrest⟩ := hes
    have hfits := h.fits
    rw [← hrest, fitsFrom_append] at hfits
    exact hfits.1

/-- An edit that changes nothing empties nothing. -/
lemma spared_of_noop {c : Call} {known : String → Bool} (heq : c.edit.ef = c.edit.et)
    (hinsert : c.edit.insert = []) : c.Spared known := by
  intro r _ _ _ hempties
  rw [Empties] at hempties
  split at hempties
  · next hab =>
    have hsome : c.mine.isSome = true := (Bool.and_eq_true_iff.1 hab).1
    rw [Call.mine_isSome] at hsome
    rcases (recordsChange_iff.1 hsome).2 with ⟨p, h1, h2, -⟩ | hlen
    · omega
    · rw [OneEdit.len, hinsert] at hlen
      exact absurd hlen (Nat.lt_irrefl _)
  · obtain ⟨hspan, hfrom, hto⟩ := hempties
    have hlt := (hasSpan_iff _).1 hspan
    omega

/-- The plan of the server keeps the row that the last edit empties, and the browser's writes it. -/
lemma Ready.not_agrees (h : b.Ready) (hr : b.state.Resolved) {es : List Edit} {e : Edit}
    (hes : es ++ [e] <+: b.edits)
    (hbefore : ∀ es' e', es' ++ [e'] <+: es → (b.call (b.after es') e').Spared b.known)
    (hunspared : ¬(b.call (b.after es) e).Spared b.known) : ¬(b.upTo (es ++ [e])).Agrees := by
  intro hagrees
  obtain ⟨hlo, hle, hb⟩ := h.fits_concat hes
  obtain ⟨hs, hm⟩ := h.matches_after hr ((prefix_append _ _).trans hes) hbefore
  have hready := hs.ready hlo hle hb
  have hnoop : ¬((b.call (b.after es) e).edit.ef = (b.call (b.after es) e).edit.et ∧
      e.insert = []) := fun hno => hunspared (spared_of_noop hno.1 hno.2)
  have hskip : ¬((b.call (b.after es) e).unitEdit.ef = (b.call (b.after es) e).unitEdit.et ∧
      (b.call (b.after es) e).unitEdit.len = 0) := by
    rintro ⟨heq, hlen⟩
    exact hnoop ⟨hready.carries.mono.injective (hready.carries.ef.symm.trans
      (heq.trans hready.carries.et)), length_eq_zero_iff.1 (hready.carries.len.1 hlen)⟩
  obtain ⟨r, hmem, hknown, hset, hempties⟩ : ∃ r ∈ (b.call (b.after es) e).changes,
      b.known r.1.id = true ∧ r.2 = .set ∧ Empties (b.call (b.after es) e).edit
        (b.call (b.after es) e).mine (b.call (b.after es) e).owned r.1 := by
    unfold Call.Spared at hunspared
    push Not at hunspared
    exact hunspared
  obtain ⟨⟨x', hx', hid', hset'⟩, hkept⟩ := hready.unspared hm.plain hm.rows hmem hset hempties
  have hlive' : x' ∈ (b.upTo (es ++ [e])).browserPlan.liveChanges := by
    refine mem_filter.2 ⟨?_, decide_eq_true (by rw [hset']; rintro ⟨⟩)⟩
    rw [browserPlan_changes]
    refine mem_append_left _ (mem_map.2 ⟨x', ?_, ?_⟩)
    · show x' ∈ (b.browserPassed (es ++ [e])).changes
      rw [browserPassed_concat, hm.browserStep_eq hlo hle, if_neg hskip]
      exact hx'
    · rw [markNew, if_neg]
      rintro ⟨-, hno⟩
      cases hno.symm.trans hset'
  obtain ⟨x, hx, rfl⟩ := mem_map.1 (hagrees.changes.mem_iff.1 hlive')
  have hset : x.2 = .set := hset'
  have hid : x.1.id = r.1.id := hid'
  have hnext : (b.after (es ++ [e])) = b.next (b.after es) e := by
    rw [after_concat, step_eq, if_neg hnoop]
  rcases mem_append.1 (mem_of_mem_filter hx) with hx | hx
  · obtain ⟨y, hy, rfl⟩ := mem_map.1 hx
    have hy : y ∈ (b.after (es ++ [e])).changes := hy
    rw [hnext] at hy
    rw [markNew_fst] at hid
    rw [markNew_known (hid ▸ hknown)] at hset
    cases (hkept y hy hid).symm.trans hset
  · have hx : x ∈ (b.after (es ++ [e])).removedChanges := hx
    rw [hnext] at hx
    cases ((notes_noteRemoved _).fold_gone hm.gone.1 x hx).symm.trans hset

lemma Ready.spared_of_agrees (h : b.Ready) (hr : b.state.Resolved)
    (hagrees : ∀ es, es <+: b.edits → (b.upTo es).Agrees) : b.Spared := by
  suffices key : ∀ n es e, es.length = n → es ++ [e] <+: b.edits →
      (b.call (b.after es) e).Spared b.known from fun es e => key es.length es e rfl
  intro n
  induction n using Nat.strong_induction_on with
  | _ n ih =>
    intro es e hlen hes
    by_contra hunspared
    refine h.not_agrees hr hes (fun es' e' hes' => ?_) hunspared (hagrees _ hes)
    have hshort := hes'.length_le
    rw [length_append, length_singleton] at hshort
    exact ih es'.length (by omega) es' e' rfl (hes'.trans ((prefix_append _ _).trans hes))

end Batch

/-- A batch and all its prefixes lead to the same text and the same stored records in both planners
exactly when no edit of it empties a stored row that an earlier edit has marked to be written. -/
theorem planners_agree_iff {b : Batch} (h : b.Ready) (hr : b.state.Resolved) :
    (∀ es, es <+: b.edits → (b.upTo es).Agrees) ↔ b.Spared := by
  constructor
  · exact h.spared_of_agrees hr
  · intro hspared es hes
    have hspared' : ∀ es' e, es' ++ [e] <+: es →
        ((b.upTo es).call ((b.upTo es).after es') e).Spared (b.upTo es).known :=
      fun es' e hes' => hspared es' e (hes'.trans hes)
    exact ((h.upTo hes).matches_after hr (prefix_refl es) hspared').2.agrees

/-- An author inserts text. -/
def sampleTyped : Batch where
  fresh := names
  before := "a😀cdeij".toList
  state := noChanges
  edits := [⟨5, 5, "fgh".toList⟩]
  me := ⟨"u1", "Ann"⟩
  run := none
  now := 1
  untracked := false
  taken := 0

/-- The same author deletes the text before the inserted one and its beginning, and then the rest of
the inserted text. -/
def sampleDrift : Batch where
  fresh := names
  before := "a😀cdefghij".toList
  state := sampleTyped.plan.storedAs "f"
  edits := [⟨3, 6, []⟩, ⟨6, 8, []⟩]
  me := ⟨"u1", "Ann"⟩
  run := none
  now := 2
  untracked := false
  taken := 1

lemma sampleDrift_ready : sampleDrift.Ready where
  valid := (ReadBack.storedAs _ "f").valid
    (Batch.Ready.plan_valid (b := sampleTyped) ⟨noChanges_valid 7, names_fresh 0, by decide⟩)
  fresh := names_new [0] (by decide) (by decide)
  fits := by decide

lemma sampleDrift_resolved : sampleDrift.state.Resolved where
  named g hg := by
    have hnone : sampleDrift.state.gaps = [] := by decide
    rw [hnone] at hg
    exact absurd hg not_mem_nil
  orphan := by decide

theorem planners_drift : sampleDrift.Ready ∧ sampleDrift.state.Resolved ∧ ¬sampleDrift.Agrees := by
  refine ⟨sampleDrift_ready, sampleDrift_resolved, fun h => ?_⟩
  have hwritten : ∃ r ∈ sampleDrift.browserPlan.liveChanges, r.1.id = names 0 ∧ r.2 = .set := by
    decide
  have hkept : ∀ r ∈ sampleDrift.plan.liveChanges, r.1.id = names 0 → r.2 = .kept := by decide
  obtain ⟨r', hr', hid, hset⟩ := hwritten
  obtain ⟨r, hr, rfl⟩ := mem_map.1 (h.changes.mem_iff.1 hr')
  cases (hkept r hr hid).symm.trans hset

theorem planners_agree_iff_drift :
    (∀ es, es <+: sampleDrift.edits → (sampleDrift.upTo es).Agrees) ↔ sampleDrift.Spared :=
  planners_agree_iff sampleDrift_ready sampleDrift_resolved

end LibrePaper.Track
