import LibrePaper.Library.Orders
import LibrePaper.Track.Twins

/-!
# One edit in both planners

An edit leaves the same rows in both planners, up to their offsets and their order, as long as it
empties no stored row that is marked to be written. Of such a row only the browser keeps the mark.
-/
namespace LibrePaper.Track
open Library List
open Anchors.Browser (Units utf16)

/-- The rows of one list correspond to the rows of the other, in some order. -/
def Paired (R : Row → Row → Prop) (l l' : List Row) : Prop :=
  ∃ m, List.Forall₂ R l m ∧ m.Perm l'

namespace Paired
variable {R S : Row → Row → Prop} {l l' a a' b b' : List Row}

lemma of_forall₂ (h : Forall₂ R l l') : Paired R l l' := ⟨l', h, Perm.refl _⟩

lemma perm_left (hp : a.Perm l) (h : Paired R l l') : Paired R a l' := by
  obtain ⟨m, hm, hperm⟩ := h
  obtain ⟨n, hn, hnm⟩ := perm_comp_forall₂ hp hm
  exact ⟨n, hn, hnm.trans hperm⟩

lemma perm_right (h : Paired R l l') (hp : l'.Perm a) : Paired R l a := by
  obtain ⟨m, hm, hperm⟩ := h
  exact ⟨m, hm, hperm.trans hp⟩

lemma append (h : Paired R a a') (k : Paired R b b') : Paired R (a ++ b) (a' ++ b') := by
  obtain ⟨m, hm, hmp⟩ := h
  obtain ⟨n, hn, hnp⟩ := k
  exact ⟨m ++ n, rel_append hm hn, hmp.append hnp⟩

lemma flatMap (h : Paired R l l') {f g : Row → List Row}
    (hfg : ∀ r ∈ l, ∀ r', R r r' → Forall₂ S (f r) (g r')) :
    Paired S (l.flatMap f) (l'.flatMap g) := by
  obtain ⟨m, hm, hperm⟩ := h
  refine ⟨m.flatMap g, ?_, hperm.flatMap_right g⟩
  clear hperm
  induction hm with
  | nil => exact .nil
  | cons hr _ ih =>
    rw [flatMap_cons, flatMap_cons]
    exact rel_append (hfg _ mem_cons_self _ hr) (ih fun r h => hfg r (mem_cons_of_mem _ h))

lemma exists_right (h : Paired R l l') {r : Row} (hr : r ∈ l) : ∃ r' ∈ l', R r r' := by
  obtain ⟨m, hm, hperm⟩ := h
  obtain ⟨r', hr', hR⟩ := (forall₂_exists hm).1 r hr
  exact ⟨r', hperm.mem_iff.1 hr', hR⟩

lemma exists_left (h : Paired R l l') {r' : Row} (hr : r' ∈ l') : ∃ r ∈ l, R r r' := by
  obtain ⟨m, hm, hperm⟩ := h
  exact (forall₂_exists hm).2 r' (hperm.mem_iff.2 hr)

lemma same {known : String → Bool} {u : ℕ → ℕ} (h : Paired (Alike known u) l l') :
    Same u l l' := by
  obtain ⟨m, hm, hperm⟩ := h
  have heq : m.map Prod.fst = (l.map Prod.fst).map (ChangeRecord.inUnits u) := by
    clear hperm
    induction hm with
    | nil => rfl
    | cons hr _ ih =>
      rw [map_cons, ih, hr.1]
      rfl
  rw [Same, ← heq]
  exact (hperm.map Prod.fst).symm

end Paired

lemma settle_perm {α : Type*} {κ : Type*} [LinearOrder κ] (key : α → κ) (f g : α → α)
    (p : α → Bool) (l : List α) : ((sortByKey key ((l.map f).filter p)).map g).Perm
      (l.flatMap fun y => if p (f y) = true then [g (f y)] else []) := by
  refine ((sortByKey_perm key _).map g).trans (Perm.of_eq ?_)
  induction l with
  | nil => rfl
  | cons y l ih =>
    rw [map_cons, filter_cons, flatMap_cons, ← ih]
    split <;> rfl

section Settle
variable {known : String → Bool} {v : ℕ → ℕ}

lemma reviveRow_eq (gaps : List GapRow) (c : ChangeRecord) (st : PlanState) :
    reviveRow gaps (c, st) = ({ c with emptied := c.emptied && !referenced gaps c.id }, st) := by
  obtain ⟨id, who, author, run, stamp, fromPos, toPos, emptied, stale, orphan⟩ := c
  rw [reviveRow]
  cases emptied <;> cases referenced gaps id <;> rfl

lemma browser_reviveRow_eq (gaps : List Browser.GapRow) (c : ChangeRecord) (st : PlanState) :
    Browser.reviveRow gaps (c, st) =
      ({ c with emptied := c.emptied && !Browser.referenced gaps c.id }, st) := by
  obtain ⟨id, who, author, run, stamp, fromPos, toPos, emptied, stale, orphan⟩ := c
  rw [Browser.reviveRow]
  cases emptied <;> cases Browser.referenced gaps id <;> rfl

variable {c : ChangeRecord} {st : PlanState}

/-- A deletion sits at the gap of its first fragment, wherever it stood. -/
lemma seatRow_bare {gaps : List GapRow} (h : c.fromPos = c.toPos) {found : Option GapRow}
    (hfound : gaps.find? (fun g => g.1.fragments.any fun f => f.change = c.id) = found) :
    seatRow gaps (c, st) = found.elim (c, st) fun g =>
      ({ c with fromPos := g.1.point, toPos := g.1.point }, st) := by
  obtain ⟨id, who, author, run, stamp, fromPos, toPos, emptied, stale, orphan⟩ := c
  cases h
  have hspan : ¬hasSpan ⟨id, who, author, run, stamp, fromPos, fromPos, emptied, stale, orphan⟩ =
      true := fun hno => Nat.lt_irrefl _ ((hasSpan_iff _).1 hno)
  rw [seatRow, if_neg hspan, hfound]
  cases found with
  | none => rfl
  | some g =>
    by_cases heq : fromPos = g.1.point
    · subst heq
      exact if_pos rfl
    · exact if_neg heq

lemma browser_seatRow_bare {gaps : List Browser.GapRow} (h : c.fromPos = c.toPos)
    {found : Option Browser.GapRow}
    (hfound : gaps.find? (fun g => g.1.fragments.any fun f => f.change = c.id) = found) :
    Browser.seatRow gaps (c, st) = found.elim (c, st) fun g =>
      ({ c with fromPos := g.1.point, toPos := g.1.point }, st) := by
  obtain ⟨id, who, author, run, stamp, fromPos, toPos, emptied, stale, orphan⟩ := c
  cases h
  have hspan : ¬hasSpan ⟨id, who, author, run, stamp, fromPos, fromPos, emptied, stale, orphan⟩ =
      true := fun hno => Nat.lt_irrefl _ ((hasSpan_iff _).1 hno)
  rw [Browser.seatRow, if_neg hspan, hfound]
  cases found with
  | none => rfl
  | some g =>
    by_cases heq : fromPos = g.1.point
    · subst heq
      exact if_pos rfl
    · exact if_neg heq

lemma browser_seatRow_state (gaps : List Browser.GapRow) (r : Row) :
    (Browser.seatRow gaps r).2 = r.2 := by
  rw [Browser.seatRow]
  split
  · rfl
  · split
    · split <;> rfl
    · rfl

lemma browser_seatRow_id (gaps : List Browser.GapRow) (r : Row) :
    (Browser.seatRow gaps r).1.id = r.1.id := by
  rw [Browser.seatRow]
  split
  · rfl
  · split
    · split <;> rfl
    · rfl

/-- An emptied row stays, with its deletions or without. -/
lemma browser_liveRow_emptied (gaps : List Browser.GapRow) {r : Row} (h : r.1.emptied = true) :
    Browser.liveRow gaps (Browser.reviveRow gaps r) = true := by
  obtain ⟨c, st⟩ := r
  have h : c.emptied = true := h
  rw [browser_reviveRow_eq, Browser.liveRow, h]
  cases Browser.referenced gaps c.id with
  | true => rw [Bool.or_true, Bool.true_or]
  | false => rw [Bool.or_comm]; rfl

lemma sorted_inUnits (hv : StrictMono v) (gaps : List GapRow) :
    sortByKey (fun g : Browser.GapRow => g.1.point) (gaps.map (gapInUnits v)) =
      (sortByKey (fun g : GapRow => g.1.point) gaps).map (gapInUnits v) :=
  sortByKey_map (fun g : GapRow => g.1.point) (fun g : Browser.GapRow => g.1.point)
    (gapInUnits v) (fun _ _ => hv.le_iff_le) gaps

lemma find_inUnits (gaps : List GapRow) (id : String) :
    ((gaps.map (gapInUnits v)).find? fun g => g.1.fragments.any fun f => f.change = id) =
      (gaps.find? fun g => g.1.fragments.any fun f => f.change = id).map (gapInUnits v) := by
  rw [find?_map]
  refine congrArg _ (congrArg (find? · gaps) (funext fun g => ?_))
  show (g.1.fragments.map Fragment.inUnits).any _ = _
  rw [any_map]
  rfl

/-- A row settles alike. -/
lemma settleRow_alike (hv : StrictMono v) (gaps : List GapRow) {y y' : Row}
    (h : Unseated known v y y') (hle : y.1.fromPos ≤ y.1.toPos) :
    Forall₂ (Alike known v)
      (if liveRow gaps (reviveRow gaps y) = true then
        [seatRow (sortByKey (fun g : GapRow => g.1.point) gaps) (reviveRow gaps y)] else [])
      (if Browser.liveRow (gaps.map (gapInUnits v))
          (Browser.reviveRow (gaps.map (gapInUnits v)) y') = true then
        [Browser.seatRow (sortByKey (fun g : Browser.GapRow => g.1.point)
          (gaps.map (gapInUnits v))) (Browser.reviveRow (gaps.map (gapInUnits v)) y')]
      else []) := by
  obtain ⟨c, st⟩ := y
  obtain ⟨c', st'⟩ := y'
  obtain ⟨hplace, hmark⟩ := h
  have hle : c.fromPos ≤ c.toPos := hle
  obtain ⟨x, z, rfl, hxz⟩ : ∃ x z, c' = { c with fromPos := x, toPos := z } ∧
      (x = v c.fromPos ∧ z = v c.toPos ∨ c.fromPos = c.toPos ∧ c.emptied = false ∧ z = x) := by
    rcases hplace with heq | ⟨hbare, hem, x, heq⟩
    · exact ⟨_, _, heq, .inl ⟨rfl, rfl⟩⟩
    · exact ⟨x, x, heq, .inr ⟨hbare, hem, rfl⟩⟩
  have hspan : x < z ↔ c.fromPos < c.toPos := by
    rcases hxz with ⟨rfl, rfl⟩ | ⟨hbare, -, rfl⟩
    · exact hv.lt_iff_lt
    · rw [hbare]
      exact ⟨fun hno => absurd hno (Nat.lt_irrefl _), fun hno => absurd hno (Nat.lt_irrefl _)⟩
  have hlive : Browser.liveRow (gaps.map (gapInUnits v)) (Browser.reviveRow
      (gaps.map (gapInUnits v)) ({ c with fromPos := x, toPos := z }, st')) =
        liveRow gaps (reviveRow gaps (c, st)) := by
    rw [reviveRow_eq, browser_reviveRow_eq, liveRow, Browser.liveRow, referenced_inUnits, hasSpan,
      hasSpan, decide_eq_decide.2 hspan]
  rw [hlive]
  by_cases hkeep : liveRow gaps (reviveRow gaps (c, st)) = true
  swap
  · rw [if_neg hkeep, if_neg hkeep]
    exact .nil
  rw [if_pos hkeep, if_pos hkeep, reviveRow_eq, browser_reviveRow_eq, referenced_inUnits,
    sorted_inUnits hv]
  refine .cons ⟨?_, ?_⟩ .nil
  · by_cases hbare : c.fromPos = c.toPos
    · have hbare' : x = z := by
        rcases hxz with ⟨rfl, rfl⟩ | ⟨-, -, rfl⟩
        · rw [hbare]
        · rfl
      set sorted := sortByKey (fun g : GapRow => g.1.point) gaps with hsorted
      rw [seatRow_bare (c := { c with emptied := c.emptied && !referenced gaps c.id }) hbare rfl,
        browser_seatRow_bare (c := { c with
          fromPos := x
          toPos := z
          emptied := c.emptied && !referenced gaps c.id }) hbare' (find_inUnits sorted c.id)]
      cases hfound : sorted.find? fun g => g.1.fragments.any fun f => f.change = c.id with
      | some g => rfl
      | none =>
        rcases hxz with ⟨rfl, rfl⟩ | ⟨-, hem, rfl⟩
        · rfl
        · have href : referenced gaps c.id = true := by
            rw [reviveRow_eq, liveRow, hem, hasSpan, decide_eq_false (by
              show ¬c.fromPos < c.toPos
              omega), Bool.false_and, Bool.or_false, Bool.false_or] at hkeep
            exact hkeep
          obtain ⟨g, hg, howns⟩ := any_eq_true.1 href
          have hg : g ∈ sorted := (mem_sortByKey _ _ _).2 hg
          exact absurd howns (find?_eq_none.1 hfound g hg)
    · have hhas : hasSpan { c with emptied := c.emptied && !referenced gaps c.id } = true :=
        (hasSpan_iff _).2 (Nat.lt_of_le_of_ne hle hbare)
      obtain ⟨rfl, rfl⟩ : x = v c.fromPos ∧ z = v c.toPos :=
        hxz.resolve_right fun hno => hbare hno.1
      have hhas' : hasSpan { c with
          fromPos := v c.fromPos
          toPos := v c.toPos
          emptied := c.emptied && !referenced gaps c.id } = true :=
        (hasSpan_iff _).2 (hv.lt_iff_lt.2 (Nat.lt_of_le_of_ne hle hbare))
      rw [seatRow, if_pos hhas, Browser.seatRow, if_pos hhas']
      rfl
  · have hid := (seatRow_same (sortByKey (fun g : GapRow => g.1.point) gaps)
      ({ c with emptied := c.emptied && !referenced gaps c.id }, st)).1
    rw [Marked, seatRow_state, browser_seatRow_state, hid]
    exact hmark

end Settle

/-- Stored fragments have ids, a fragment that is read as a change has no span, and nothing is
removed. -/
structure Plain (rows : List Row) (gaps : List GapRow) : Prop where
  named : NamedGaps gaps
  orphan : ∀ r ∈ rows, r.1.orphan = true → hasSpan r.1 = false
  live : ∀ r ∈ rows, r.2 ≠ .removed
  liveGaps : ∀ g ∈ gaps, g.2 ≠ .removed

variable {e : OneEdit} {mine : Option ChangeRecord} {owned : List String} {r : Row}

lemma keepRow_orphan {x : Row} (hr : r.1.orphan = true → hasSpan r.1 = false)
    (hx : x ∈ keepRow e mine owned r) (horphan : x.1.orphan = true) : hasSpan x.1 = false := by
  by_cases hspan : hasSpan r.1 = true
  · have hno : r.1.orphan = false :=
      Bool.eq_false_iff.2 fun ho => Bool.false_ne_true ((hr ho).symm.trans hspan)
    simp only [keepRow] at hx
    split_ifs at hx <;> simp only [not_mem_nil, mem_singleton] at hx <;> subst hx <;>
      cases hno.symm.trans horphan
  · have hbare : (!hasSpan r.1) = true := by rw [Bool.eq_false_iff.2 hspan]; rfl
    rw [keepRow] at hx
    simp only [if_pos hbare] at hx
    split_ifs at hx <;> simp only [not_mem_nil, mem_singleton] at hx <;> subst hx
    · exact decide_eq_false (Nat.lt_irrefl _)
    · exact Bool.eq_false_iff.2 hspan

lemma keepRow_empties (h : Empties e mine owned r.1) :
    keepRow e mine owned r = [emptiedRow r.1 e] := by
  rw [Empties] at h
  rw [keepRow]
  by_cases hab : absorbedBy mine owned r.1 = true
  · rw [if_pos hab] at h
    simp only [if_pos hab, if_neg h]
  · rw [if_neg hab] at h
    obtain ⟨hspan, hfrom, hto⟩ := h
    have hlt := (hasSpan_iff _).1 hspan
    have hspan' : ¬(!hasSpan r.1) = true := by
      rw [hspan]
      exact Bool.false_ne_true
    simp only [if_neg hab, if_neg hspan', if_neg (show ¬r.1.toPos ≤ e.ef by omega),
      if_neg (show ¬e.et ≤ r.1.fromPos by omega), if_neg (Nat.not_lt.2 hfrom),
      if_neg (Nat.not_lt.2 hto), Nat.lt_irrefl, if_false]
    exact if_neg fun hno => absurd hno.1 (Nat.not_lt.2 hfrom)

lemma browser_keepRow_empties {u v : ℕ → ℕ} {e' : Browser.OneEdit} {r' : Row}
    (h : Carries e e' u v) (hrecord : r'.1 = r.1.inUnits u) (hempties : Empties e mine owned r.1) :
    Browser.keepRow e' (mine.map (ChangeRecord.inUnits v)) owned r' =
      [Browser.emptiedRow r' e'] := by
  rw [Empties] at hempties
  rw [Browser.keepRow]
  simp only [hrecord, absorbedBy_inUnits, mine_id_inUnits, hasSpan_inUnits h.mono]
  by_cases hab : absorbedBy mine owned r.1 = true
  · rw [if_pos hab] at hempties
    rw [if_pos hab]
    exact if_neg hempties
  · rw [if_neg hab] at hempties
    obtain ⟨hspan, hfrom, hto⟩ := hempties
    have hlt := h.mono ((hasSpan_iff _).1 hspan)
    have hspan' : ¬(!hasSpan r.1) = true := by
      rw [hspan]
      exact Bool.false_ne_true
    have hfrom' : e'.ef ≤ (r.1.inUnits u).fromPos := h.ef ▸ h.mono.monotone hfrom
    have hto' : (r.1.inUnits u).toPos ≤ e'.et := h.et ▸ h.mono.monotone hto
    have hlt' : (r.1.inUnits u).fromPos < (r.1.inUnits u).toPos := hlt
    simp only [if_neg hab, if_neg hspan', if_neg (show ¬(r.1.inUnits u).toPos ≤ e'.ef by omega),
      if_neg (show ¬e'.et ≤ (r.1.inUnits u).fromPos by omega), if_neg (Nat.not_lt.2 hfrom'),
      if_neg (Nat.not_lt.2 hto'), Nat.lt_irrefl, if_false]
    exact if_neg fun hno => absurd hno.1 (Nat.not_lt.2 hfrom')

lemma reviveRow_orphan (gaps : List GapRow) (r : Row) :
    (reviveRow gaps r).1.orphan = r.1.orphan := by
  unfold reviveRow
  split <;> rfl

lemma seatRow_orphan (gaps : List GapRow) (r : Row) :
    (seatRow gaps r).1.orphan = r.1.orphan := by
  unfold seatRow
  split
  · rfl
  · split
    · split <;> rfl
    · rfl

namespace Call
variable {c : Call} {known : String → Bool} {rows' : List Row}

/-- The edit in code units. -/
def unitEdit (c : Call) : Browser.OneEdit :=
  ⟨offset c.cur c.edit.ef, offset c.cur c.edit.et, utf16 c.edit.insert⟩

/-- What the browser's planner makes of the edit. -/
def twin (c : Call) (rows' : List Row) : List Row × List Browser.GapRow × ℕ :=
  Browser.planOne c.fresh (utf16 c.cur) rows' (c.gaps.map (gapInUnits (offset c.cur))) c.unitEdit
    c.me c.run c.now c.untracked c.taken

/-- No stored row that is marked to be written is emptied. -/
def Spared (c : Call) (known : String → Bool) : Prop :=
  ∀ r ∈ c.changes, known r.1.id = true → r.2 = .set → ¬Empties c.edit c.mine c.owned r.1

lemma Ready.carries (h : c.Ready) :
    Carries c.edit c.unitEdit (offset c.cur) (offset c.text) :=
  Track.carries h.fits rfl

lemma Ready.one_start (h : c.Ready) : ∀ r ∈ c.changes, ∀ s ∈ c.changes, hasSpan r.1 = true →
    hasSpan s.1 = true → r.1.fromPos = s.1.fromPos → r.1 = s.1 := by
  intro r hr s hs hspan hspan' heq
  rw [hasSpan_iff] at hspan hspan'
  exact h.valid.eq_of_covers hr hs ⟨Nat.le_refl _, hspan⟩ ⟨Nat.le_of_eq heq.symm, heq ▸ hspan'⟩

/-- At most one span is cut in two. -/
lemma Ready.one_split (h : c.Ready) :
    (c.changes.filter (splitsRow c.edit c.mine c.owned)).length ≤ 1 := by
  have hcut : ∀ r ∈ c.changes.filter (splitsRow c.edit c.mine c.owned),
      r ∈ c.changes ∧ r.1.covers c.edit.ef := by
    intro r hr
    obtain ⟨hr, hsplit⟩ := mem_filter.1 hr
    have hle := h.fits.le
    rw [splitsRow, Bool.and_eq_true, Bool.and_eq_true, Bool.and_eq_true, decide_eq_true_eq,
      decide_eq_true_eq] at hsplit
    exact ⟨hr, hsplit.2.1.1.le, Nat.lt_of_le_of_lt hle hsplit.2.1.2⟩
  have hids : ((c.changes.filter (splitsRow c.edit c.mine c.owned)).map (·.1.id)).Nodup :=
    h.ids.sublist (filter_sublist.map _)
  rcases hl : c.changes.filter (splitsRow c.edit c.mine c.owned) with _ | ⟨r, _ | ⟨s, rest⟩⟩
  · exact Nat.zero_le _
  · exact Nat.le_refl _
  · rw [hl] at hcut hids
    obtain ⟨hr, hr'⟩ := hcut r mem_cons_self
    obtain ⟨hs, hs'⟩ := hcut s (mem_cons_of_mem _ mem_cons_self)
    have hid := h.valid.disjoint r hr s hs _ hr' hs'
    rw [map_cons, map_cons, nodup_cons] at hids
    exact absurd (hid ▸ mem_cons_self) hids.1

lemma Ready.solid (h : c.Ready) (hplain : Plain c.changes c.gaps) : Solid c.changes c.owned := by
  intro d hd
  obtain ⟨id, hid, hrow⟩ := mem_filterMap.1 (firstMin_mem hd)
  obtain ⟨⟨s, hs⟩, rfl⟩ := findRow_some hrow
  refine ⟨?_, ?_⟩
  · rw [Bool.eq_false_iff]
    exact fun hem => (h.emptied_not_owned hs hem).2 hid
  · rw [Bool.eq_false_iff]
    intro horphan
    have hbare := hplain.orphan (d, s) hs horphan
    have hu := (owned_row hid).1
    unfold Call.owned ownedIds at hid
    simp only [hu, Bool.false_eq_true, if_false, mem_touchedIds] at hid
    rcases hid with ⟨d', hd', hid⟩ | ⟨hown, -⟩
    · obtain ⟨⟨s', hs'⟩, -, hspan, -⟩ := firstSpan_spec hd'
      have heq := row_ext h.ids hs' hs hid
      cases heq
      cases hspan.symm.trans hbare
    · obtain ⟨d', hd', -, -, horphan'⟩ := ownBare_iff.1 hown
      cases hrow.symm.trans hd'
      cases horphan.symm.trans horphan'

/-- The rows of the browser's planner before they settle. -/
def twinOut (c : Call) (rows' : List Row) : List Row :=
  rows'.flatMap (Browser.keepRow c.unitEdit (c.mine.map (ChangeRecord.inUnits (offset c.text)))
      c.owned) ++
    Browser.newSpans c.fresh c.unitEdit (c.mine.map (ChangeRecord.inUnits (offset c.text)))
      c.owned rows' c.made.2 ++
    (c.mine.map (ChangeRecord.inUnits (offset c.text))).toList.map fun m => (m, .set)

lemma mine_orphan {m : ChangeRecord} (h : c.mine = some m) : m.orphan = false := by
  unfold mine made mineOf at h
  split at h
  · cases hf : firstOwned c.changes c.owned with
    | some d =>
      simp only [hf, Option.some.injEq] at h
      rw [← h]
    | none =>
      simp only [hf, Option.some.injEq] at h
      rw [← h]
  · cases h

lemma Ready.out_paired (h : c.Ready) (hplain : Plain c.changes c.gaps)
    (hpaired : Paired (Alike known (offset c.cur)) c.changes rows') (hspared : c.Spared known) :
    Paired (Unseated known (offset c.text)) c.out (c.twinOut rows') := by
  have hcarries := h.carries
  rw [twinOut, newSpans_inUnits hcarries hpaired.same h.one_split]
  refine .append (.append (hpaired.flatMap fun r hr r' hr' => ?_) (.of_forall₂ ?_)) (.of_forall₂ ?_)
  · exact keepRow_alike hcarries hr' (h.valid.ordered r hr) (hplain.live r hr) (h.passed r hr)
      fun hknown => hspared r hr hknown
  · rw [forall₂_map_right_iff]
    show Forall₂ _ c.halves c.halves
    rw [forall₂_same]
    exact fun r _ => ⟨.inl rfl, .inl rfl⟩
  · cases c.mine with
    | none => exact .nil
    | some m => exact .cons ⟨.inl rfl, .inl rfl⟩ .nil

/-- The browser's planner settles its rows against the same gaps. -/
lemma Ready.twin_settles (h : c.Ready) (hplain : Plain c.changes c.gaps)
    (hpaired : Paired (Alike known (offset c.cur)) c.changes rows') :
    NamedGaps c.gapRows ∧
    c.twin rows' = ((Browser.settle (c.twinOut rows') (c.gapsOut.map
      (gapInUnits (offset c.text)))).1, c.gapRows.map (gapInUnits (offset c.text)), c.ids) := by
  have hcarries := h.carries
  have hsame := hpaired.same
  have hsw : Browser.swallowedGaps (c.gaps.map (gapInUnits (offset c.cur))) c.unitEdit =
      c.sw.map (Gap.inUnits (offset c.cur)) := swallowedGaps_inUnits hcarries
  have howned : Browser.ownedIds rows' (c.gaps.map (gapInUnits (offset c.cur))) c.me c.unitEdit
      c.untracked = c.owned := ownedIds_inUnits hcarries hsame h.ids h.one_start c.untracked
  have hrecords : Browser.recordsChange rows' c.unitEdit c.untracked = c.records :=
    recordsChange_inUnits hcarries hsame c.untracked
  have hmade : Browser.mineOf c.fresh rows' c.owned c.unitEdit c.me c.run c.now c.records c.taken =
      (c.mine.map (ChangeRecord.inUnits (offset c.text)), c.made.2) :=
    mineOf_inUnits hcarries hsame h.ids (h.solid hplain) c.fresh c.run c.now c.records c.taken
  have hend : Browser.ownAtEnd rows' (c.sw.map (Gap.inUnits (offset c.cur))) c.me c.owned
      c.unitEdit = ownAtEnd c.changes c.sw c.me c.owned c.edit :=
    ownAtEnd_inUnits hcarries hsame c.sw c.owned
  have hsplit : (decide (0 < c.unitEdit.len) && !ownAtEnd c.changes c.sw c.me c.owned c.edit) =
      c.splitAtEnd := by
    rw [decide_eq_decide.2 hcarries.pos]
    rfl
  have hnamed : Named (c.sw.flatMap Gap.fragments) := by
    intro f hf
    obtain ⟨g, hg, hf⟩ := mem_flatMap.1 hf
    obtain ⟨g', hg', rfl⟩ := mem_map.1 hg
    exact hplain.named g' (mem_of_mem_filter hg') f hf
  obtain ⟨hmergedNamed, hmerged⟩ := mergedFragments_inUnits (offset c.text) c.mine
    c.owned hnamed hsame hcarries.ef hcarries.et h.fits c.splitAtEnd
  obtain ⟨hafterNamed, hafter⟩ := afterFragments_inUnits (offset c.text) c.mine
    c.owned hnamed hcarries.mono hcarries.et c.splitAtEnd
  have hpos : ((c.mine.map (ChangeRecord.inUnits (offset c.text))).map
      ChangeRecord.fromPos).getD c.unitEdit.ef = offset c.text c.pos := by
    rw [pos]
    cases c.mine with
    | none => exact (hcarries.before _ (Nat.le_refl _)).symm
    | some m => rfl
  have hhalves : (Browser.newSpans c.fresh c.unitEdit
      (c.mine.map (ChangeRecord.inUnits (offset c.text))) c.owned rows' c.made.2).length =
        c.halves.length := by
    rw [newSpans_inUnits hcarries hsame h.one_split, length_map]
    rfl
  have hids : (c.sw.map (Gap.inUnits (offset c.cur))).map Browser.Gap.id = c.sw.map Gap.id := by
    rw [map_map]
    rfl
  obtain ⟨hplacedNamed, hplaced⟩ := placeMerged_inUnits hcarries.mono' c.fresh c.pos hmergedNamed
    (named_keepGap hplain.named) (c.sw.map Gap.id) (c.made.2 + c.halves.length)
  obtain ⟨hallNamed, hall⟩ := placeAfter_inUnits (v := offset c.text) c.fresh c.edit.stop
    hafterNamed hplacedNamed c.placed.2.1 c.placed.2.2
  have hplaced : Browser.placeMerged c.fresh (offset c.text c.pos)
      ((mergedFragments c.cur c.changes c.sw c.mine c.owned c.edit c.splitAtEnd).map
        Fragment.inUnits) ((c.gaps.filterMap (keepGap c.edit)).map (gapInUnits (offset c.text)))
        (c.sw.map Gap.id) (c.made.2 + c.halves.length) =
      (c.placed.1.map (gapInUnits (offset c.text)), c.placed.2) := hplaced
  have hall : Browser.placeAfter c.fresh c.unitEdit.stop
      ((afterFragments c.sw c.mine c.owned c.edit c.splitAtEnd).map Fragment.inUnits)
        (c.placed.1.map (gapInUnits (offset c.text))) c.placed.2.1 c.placed.2.2 =
      (c.all.1.map (gapInUnits (offset c.text)), c.all.2) := by
    rw [← hcarries.stop]
    exact hall
  have hrelabel : (c.all.1.map (gapInUnits (offset c.text))).map (Browser.relabelGap
      (c.mine.map (ChangeRecord.inUnits (offset c.text))) c.owned) =
        c.gapsOut.map (gapInUnits (offset c.text)) := by
    rw [gapsOut, map_map, map_map]
    exact map_congr_left fun g hg => (relabelGap_inUnits (hallNamed g hg)).2
  have hnamedOut : NamedGaps c.gapsOut := by
    intro g hg
    obtain ⟨g', hg', rfl⟩ := mem_map.1 hg
    exact (relabelGap_inUnits (v := offset c.text) (hallNamed g' hg')).1
  refine ⟨fun g hg => hnamedOut g ((mem_sortByKey _ _ _).1 hg), ?_⟩
  rw [twin, Browser.planOne]
  simp only [hsw, howned, hrecords, hmade, hend, hsplit, hmerged, hafter, hpos, hhalves, hids,
    keepGap_inUnits hcarries, hplaced, hall, hrelabel]
  exact Prod.ext rfl (Prod.ext (sorted_inUnits hcarries.mono' c.gapsOut) rfl)

lemma Ready.twin_paired (h : c.Ready) (hplain : Plain c.changes c.gaps)
    (hpaired : Paired (Alike known (offset c.cur)) c.changes rows') (hspared : c.Spared known) :
    Paired (Alike known (offset c.text)) c.rows (c.twin rows').1 := by
  rw [(h.twin_settles hplain hpaired).2]
  have hsettled := (h.out_paired hplain hpaired hspared).flatMap fun y hy y' hy' =>
    settleRow_alike h.carries.mono' c.gapsOut hy' (h.out_ordered hy)
  exact (hsettled.perm_left (settle_perm _ _ _ _ c.out)).perm_right (settle_perm _ _ _ _ _).symm

lemma Ready.plain_next (h : c.Ready) (hplain : Plain c.changes c.gaps)
    (hnamed : NamedGaps c.gapRows) : Plain c.rows c.gapRows where
  named := hnamed
  orphan x hx horphan := by
    obtain ⟨y, hy, -, rfl⟩ := mem_rows.1 hx
    rw [settled, seatRow_orphan, reviveRow_orphan] at horphan
    suffices hbare : hasSpan y.1 = false by
      have heq : y.1.fromPos = y.1.toPos := by
        have hle := h.out_ordered hy
        have hlt := of_decide_eq_false hbare
        omega
      refine decide_eq_false ?_
      have := (settled_bare (c := c) heq).1
      omega
    rcases mem_out.1 hy with ⟨r, hr, hk⟩ | hh | ⟨m, hm, rfl⟩
    · exact keepRow_orphan (hplain.orphan r hr) hk horphan
    · obtain ⟨r, hr, hsplit, i, -, -, rfl⟩ := mem_splitRows hh
      have hbare := hplain.orphan r hr horphan
      have hlt := of_decide_eq_false hbare
      have hle := h.fits.le
      rw [splitsRow, Bool.and_eq_true, Bool.and_eq_true, Bool.and_eq_true, decide_eq_true_eq,
        decide_eq_true_eq] at hsplit
      omega
    · cases (mine_orphan hm).symm.trans horphan
  live := rows_state hplain.live
  liveGaps := gapRows_state hplain.liveGaps

/-- A row that the edit empties stays in both plans. Only the browser's keeps its mark. -/
lemma Ready.unspared (h : c.Ready) (hplain : Plain c.changes c.gaps)
    (hpaired : Paired (Alike known (offset c.cur)) c.changes rows') (hr : r ∈ c.changes)
    (hset : r.2 = .set) (hempties : Empties c.edit c.mine c.owned r.1) :
    (∃ x' ∈ (c.twin rows').1, x'.1.id = r.1.id ∧ x'.2 = .set) ∧
      ∀ x ∈ c.rows, x.1.id = r.1.id → x.2 = .kept := by
  constructor
  · obtain ⟨r', hr', hrecord, hmark⟩ := hpaired.exists_right hr
    have hset' : r'.2 = .set := hmark.elim (fun hm => hm.trans hset) And.left
    have hy : Browser.emptiedRow r' c.unitEdit ∈ c.twinOut rows' := by
      refine mem_append_left _ (mem_append_left _ (mem_flatMap.2 ⟨r', hr', ?_⟩))
      rw [browser_keepRow_empties h.carries hrecord hempties]
      exact mem_singleton_self _
    rw [(h.twin_settles hplain hpaired).2]
    have hmem := (settle_perm (fun r : Row => toLex (r.1.fromPos, r.1.toPos))
      (Browser.reviveRow (c.gapsOut.map (gapInUnits (offset c.text))))
      (Browser.seatRow (sortByKey (fun g : Browser.GapRow => g.1.point)
        (c.gapsOut.map (gapInUnits (offset c.text)))))
      (Browser.liveRow (c.gapsOut.map (gapInUnits (offset c.text)))) (c.twinOut rows')).mem_iff.2
        (mem_flatMap.2 ⟨_, hy, by
          rw [if_pos (browser_liveRow_emptied _ rfl)]
          exact mem_singleton_self _⟩)
    refine ⟨_, hmem, ?_, ?_⟩
    · have hid : r'.1.id = r.1.id := by
        rw [hrecord]
        rfl
      rw [browser_seatRow_id, browser_reviveRow_eq]
      exact hid
    · rw [browser_seatRow_state, browser_reviveRow_eq]
      exact hset'
  · intro x hx hid
    have hy : emptiedRow r.1 c.edit ∈ c.out := by
      refine mem_out.2 (.inl ⟨r, hr, ?_⟩)
      rw [keepRow_empties hempties]
      exact mem_singleton_self _
    have hx' : c.settled (emptiedRow r.1 c.edit) ∈ c.rows :=
      mem_rows.2 ⟨_, hy, liveRow_revive.2 (.inr (.inr rfl)), rfl⟩
    have hid' : x.1.id = (c.settled (emptiedRow r.1 c.edit)).1.id := by
      rw [(settled_same _).1]
      exact hid
    have heq := inj_on_of_nodup_map (ids_rows h.ids h.fresh) hx hx' hid'
    rw [heq, settled, seatRow_state, reviveRow_state]
    rfl

end Call

end LibrePaper.Track
