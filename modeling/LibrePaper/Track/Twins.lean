import LibrePaper.Track.Offsets
import LibrePaper.Track.Fragments

/-!
# The planner and its twin in the browser

One edit makes the same rows in both, in their own offsets, as long as no row that is marked to be
written is emptied: the planner resets such a row's mark and its twin keeps it.
-/
namespace LibrePaper.Track
open Library List
open Anchors.Browser (Units utf16)

variable {α : Type*} {l : List α}

lemma firstMin_map {β : Type*} (f : α → β) (lt : β → β → Bool) (l : List α) :
    firstMin lt (l.map f) = (firstMin (fun a b => lt (f a) (f b)) l).map f := by
  induction l with
  | nil => rfl
  | cons a l ih =>
    rw [map_cons, firstMin, firstMin, ih]
    cases firstMin (fun a b => lt (f a) (f b)) l with
    | none => rfl
    | some b =>
      simp only [Option.map_some]
      exact (apply_ite (Option.map f) (lt (f b) (f a) = true) (some b) (some a)).symm

lemma firstMin_congr {lt lt' : α → α → Bool} (h : ∀ a ∈ l, ∀ b ∈ l, a ≠ b → lt a b = lt' a b) :
    firstMin lt l = firstMin lt' l := by
  induction l with
  | nil => rfl
  | cons a l ih =>
    rw [firstMin, firstMin, ih fun b hb c hc => h b (mem_cons_of_mem _ hb) c (mem_cons_of_mem _ hc)]
    cases hfirst : firstMin lt' l with
    | none => rfl
    | some b =>
      by_cases hab : b = a
      · subst hab
        simp
      · simp only [h b (mem_cons_of_mem _ (firstMin_mem hfirst)) a mem_cons_self hab]

/-- The first minimum of a key that tells the elements apart does not depend on their order. -/
lemma firstMin_perm {κ : Type*} [LinearOrder κ] (key : α → κ) {l' : List α} (hperm : l.Perm l')
    (hkey : ∀ a ∈ l, ∀ b ∈ l, key a = key b → a = b) :
    firstMin (fun a b => decide (key a < key b)) l =
      firstMin (fun a b => decide (key a < key b)) l' := by
  cases hl : firstMin (fun a b => decide (key a < key b)) l with
  | none =>
    rw [firstMin_eq_none] at hl
    subst hl
    rw [nil_perm.1 hperm, firstMin]
  | some a =>
    cases hl' : firstMin (fun a b => decide (key a < key b)) l' with
    | none =>
      rw [firstMin_eq_none] at hl'
      subst hl'
      rw [perm_nil.1 hperm, firstMin] at hl
      cases hl
    | some b =>
      have ha := firstMin_mem hl
      have hb := hperm.mem_iff.2 (firstMin_mem hl')
      refine congrArg some (hkey a ha b hb (le_antisymm ?_ ?_))
      · exact firstMin_key_le key hl b hb
      · exact firstMin_key_le key hl' a (hperm.mem_iff.1 ha)

section Changes
variable {u v : ℕ → ℕ} {rows rows' : List Row} {gaps : List GapRow} {e : OneEdit}
  {e' : Browser.OneEdit} {me : Author}

lemma swallowedGaps_inUnits (h : Carries e e' u v) :
    Browser.swallowedGaps (gaps.map (gapInUnits u)) e' = (swallowed gaps e).map (Gap.inUnits u) := by
  rw [Browser.swallowedGaps, swallowed, filter_map, map_map, map_map]
  refine congrArg (map _) (filter_congr fun g _ => decide_eq_decide.2 ?_)
  rw [h.ef, h.et]
  exact and_congr h.mono.le_iff_le h.mono.le_iff_le

lemma Same.filter (hs : Same u rows rows') (p : ChangeRecord → Bool) :
    ((rows'.filter fun r => p r.1).map Prod.fst).Perm
      (((rows.filter fun r => p (r.1.inUnits u)).map Prod.fst).map (ChangeRecord.inUnits u)) := by
  have hrecords : ∀ (l : List Row) (p : ChangeRecord → Bool),
      (l.filter fun r => p r.1).map Prod.fst = (l.map Prod.fst).filter p := by
    intro l p
    rw [filter_map]
    rfl
  have hright : ((rows.map Prod.fst).map (ChangeRecord.inUnits u)).filter p =
      ((rows.filter fun r => p (r.1.inUnits u)).map Prod.fst).map (ChangeRecord.inUnits u) := by
    rw [hrecords rows fun c => p (c.inUnits u), filter_map]
    rfl
  rw [hrecords, ← hright]
  exact Perm.filter p hs

lemma Same.ids (hs : Same u rows rows') :
    (rows'.map (·.1.id)).Perm (rows.map (·.1.id)) := by
  have hids := Perm.map ChangeRecord.id hs
  rwa [map_map, map_map, map_map] at hids

lemma findRow_inUnits (hs : Same u rows rows') (hn : (rows.map (·.1.id)).Nodup) (id : String) :
    findRow rows' id = (findRow rows id).map (ChangeRecord.inUnits u) := by
  cases hfound : findRow rows id with
  | some c =>
    obtain ⟨⟨s, hc⟩, rfl⟩ := findRow_some hfound
    obtain ⟨r, hr, heq⟩ := mem_map.1 (hs.mem_iff.2 (mem_map_of_mem (mem_map_of_mem hc)))
    have hrow := findRow_of_mem (hs.ids.nodup_iff.2 hn) hr
    rw [heq] at hrow
    exact hrow
  | none =>
    cases hfound' : findRow rows' id with
    | none => rfl
    | some c =>
      obtain ⟨⟨s, hc⟩, rfl⟩ := findRow_some hfound'
      have hid : c.id ∈ rows.map (·.1.id) :=
        hs.ids.mem_iff.1 (mem_map_of_mem (f := fun r : Row => r.1.id) hc)
      obtain ⟨r, hr, heq⟩ := mem_map.1 hid
      have heq : r.1.id = c.id := heq
      rw [← heq, findRow_of_mem hn hr] at hfound
      cases hfound

lemma filterMap_findRow (hs : Same u rows rows') (hn : (rows.map (·.1.id)).Nodup)
    (ids : List String) :
    ids.filterMap (findRow rows') =
      (ids.filterMap (findRow rows)).map (ChangeRecord.inUnits u) := by
  rw [map_filterMap]
  exact filterMap_congr fun id _ => findRow_inUnits hs hn id

lemma ownBare_inUnits (hu : StrictMono u) (hs : Same u rows rows')
    (hn : (rows.map (·.1.id)).Nodup) (id : String) :
    ownBare rows' me id = ownBare rows me id := by
  rw [ownBare, ownBare, findRow_inUnits hs hn]
  cases findRow rows id with
  | none => rfl
  | some c =>
    simp only [Option.map_some, hasSpan_inUnits hu]
    rfl

/-- Spans that begin at one offset are one span, so ids decide nothing. -/
lemma touching_inUnits (h : Carries e e' u v) (hs : Same u rows rows')
    (hone : ∀ r ∈ rows, ∀ s ∈ rows, hasSpan r.1 = true → hasSpan s.1 = true →
      r.1.fromPos = s.1.fromPos → r.1 = s.1) :
    Browser.touching rows' me e' = (firstSpan rows me e).map (ChangeRecord.inUnits u) := by
  have hfilter := hs.filter fun c => decide (c.who = me.who ∧ hasSpan c = true ∧
    c.fromPos ≤ e'.et ∧ e'.ef ≤ c.toPos)
  have htouch : ∀ c : ChangeRecord, ((c.inUnits u).who = me.who ∧ hasSpan (c.inUnits u) = true ∧
      (c.inUnits u).fromPos ≤ e'.et ∧ e'.ef ≤ (c.inUnits u).toPos) ↔
      (c.who = me.who ∧ hasSpan c = true ∧ c.fromPos ≤ e.et ∧ e.ef ≤ c.toPos) := by
    intro c
    rw [hasSpan_inUnits h.mono, h.ef, h.et]
    exact and_congr_right fun _ => and_congr_right fun _ =>
      and_congr h.mono.le_iff_le h.mono.le_iff_le
  simp only [htouch] at hfilter
  set own := (rows.filter fun r => decide (r.1.who = me.who ∧ hasSpan r.1 = true ∧
    r.1.fromPos ≤ e.et ∧ e.ef ≤ r.1.toPos)).map Prod.fst with hown
  have hfrom : ∀ a ∈ own, ∀ b ∈ own, a.fromPos = b.fromPos → a = b := by
    intro a ha b hb heq
    obtain ⟨r, hr, rfl⟩ := mem_map.1 ha
    obtain ⟨s, hs, rfl⟩ := mem_map.1 hb
    obtain ⟨hr, hr'⟩ := mem_filter.1 hr
    obtain ⟨hs, hs'⟩ := mem_filter.1 hs
    exact hone r hr s hs (of_decide_eq_true hr').2.1 (of_decide_eq_true hs').2.1 heq
  have hfrom' : ∀ a ∈ own.map (ChangeRecord.inUnits u), ∀ b ∈ own.map (ChangeRecord.inUnits u),
      a.fromPos = b.fromPos → a = b := by
    intro a ha b hb heq
    obtain ⟨c, hc, rfl⟩ := mem_map.1 ha
    obtain ⟨d, hd, rfl⟩ := mem_map.1 hb
    exact congrArg _ (hfrom c hc d hd (h.mono.injective heq))
  have hplain : ∀ {l : List ChangeRecord}, (∀ a ∈ l, ∀ b ∈ l, a.fromPos = b.fromPos → a = b) →
      ∀ tie : ChangeRecord → ChangeRecord → Bool, firstMin (fun a b => a.fromPos < b.fromPos ||
        (a.fromPos = b.fromPos && tie a b)) l =
          firstMin (fun a b => decide (a.fromPos < b.fromPos)) l := by
    intro l hl tie
    refine firstMin_congr fun a ha b hb hab => ?_
    rw [decide_eq_false fun heq => hab (hl a ha b hb heq), Bool.false_and, Bool.or_false]
  have hfrom'' := fun a ha b hb => hfrom' a (hfilter.mem_iff.1 ha) b (hfilter.mem_iff.1 hb)
  rw [Browser.touching, firstSpan, hplain hfrom'', firstMin_perm _ hfilter hfrom'', firstMin_map,
    hplain hfrom]
  refine congrArg _ (firstMin_congr fun a _ b _ _ => decide_eq_decide.2 ?_)
  exact h.mono.lt_iff_lt

lemma ownedIds_inUnits (h : Carries e e' u v) (hs : Same u rows rows')
    (hn : (rows.map (·.1.id)).Nodup) (hone : ∀ r ∈ rows, ∀ s ∈ rows, hasSpan r.1 = true → hasSpan s.1 = true →
      r.1.fromPos = s.1.fromPos → r.1 = s.1) (untracked : Bool) :
    Browser.ownedIds rows' (gaps.map (gapInUnits u)) me e' untracked =
      ownedIds rows gaps me e untracked := by
  have hfragments : (Browser.swallowedGaps (gaps.map (gapInUnits u)) e').flatMap
      Browser.Gap.fragments = ((swallowed gaps e).flatMap Gap.fragments).map Fragment.inUnits := by
    rw [swallowedGaps_inUnits h, flatMap_map, map_flatMap]
    rfl
  rw [Browser.ownedIds, ownedIds, touchedIds, hfragments, touching_inUnits h hs hone,
    foldl_map, Option.map_map]
  simp only [ownBare_inUnits h.mono hs hn]
  rfl

lemma firstOwned_inUnits (hu : StrictMono u) (hs : Same u rows rows')
    (hn : (rows.map (·.1.id)).Nodup) (owned : List String) :
    firstOwned rows' owned = (firstOwned rows owned).map (ChangeRecord.inUnits u) := by
  rw [firstOwned, firstOwned, filterMap_findRow hs hn, firstMin_map]
  refine congrArg (Option.map _) (firstMin_congr fun a _ b _ _ => decide_eq_decide.2 ?_)
  exact hu.lt_iff_lt

/-- The runs are there where some unit is original. -/
lemma originalRuns_ne_nil (changes : List Row) (et : ℕ) {fuel p : ℕ} (hfuel : et - p ≤ fuel) :
    Browser.originalRuns changes et fuel p ≠ [] ↔ ∃ q, p ≤ q ∧ q < et ∧ ¬Covered changes q := by
  induction fuel generalizing p with
  | zero =>
    rw [Browser.originalRuns]
    exact ⟨absurd rfl, fun ⟨q, h1, h2, _⟩ => by omega⟩
  | succ fuel ih =>
    rw [Browser.originalRuns]
    split
    · next hp =>
      split
      · next s hspan =>
        have hfound : ∃ r ∈ changes, r.1 = s ∧ s.covers p := by
          obtain ⟨r, hr, rfl⟩ := Option.map_eq_some_iff.1 hspan
          refine ⟨r, mem_of_find?_eq_some hr, rfl, ?_⟩
          have := find?_some hr
          exact of_decide_eq_true (Bool.and_eq_true_iff.1 this).2
        obtain ⟨r, hr, rfl, hcov⟩ := hfound
        have hlt := hcov.2
        rw [ih (by omega)]
        refine exists_congr fun q => ⟨fun ⟨h1, h2, h3⟩ => ⟨by omega, h2, h3⟩,
          fun ⟨h1, h2, h3⟩ => ⟨?_, h2, h3⟩⟩
        by_contra hno
        exact h3 ⟨r, hr, hcov.1.trans h1, by omega⟩
      · next hspan =>
        exact ⟨fun _ => ⟨p, Nat.le_refl p, hp, spanAt_eq_none.1 hspan⟩, fun _ => cons_ne_nil _ _⟩
    · next hp => exact ⟨absurd rfl, fun ⟨q, h1, h2, _⟩ => by omega⟩

/-- Every unit between two character offsets belongs to a character between them. -/
lemma exists_character {a b q : ℕ} (h1 : u a ≤ q) (h2 : q < u b) (hab : a ≤ b) :
    ∃ p, a ≤ p ∧ p < b ∧ u p ≤ q ∧ q < u (p + 1) := by
  induction b, hab using Nat.le_induction with
  | base => omega
  | succ b hab ih =>
    by_cases hq : q < u b
    · obtain ⟨p, hp, hpb, h⟩ := ih hq
      exact ⟨p, hp, Nat.lt_succ_of_lt hpb, h⟩
    · exact ⟨b, hab, Nat.lt_succ_self b, Nat.le_of_not_lt hq, h2⟩

lemma recordsChange_inUnits (h : Carries e e' u v) (hs : Same u rows rows') (untracked : Bool) :
    Browser.recordsChange rows' e' untracked = recordsChange rows e untracked := by
  have hruns : (∃ q, e'.ef ≤ q ∧ q < e'.et ∧ ¬Covered rows' q) ↔
      ∃ p, e.ef ≤ p ∧ p < e.et ∧ ¬Covered rows p := by
    refine ⟨fun ⟨q, h1, h2, hq⟩ => ?_, fun ⟨p, h1, h2, hp⟩ => ?_⟩
    · rw [h.ef] at h1
      rw [h.et] at h2
      obtain ⟨p, hp, hpt, h3, h4⟩ := exists_character h1 h2 h.le
      exact ⟨p, hp, hpt, fun hno => hq ((hs.covered h.mono h3 h4).2 hno)⟩
    · refine ⟨u p, h.ef ▸ h.mono.monotone h1, h.et ▸ h.mono.lt_iff_lt.2 h2, fun hno => hp ?_⟩
      exact (hs.covered h.mono (Nat.le_refl _) (h.mono.lt_iff_lt.2 (Nat.lt_succ_self p))).1 hno
  have hleft : decide (0 < (Browser.originalRuns rows' e'.et (e'.et - e'.ef) e'.ef).length) =
      removesOriginal rows e := by
    rw [Bool.eq_iff_iff, decide_eq_true_eq, removesOriginal_iff, length_pos_iff,
      originalRuns_ne_nil rows' e'.et (Nat.le_refl _), hruns]
  rw [Browser.recordsChange, recordsChange, hleft, decide_eq_decide.2 h.pos]

/-- A span that is widened in both offsets. -/
lemma widen_inUnits (h : Carries e e' u v) (hs : Same u rows rows')
    (hn : (rows.map (·.1.id)).Nodup) (owned : List String) :
    Browser.widen rows' owned e' = (v (widenFrom rows owned e), v (widenTo rows owned e)) := by
  have hfold : ∀ (l : List ChangeRecord) (a b : ℕ), a ≤ e.ef →
      (l.map (ChangeRecord.inUnits u)).foldl (fun span c =>
        if hasSpan c then
          (if c.fromPos < span.1 then c.fromPos else span.1,
            if e'.et < c.toPos then max span.2 (e'.shift c.toPos) else span.2)
        else span) (v a, v b) =
      (v (l.foldl (fun fromPos c => if hasSpan c then min fromPos c.fromPos else fromPos) a),
        v (l.foldl (fun toPos c =>
          if hasSpan c ∧ e.et < c.toPos then max toPos (e.shift c.toPos) else toPos) b)) := by
    intro l
    induction l with
    | nil => exact fun _ _ _ => rfl
    | cons c l ih =>
      intro a b ha
      rw [map_cons, foldl_cons, foldl_cons, foldl_cons, hasSpan_inUnits h.mono]
      by_cases hspan : hasSpan c = true
      · have hfrom : (if (c.inUnits u).fromPos < v a then (c.inUnits u).fromPos else v a) =
            v (min a c.fromPos) := by
          have hlt : (c.inUnits u).fromPos < v a ↔ c.fromPos < a := by
            rw [h.before a ha]
            exact h.mono.lt_iff_lt
          by_cases hca : c.fromPos < a
          · rw [if_pos (hlt.2 hca), min_eq_right hca.le, h.before _ (hca.le.trans ha)]
            rfl
          · rw [if_neg fun hno => hca (hlt.1 hno), min_eq_left (Nat.le_of_not_lt hca)]
        have hto : (if e'.et < (c.inUnits u).toPos then max (v b) (e'.shift (c.inUnits u).toPos)
            else v b) = v (if hasSpan c = true ∧ e.et < c.toPos then max b (e.shift c.toPos)
              else b) := by
          have hlt : e'.et < (c.inUnits u).toPos ↔ e.et < c.toPos := by
            rw [h.et]
            exact h.mono.lt_iff_lt
          by_cases hct : e.et < c.toPos
          · rw [if_pos (hlt.2 hct), if_pos ⟨hspan, hct⟩, h.mono'.monotone.map_max,
              h.after _ hct.le]
            rfl
          · rw [if_neg fun hno => hct (hlt.1 hno), if_neg fun hno => hct hno.2]
        rw [if_pos hspan, hfrom, hto, if_pos hspan]
        exact ih _ _ ((Nat.min_le_left _ _).trans ha)
      · rw [if_neg hspan, if_neg hspan, if_neg fun hno => hspan hno.1]
        exact ih _ _ ha
  have hfold := hfold (owned.filterMap (findRow rows)) e.ef e.stop (Nat.le_refl _)
  rw [h.before e.ef (Nat.le_refl _), h.stop, ← h.ef] at hfold
  rw [Browser.widen, filterMap_findRow hs hn]
  exact hfold

/-- The owned rows have a record of their own that is not empty. -/
def Solid (rows : List Row) (owned : List String) : Prop :=
  ∀ c, firstOwned rows owned = some c → c.emptied = false ∧ c.orphan = false

lemma mineOf_inUnits (h : Carries e e' u v) (hs : Same u rows rows')
    (hn : (rows.map (·.1.id)).Nodup) {owned : List String}
    (hsolid : Solid rows owned) (fresh : ℕ → String) (run : Option String) (now : ℤ)
    (records : Bool) (n : ℕ) :
    Browser.mineOf fresh rows' owned e' me run now records n =
      ((mineOf fresh rows owned e me run now records n).1.map (ChangeRecord.inUnits v),
        (mineOf fresh rows owned e me run now records n).2) := by
  rw [Browser.mineOf, mineOf, firstOwned_inUnits h.mono hs hn, widen_inUnits h hs hn]
  cases records with
  | false => rfl
  | true =>
    cases hfirst : firstOwned rows owned with
    | none => rfl
    | some c =>
      obtain ⟨hemptied, horphan⟩ := hsolid c hfirst
      obtain ⟨id, who, author, crun, stamp, fromPos, toPos, emptied, stale, orphan⟩ := c
      cases hemptied
      cases horphan
      rfl

lemma ownAtEnd_inUnits (h : Carries e e' u v) (hs : Same u rows rows') (sw : List Gap)
    (owned : List String) :
    Browser.ownAtEnd rows' (sw.map (Gap.inUnits u)) me owned e' = ownAtEnd rows sw me owned e := by
  have hrecords : ∀ (l : List Row) (p : ChangeRecord → Bool),
      (l.any fun r => p r.1) = (l.map Prod.fst).any p := fun l p => by
    rw [any_map]
    rfl
  have hleft : (rows'.any fun r => r.1.who = me.who && hasSpan r.1 && r.1.fromPos = e'.et &&
      decide (r.1.id ∈ owned)) = rows.any fun r => r.1.who = me.who && hasSpan r.1 &&
        r.1.fromPos = e.et && decide (r.1.id ∈ owned) := by
    rw [hrecords rows' fun c => c.who = me.who && hasSpan c && c.fromPos = e'.et &&
      decide (c.id ∈ owned), hs.any_eq, any_map, hrecords rows fun c => c.who = me.who &&
        hasSpan c && c.fromPos = e.et && decide (c.id ∈ owned)]
    refine congrArg _ (funext fun c => ?_)
    have heq : (c.inUnits u).fromPos = e'.et ↔ c.fromPos = e.et := by
      rw [h.et]
      exact h.mono.injective.eq_iff
    simp only [Function.comp_apply, hasSpan_inUnits h.mono, heq]
    rfl
  have hright : ((sw.map (Gap.inUnits u)).any fun g => g.point = e'.et &&
      g.fragments.any fun f => decide (f.change ∈ owned)) =
        sw.any fun g => g.point = e.et && g.fragments.any fun f => decide (f.change ∈ owned) := by
    rw [any_map]
    refine congrArg _ (funext fun g => ?_)
    have heq : (g.inUnits u).point = e'.et ↔ g.point = e.et := by
      rw [h.et]
      exact h.mono.injective.eq_iff
    have hfragments : (g.inUnits u).fragments = g.fragments.map Fragment.inUnits := rfl
    simp only [Function.comp_apply, heq, hfragments, any_map]
    rfl
  rw [Browser.ownAtEnd, ownAtEnd, hleft, hright]

end Changes

/-- The marks say the same, as a row that is not known is written in any case. -/
def Marked (known : String → Bool) (r r' : Row) : Prop :=
  r'.2 = r.2 ∨ r'.2 = .set ∧ known r.1.id = false

def Alike (known : String → Bool) (u : ℕ → ℕ) (r r' : Row) : Prop :=
  r'.1 = r.1.inUnits u ∧ Marked known r r'

/-- The rows are alike, but for where a deletion stands that is not seated yet. -/
def Unseated (known : String → Bool) (v : ℕ → ℕ) (r r' : Row) : Prop :=
  (r'.1 = r.1.inUnits v ∨ r.1.fromPos = r.1.toPos ∧ r.1.emptied = false ∧
    ∃ x, r'.1 = { r.1 with fromPos := x, toPos := x }) ∧ Marked known r r'

/-- The edit leaves no span of the row, or takes its deletions for another row. -/
def Empties (e : OneEdit) (mine : Option ChangeRecord) (owned : List String)
    (c : ChangeRecord) : Prop :=
  if absorbedBy mine owned c = true then mine.map ChangeRecord.id ≠ some c.id
  else hasSpan c = true ∧ e.ef ≤ c.fromPos ∧ c.toPos ≤ e.et

section Rows
variable {known : String → Bool} {u v : ℕ → ℕ} {e : OneEdit} {e' : Browser.OneEdit}
  {mine : Option ChangeRecord} {owned : List String} {c : ChangeRecord} {r r' : Row}

lemma inUnits_move {a b a' b' : ℕ} (ha : a' = v a) (hb : b' = v b) :
    ({ c.inUnits u with fromPos := a', toPos := b' } : ChangeRecord) =
      ({ c with fromPos := a, toPos := b } : ChangeRecord).inUnits v := by
  subst ha hb
  rfl

lemma absorbedBy_inUnits :
    absorbedBy (mine.map (ChangeRecord.inUnits v)) owned (c.inUnits u) = absorbedBy mine owned c := by
  cases mine <;> rfl

lemma mine_id_inUnits :
    (mine.map (ChangeRecord.inUnits v)).map ChangeRecord.id = mine.map ChangeRecord.id := by
  cases mine <;> rfl

/-- A row that is emptied was not marked to be written. -/
lemma emptiedRow_alike (h : Carries e e' u v) (hr : Alike known u r r') (hlive : r.2 ≠ .removed)
    (hspared : known r.1.id = true → r.2 ≠ .set) :
    Unseated known v (emptiedRow r.1 e) (Browser.emptiedRow r' e') := by
  obtain ⟨hrecord, hmark⟩ := hr
  refine ⟨.inl ?_, ?_⟩
  · rw [Browser.emptiedRow, hrecord, emptiedRow, ← h.stop]
    rfl
  · have hmark' : r'.2 = .kept ∨ r'.2 = .set ∧ known r.1.id = false := by
      cases hstate : r.2 with
      | kept => exact hmark.imp_left fun hm => hm.trans hstate
      | removed => exact absurd hstate hlive
      | set =>
        refine .inr ⟨hmark.elim (fun hm => hm.trans hstate) And.left, ?_⟩
        exact Bool.eq_false_iff.2 fun hknown => hspared hknown hstate
    exact hmark'

lemma keepRow_alike (h : Carries e e' u v) (hr : Alike known u r r')
    (hle : r.1.fromPos ≤ r.1.toPos) (hlive : r.2 ≠ .removed)
    (hpassed : r.1.emptied = true → r.1.toPos ≤ e.ef)
    (hspared : known r.1.id = true → r.2 = .set → ¬Empties e mine owned r.1) :
    Forall₂ (Unseated known v) (keepRow e mine owned r)
      (Browser.keepRow e' (mine.map (ChangeRecord.inUnits v)) owned r') := by
  obtain ⟨c, st⟩ := r
  obtain ⟨c', st'⟩ := r'
  have hrecord : c' = c.inUnits u := hr.1
  have hmark := hr.2
  subst hrecord
  have h1 : (c.inUnits u).toPos ≤ e'.ef ↔ c.toPos ≤ e.ef := by
    rw [h.ef]
    exact h.mono.le_iff_le
  have h2 : e'.et ≤ (c.inUnits u).fromPos ↔ e.et ≤ c.fromPos := by
    rw [h.et]
    exact h.mono.le_iff_le
  have h3 : (c.inUnits u).fromPos < e'.ef ↔ c.fromPos < e.ef := by
    rw [h.ef]
    exact h.mono.lt_iff_lt
  have h4 : e'.et < (c.inUnits u).toPos ↔ e.et < c.toPos := by
    rw [h.et]
    exact h.mono.lt_iff_lt
  have h5 : (c.inUnits u).toPos = e'.ef ↔ c.toPos = e.ef := by
    rw [h.ef]
    exact h.mono.injective.eq_iff
  have h6 : (c.inUnits u).fromPos = e'.et ↔ c.fromPos = e.et := by
    rw [h.et]
    exact h.mono.injective.eq_iff
  have hid : (c.inUnits u).id = c.id := rfl
  rw [keepRow, Browser.keepRow]
  simp only [absorbedBy_inUnits, mine_id_inUnits, hasSpan_inUnits h.mono, h1, h2, h3, h4, h5, h6,
    h.pos, hid]
  by_cases hab : absorbedBy mine owned c = true
  · rw [if_pos hab, if_pos hab]
    by_cases hmine : mine.map ChangeRecord.id = some c.id
    · rw [if_pos hmine, if_pos hmine]
      exact .nil
    · rw [if_neg hmine, if_neg hmine]
      refine .cons (emptiedRow_alike h hr hlive fun hknown hset => hspared hknown hset ?_) .nil
      rw [Empties, if_pos hab]
      exact hmine
  rw [if_neg hab, if_neg hab]
  by_cases hspan : hasSpan c = true
  swap
  · have hbare : (!hasSpan c) = true := by
      rw [Bool.not_eq_true', Bool.eq_false_iff]
      exact hspan
    rw [if_pos hbare, if_pos hbare]
    refine .cons ⟨?_, hmark⟩ .nil
    have heq : c.fromPos = c.toPos := by
      rw [hasSpan_iff] at hspan
      exact le_antisymm hle (Nat.le_of_not_lt hspan)
    cases hem : c.emptied with
    | true =>
      have hto := h.before _ (hpassed hem)
      have hfrom := h.before _ (hle.trans (hpassed hem))
      exact .inl (inUnits_move (u := u) hfrom.symm hto.symm)
    | false =>
      refine .inr ⟨heq, rfl, u c.fromPos, ?_⟩
      rw [ChangeRecord.inUnits, ← heq]
  have hspan' : ¬(!hasSpan c) = true := by
    rw [hspan]
    exact Bool.false_ne_true
  rw [if_neg hspan', if_neg hspan']
  by_cases hto : c.toPos ≤ e.ef
  · rw [if_pos hto, if_pos hto]
    refine .cons ⟨.inl ?_, ?_⟩ .nil
    · exact inUnits_move (u := u) (h.before _ (hle.trans hto)).symm (h.before _ hto).symm
    · show (if _ then _ else _) = (if _ then _ else _) ∨ _
      split
      · exact .inl rfl
      · exact hmark
  rw [if_neg hto, if_neg hto]
  by_cases hfrom : e.et ≤ c.fromPos
  · rw [if_pos hfrom, if_pos hfrom]
    refine .cons ⟨.inl ?_, ?_⟩ .nil
    · exact inUnits_move (h.after _ hfrom).symm (h.after _ (hfrom.trans hle)).symm
    · show (if _ then _ else _) = (if _ then _ else _) ∨ _
      split
      · exact .inl rfl
      · exact hmark
  rw [if_neg hfrom, if_neg hfrom]
  by_cases hsplit : c.fromPos < e.ef ∧ e.et < c.toPos ∧ 0 < e.len
  · rw [if_pos hsplit, if_pos hsplit]
    refine .cons ⟨.inl ?_, .inl rfl⟩ .nil
    exact inUnits_move (u := u) (h.before _ hsplit.1.le).symm
      (h.ef.trans (h.before _ (Nat.le_refl _)).symm)
  rw [if_neg hsplit, if_neg hsplit]
  have hstart : (if c.fromPos < e.ef then (c.inUnits u).fromPos else e'.stop) =
      v (if c.fromPos < e.ef then c.fromPos else e.stop) := by
    split
    · next hlt => exact (h.before _ hlt.le).symm
    · exact h.stop.symm
  have hstop : (if e.et < c.toPos then e'.shift (c.inUnits u).toPos else
      if c.fromPos < e.ef then e'.ef else e'.stop) =
      v (if e.et < c.toPos then e.shift c.toPos else if c.fromPos < e.ef then e.ef else e.stop) := by
    split
    · next hlt => exact (h.after _ hlt.le).symm
    · split
      · exact h.ef.trans (h.before _ (Nat.le_refl _)).symm
      · exact h.stop.symm
  simp only [hstart, hstop, h.mono'.lt_iff_lt]
  by_cases hempty : (if c.fromPos < e.ef then c.fromPos else e.stop) <
      if e.et < c.toPos then e.shift c.toPos else if c.fromPos < e.ef then e.ef else e.stop
  · rw [if_pos hempty, if_pos hempty]
    exact .cons ⟨.inl (inUnits_move (u := u) rfl rfl), .inl rfl⟩ .nil
  · rw [if_neg hempty, if_neg hempty]
    refine .cons (emptiedRow_alike h hr hlive fun hknown hset => hspared hknown hset ?_) .nil
    rw [Empties, if_neg hab]
    have hfit := h.le
    have hle : c.fromPos ≤ c.toPos := hle
    rw [OneEdit.shift, OneEdit.stop] at hempty
    refine ⟨hspan, (?_ : e.ef ≤ c.fromPos), (?_ : c.toPos ≤ e.et)⟩
    · by_contra hlt
      rw [if_pos (Nat.lt_of_not_le hlt), if_pos (Nat.lt_of_not_le hlt)] at hempty
      split at hempty <;> omega
    · by_contra hlt
      rw [if_pos (Nat.lt_of_not_le hlt)] at hempty
      split at hempty <;> omega

/-- At most one span is cut in two. -/
lemma newSpans_inUnits (h : Carries e e' u v) {rows rows' : List Row} (hs : Same u rows rows')
    (hone : (rows.filter (splitsRow e mine owned)).length ≤ 1) (fresh : ℕ → String) (n : ℕ) :
    Browser.newSpans fresh e' (mine.map (ChangeRecord.inUnits v)) owned rows' n =
      (splitRows fresh e mine owned rows n).map fun r => (r.1.inUnits v, r.2) := by
  have hsplits : ∀ c : ChangeRecord, Browser.splitsRow e' (mine.map (ChangeRecord.inUnits v)) owned
      (c.inUnits u, .kept) = splitsRow e mine owned (c, .kept) := by
    intro c
    have h1 : (c.inUnits u).fromPos < e'.ef ↔ c.fromPos < e.ef := by
      rw [h.ef]
      exact h.mono.lt_iff_lt
    have h2 : e'.et < (c.inUnits u).toPos ↔ e.et < c.toPos := by
      rw [h.et]
      exact h.mono.lt_iff_lt
    simp only [Browser.splitsRow, splitsRow, absorbedBy_inUnits, h1, h2, h.pos]
  have hfilter := hs.filter fun c => Browser.splitsRow e' (mine.map (ChangeRecord.inUnits v)) owned
    (c, .kept)
  simp only [hsplits] at hfilter
  have hshape : ∀ l : List Row, (l.filter fun r => Browser.splitsRow e'
      (mine.map (ChangeRecord.inUnits v)) owned (r.1, .kept)) =
      l.filter (Browser.splitsRow e' (mine.map (ChangeRecord.inUnits v)) owned) := fun _ => rfl
  have hshape' : ∀ l : List Row, (l.filter fun r => splitsRow e mine owned (r.1, .kept)) =
      l.filter (splitsRow e mine owned) := fun _ => rfl
  rw [hshape, hshape'] at hfilter
  rw [Browser.newSpans, splitRows]
  rcases hl : rows.filter (splitsRow e mine owned) with _ | ⟨r, _ | ⟨s, rest⟩⟩
  · rw [hl] at hfilter
    have hnil := map_eq_nil_iff.1 (perm_nil.1 hfilter)
    rw [hnil]
    rfl
  · rw [hl] at hfilter
    obtain ⟨r', hr', heq⟩ := map_eq_singleton_iff.1 (perm_singleton.1 hfilter)
    rw [hr']
    have hto : v (e.shift r.1.toPos) = e'.shift (u r.1.toPos) := by
      have hr : r ∈ rows.filter (splitsRow e mine owned) := hl ▸ mem_singleton_self r
      have hsplit := (mem_filter.1 hr).2
      rw [splitsRow, Bool.and_eq_true, Bool.and_eq_true, Bool.and_eq_true] at hsplit
      exact h.after _ (of_decide_eq_true hsplit.2.1.2).le
    have heq : r'.1 = r.1.inUnits u := heq
    simp only [mapIdx_cons, mapIdx_nil, map_cons, map_nil, heq, rightCopy]
    refine congrArg (fun c => [(c, PlanState.set)]) ?_
    exact inUnits_move (c := { r.1 with id := fresh (n + 0) }) (u := u) h.stop.symm hto.symm
  · rw [hl] at hone
    exact absurd hone (Nat.not_le.2 (Nat.succ_lt_succ (Nat.succ_pos _)))

end Rows

def NamedGaps (gaps : List GapRow) : Prop := ∀ g ∈ gaps, Named g.1.fragments

section Gaps
variable {u v : ℕ → ℕ} {e : OneEdit} {e' : Browser.OneEdit} {mine : Option ChangeRecord}
  {owned : List String} {gaps : List GapRow}

lemma named_nil : Named [] := fun _ hf => absurd hf not_mem_nil

lemma NamedGaps.flatMap (h : NamedGaps gaps) : Named (gaps.flatMap fun g => g.1.fragments) := by
  intro f hf
  obtain ⟨g, hg, hf⟩ := mem_flatMap.1 hf
  exact h g hg f hf

lemma keepGap_inUnits (h : Carries e e' u v) :
    (gaps.map (gapInUnits u)).filterMap (Browser.keepGap e') =
      (gaps.filterMap (keepGap e)).map (gapInUnits v) := by
  rw [filterMap_map, map_filterMap]
  refine filterMap_congr fun g _ => ?_
  have hbefore : (gapInUnits u g).1.point < e'.ef ↔ g.1.point < e.ef := by
    rw [h.ef]
    exact h.mono.lt_iff_lt
  have hafter : e'.et < (gapInUnits u g).1.point ↔ e.et < g.1.point := by
    rw [h.et]
    exact h.mono.lt_iff_lt
  rw [Function.comp_apply, Browser.keepGap, keepGap]
  by_cases h1 : g.1.point < e.ef
  · rw [if_pos (hbefore.2 h1), if_pos h1, Option.map_some, gapInUnits, gapInUnits, Gap.inUnits,
      Gap.inUnits, h.before _ h1.le]
  · rw [if_neg fun hno => h1 (hbefore.1 hno), if_neg h1]
    by_cases h2 : e.et < g.1.point
    · rw [if_pos (hafter.2 h2), if_pos h2, Option.map_some, gapInUnits, gapInUnits, Gap.inUnits,
        Gap.inUnits, h.after _ h2.le]
    · rw [if_neg fun hno => h2 (hafter.1 hno), if_neg h2]
      rfl

lemma named_keepGap (h : NamedGaps gaps) : NamedGaps (gaps.filterMap (keepGap e)) := by
  intro g hg
  obtain ⟨g', hg', heq⟩ := mem_filterMap.1 hg
  rw [keepGap] at heq
  split at heq
  · cases heq
    exact h _ hg'
  · split at heq
    · cases heq
      exact h g' hg'
    · cases heq

lemma named_filter (h : NamedGaps gaps) (p : GapRow → Bool) : NamedGaps (gaps.filter p) :=
  fun g hg => h g (mem_of_mem_filter hg)

variable {out : List GapRow}

lemma placeMerged_inUnits (hv : StrictMono v) (fresh : ℕ → String) (pos : ℕ)
    {merged : List Fragment} (hm : Named merged) (hout : NamedGaps out) (ids : List String) (n : ℕ) :
    NamedGaps (placeMerged fresh pos merged out ids n).1 ∧
    Browser.placeMerged fresh (v pos) (merged.map Fragment.inUnits) (out.map (gapInUnits v)) ids n =
      ((placeMerged fresh pos merged out ids n).1.map (gapInUnits v),
        (placeMerged fresh pos merged out ids n).2) := by
  have hpoint : ∀ g : GapRow, (gapInUnits v g).1.point = v pos ↔ g.1.point = pos := fun g =>
    hv.injective.eq_iff
  have hthere : (out.map (gapInUnits v)).filter (fun g => g.1.point = v pos) =
      (out.filter fun g => g.1.point = pos).map (gapInUnits v) := by
    rw [filter_map]
    exact congrArg _ (filter_congr fun g _ => decide_eq_decide.2 (hpoint g))
  have hrest : (out.map (gapInUnits v)).filter (fun g => !decide (g.1.point = v pos)) =
      (out.filter fun g => !decide (g.1.point = pos)).map (gapInUnits v) := by
    rw [filter_map]
    exact congrArg _ (filter_congr fun g _ =>
      congrArg not (decide_eq_decide.2 (hpoint g)))
  rw [placeMerged, Browser.placeMerged]
  by_cases hnil : merged = []
  · rw [if_pos hnil, if_pos (map_eq_nil_iff.2 hnil)]
    exact ⟨hout, rfl⟩
  · rw [if_neg hnil, if_neg fun hno => hnil (map_eq_nil_iff.1 hno), hthere, hrest]
    have hhere := named_filter hout fun g => decide (g.1.point = pos)
    cases hfilter : out.filter fun g => decide (g.1.point = pos) with
    | nil =>
      refine ⟨forall_mem_append.2 ⟨hout, fun g hg => ?_⟩, ?_⟩
      · cases mem_singleton.1 hg
        exact hm
      · simp only [map_append]
        rfl
    | cons first rest =>
      rw [hfilter] at hhere
      have hall : Named (((first :: rest).flatMap fun g => g.1.fragments) ++ merged) :=
        forall_mem_append.2 ⟨hhere.flatMap, hm⟩
      refine ⟨forall_mem_append.2 ⟨named_filter hout _, fun g hg => ?_⟩, ?_⟩
      · cases mem_singleton.1 hg
        exact named_pushFragments named_nil hall
      · have hlist : Browser.pushFragments [] ((((first :: rest).map (gapInUnits v)).flatMap
            fun g => g.1.fragments) ++ merged.map Fragment.inUnits) =
            (pushFragments [] (((first :: rest).flatMap fun g => g.1.fragments) ++ merged)).map
              Fragment.inUnits := by
          rw [← pushFragments_inUnits named_nil hall, map_append, flatMap_map, map_flatMap]
          rfl
        simp only [map_cons] at hlist
        simp only [map_cons, hlist, map_append]
        rfl

lemma placeAfter_inUnits (fresh : ℕ → String) (pos : ℕ) {after : List Fragment} (ha : Named after)
    (hout : NamedGaps out) (ids : List String) (n : ℕ) :
    NamedGaps (placeAfter fresh pos after out ids n).1 ∧
    Browser.placeAfter fresh (v pos) (after.map Fragment.inUnits) (out.map (gapInUnits v)) ids n =
      ((placeAfter fresh pos after out ids n).1.map (gapInUnits v),
        (placeAfter fresh pos after out ids n).2) := by
  rw [placeAfter, Browser.placeAfter]
  by_cases hnil : after = []
  · rw [if_pos hnil, if_pos (map_eq_nil_iff.2 hnil)]
    exact ⟨hout, rfl⟩
  · rw [if_neg hnil, if_neg fun hno => hnil (map_eq_nil_iff.1 hno)]
    refine ⟨forall_mem_append.2 ⟨hout, fun g hg => ?_⟩, ?_⟩
    · cases mem_singleton.1 hg
      exact ha
    · simp only [map_append]
      rfl

lemma relabelGap_inUnits {g : GapRow} (hg : Named g.1.fragments) :
    Named (relabelGap mine owned g).1.fragments ∧
    Browser.relabelGap (mine.map (ChangeRecord.inUnits v)) owned (gapInUnits v g) =
      gapInUnits v (relabelGap mine owned g) := by
  cases mine with
  | none => exact ⟨hg, rfl⟩
  | some m =>
    have hnamed : Named (g.1.fragments.map (relabel (some m) owned)) := by
      intro f hf
      obtain ⟨f', hf', rfl⟩ := mem_map.1 hf
      exact hg f' hf'
    have hany : ((gapInUnits v g).1.fragments.any fun f => decide (f.change ∈ owned) &&
        f.change ≠ (m.inUnits v).id) =
        g.1.fragments.any fun f => decide (f.change ∈ owned) && f.change ≠ m.id := by
      show (g.1.fragments.map Fragment.inUnits).any _ = _
      rw [any_map]
      rfl
    have hlist : Browser.pushFragments [] ((gapInUnits v g).1.fragments.map
        (Browser.relabel (some (m.inUnits v)) owned)) =
          (pushFragments [] (g.1.fragments.map (relabel (some m) owned))).map Fragment.inUnits := by
      rw [← pushFragments_inUnits named_nil hnamed, map_map]
      show Browser.pushFragments [] ((g.1.fragments.map Fragment.inUnits).map _) = _
      rw [map_map]
      rfl
    rw [Option.map_some]
    simp only [relabelGap, Browser.relabelGap, hany, hlist]
    split
    · exact ⟨named_pushFragments named_nil hnamed, rfl⟩
    · exact ⟨hg, rfl⟩

lemma referenced_inUnits (id : String) :
    Browser.referenced (gaps.map (gapInUnits v)) id = referenced gaps id := by
  rw [Browser.referenced, referenced, any_map]
  refine congrArg _ (funext fun g => ?_)
  show (g.1.fragments.map Fragment.inUnits).any _ = _
  rw [any_map]
  rfl

end Gaps

end LibrePaper.Track
