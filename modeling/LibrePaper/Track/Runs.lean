import LibrePaper.Track.Batch

/-!
# Runs of batches

After a batch the removed and emptied rows are gone and every fragment is stored, so
the state that the next batch reads has the plan's other rows, under the same ids and
offsets, and the plan's gaps with the same owners and texts.
-/
namespace LibrePaper.Track
open Library List

/-- The rows of a plan that are not removed. -/
def Plan.liveChanges (plan : Plan) : List Row := plan.changes.filter fun r => r.2 ≠ .removed

/-- The gaps of a plan that are not removed. -/
def Plan.liveGaps (plan : Plan) : List GapRow := plan.gaps.filter fun g => g.2 ≠ .removed

/-! A loop marks nothing removed among the rows it goes on with. -/

lemma keepRow_state {e : OneEdit} {mine : Option ChangeRecord} {owned : List String}
    {r x : Row} (hr : r.2 ≠ .removed) (hx : x ∈ keepRow e mine owned r) : x.2 ≠ .removed := by
  simp only [keepRow] at hx
  split_ifs at hx <;> simp only [not_mem_nil, mem_singleton] at hx <;> subst hx <;>
    simp [emptiedRow, hr]

lemma reviveRow_state (gaps : List GapRow) (r : Row) : (reviveRow gaps r).2 = r.2 := by
  unfold reviveRow
  split <;> rfl

lemma seatRow_state (gaps : List GapRow) (r : Row) : (seatRow gaps r).2 = r.2 := by
  unfold seatRow
  split_ifs
  · rfl
  · split
    · split_ifs <;> rfl
    · rfl

lemma Call.rows_state {c : Call} (h : ∀ r ∈ c.changes, r.2 ≠ .removed) :
    ∀ x ∈ c.rows, x.2 ≠ .removed := by
  intro x hx
  obtain ⟨y, hy, -, rfl⟩ := mem_rows.1 hx
  rw [settled, seatRow_state, reviveRow_state]
  rcases mem_out.1 hy with ⟨r, hr, hk⟩ | hh | ⟨m, -, rfl⟩
  · exact keepRow_state (h r hr) hk
  · obtain ⟨r, -, -, i, -, -, rfl⟩ := mem_splitRows hh
    simp [rightCopy]
  · simp

lemma placeMerged_state {fresh : ℕ → String} {pos : ℕ} {merged : List Fragment}
    {out : List GapRow} {ids : List String} {n : ℕ} (h : ∀ g ∈ out, g.2 ≠ .removed) :
    ∀ g ∈ (placeMerged fresh pos merged out ids n).1, g.2 ≠ .removed := by
  intro g hg
  unfold placeMerged at hg
  split at hg
  · exact h g hg
  split at hg
  · rcases mem_append.1 hg with hg | hg
    · exact h g (mem_of_mem_filter hg)
    · simp [mem_singleton.1 hg]
  · rcases mem_append.1 hg with hg | hg
    · exact h g hg
    · simp [mem_singleton.1 hg]

lemma placeAfter_state {fresh : ℕ → String} {pos : ℕ} {after : List Fragment}
    {out : List GapRow} {ids : List String} {n : ℕ} (h : ∀ g ∈ out, g.2 ≠ .removed) :
    ∀ g ∈ (placeAfter fresh pos after out ids n).1, g.2 ≠ .removed := by
  intro g hg
  unfold placeAfter at hg
  split at hg
  · exact h g hg
  · rcases mem_append.1 hg with hg | hg
    · exact h g hg
    · simp [mem_singleton.1 hg]

lemma Call.gapRows_state {c : Call} (h : ∀ g ∈ c.gaps, g.2 ≠ .removed) :
    ∀ g ∈ c.gapRows, g.2 ≠ .removed := by
  intro g hg
  obtain ⟨g, hg', rfl⟩ := mem_map.1 ((mem_sortByKey _ _ _).1 hg)
  have hall : ∀ g ∈ c.all.1, g.2 ≠ .removed := by
    refine placeAfter_state (placeMerged_state fun g hg => ?_)
    obtain ⟨g', hg', hk⟩ := mem_filterMap.1 hg
    unfold keepGap at hk
    split_ifs at hk <;> simp only [Option.some.injEq] at hk <;> subst hk <;> exact h g' hg'
  unfold relabelGap
  split
  · split_ifs
    · simp
    · exact hall g hg'
  · exact hall g hg'

lemma noteRemoved_state {α : Type*} {id : α → String} {l : List (α × PlanState)} {x : α}
    (h : ∀ r ∈ l, r.2 = .removed) : ∀ r ∈ noteRemoved id l x, r.2 = .removed := by
  intro r hr
  rcases mem_append.1 hr with hr | hr
  · exact h r (mem_of_mem_filter hr)
  · rcases mem_cons.1 hr with rfl | hr
    · rfl
    · exact h r (mem_of_mem_filter hr)

lemma foldl_noteRemoved_state {α : Type*} {id : α → String} {xs : List (α × PlanState)}
    {l : List (α × PlanState)} (h : ∀ r ∈ l, r.2 = .removed) :
    ∀ r ∈ xs.foldl (fun acc r => noteRemoved id acc r.1) l, r.2 = .removed := by
  induction xs generalizing l with
  | nil => exact h
  | cons x xs ih => exact ih (noteRemoved_state h)

lemma markNew_state {α : Type*} {known : α → Bool} {r : α × PlanState} (h : r.2 ≠ .removed) :
    (markNew known r).1 = r.1 ∧ (markNew known r).2 ≠ .removed := by
  unfold markNew
  split <;> simp [h]

lemma live_map_markNew {α : Type*} {known : α → Bool} {l removed : List (α × PlanState)}
    (hl : ∀ r ∈ l, r.2 ≠ .removed) (hr : ∀ r ∈ removed, r.2 = .removed) :
    ((l.map (markNew known) ++ removed).filter fun r => r.2 ≠ .removed).map Prod.fst =
      l.map Prod.fst := by
  have hnil : removed.filter (fun r => r.2 ≠ .removed) = [] :=
    filter_eq_nil_iff.2 (by simpa using hr)
  rw [filter_append, hnil, append_nil, filter_eq_self.2]
  · simp only [map_map]
    exact map_congr_left fun r h => (markNew_state (hl r h)).1
  · intro x hx
    obtain ⟨r, hr, rfl⟩ := mem_map.1 hx
    simpa using (markNew_state (hl r hr)).2

namespace Batch
variable {b : Batch}

/-- The rows and gaps of the plan that are not removed are those the loop ends with. -/
lemma live (b : Batch) :
    b.plan.liveChanges.map Prod.fst = b.loop.changes.map Prod.fst ∧
      b.plan.liveGaps.map Prod.fst = b.loop.gaps.map Prod.fst := by
  have hstates : ∀ (edits : List Edit) (p : Progress),
      ((∀ r ∈ p.changes, r.2 ≠ .removed) ∧ (∀ g ∈ p.gaps, g.2 ≠ .removed) ∧
        (∀ r ∈ p.removedChanges, r.2 = .removed) ∧ ∀ g ∈ p.removedGaps, g.2 = .removed) →
      (∀ r ∈ (edits.foldl b.step p).changes, r.2 ≠ .removed) ∧
        (∀ g ∈ (edits.foldl b.step p).gaps, g.2 ≠ .removed) ∧
        (∀ r ∈ (edits.foldl b.step p).removedChanges, r.2 = .removed) ∧
        ∀ g ∈ (edits.foldl b.step p).removedGaps, g.2 = .removed := by
    intro edits
    induction edits with
    | nil => exact fun _ hp => hp
    | cons edit edits ih =>
      intro p hp
      refine ih (b.step p edit) ?_
      rw [step_eq]
      split
      · exact hp
      · exact ⟨Call.rows_state hp.1, Call.gapRows_state hp.2.1,
          foldl_noteRemoved_state hp.2.2.1, foldl_noteRemoved_state hp.2.2.2⟩
  obtain ⟨h1, h2, h3, h4⟩ := hstates b.edits b.start (by simp [Batch.start, startProgress])
  exact ⟨live_map_markNew h1 h3, live_map_markNew h2 h4⟩

lemma Ready.live (_ : b.Ready) :
    b.plan.liveChanges.map Prod.fst = b.loop.changes.map Prod.fst ∧
      b.plan.liveGaps.map Prod.fst = b.loop.gaps.map Prod.fst := b.live

end Batch

/-! The invariant depends on the records only. -/

lemma points_congr {gaps gaps' : List GapRow} (h : gaps'.map Prod.fst = gaps.map Prod.fst) :
    points gaps' = points gaps := by
  have h' := congrArg (map Gap.point) h
  simp only [map_map] at h'
  exact h'

lemma fragmentsAt_congr {gaps gaps' : List GapRow}
    (h : gaps'.map Prod.fst = gaps.map Prod.fst) (q : ℕ) :
    fragmentsAt gaps' q = fragmentsAt gaps q := by
  have key : ∀ gs : List GapRow, fragmentsAt gs q =
      ((gs.map Prod.fst).filter fun g => g.point = q).flatMap Gap.fragments := by
    intro gs
    simp only [fragmentsAt, filter_map, flatMap_map]
    rfl
  rw [key, key, h]

/-- The same change at the same place: only the reader's flags may differ. -/
def SamePlace (r r' : ChangeRecord) : Prop :=
  r'.id = r.id ∧ r'.fromPos = r.fromPos ∧ r'.toPos = r.toPos ∧ r'.emptied = r.emptied

lemma SamePlace.covers {r r' : ChangeRecord} (h : SamePlace r r') (p : ℕ) :
    r'.covers p ↔ r.covers p := by
  simp only [ChangeRecord.covers, h.2.1, h.2.2.1]

lemma SamePlace.hasSpan {r r' : ChangeRecord} (h : SamePlace r r') :
    hasSpan r' = hasSpan r := by
  simp only [Track.hasSpan, h.2.1, h.2.2.1]

/-- Rows at the same places, less some of the emptied ones, and gaps with the same owners
describe the same text. -/
lemma Valid.transport {n : ℕ} {rows rows' : List Row} {gaps gaps' : List GapRow}
    (h : Valid n rows gaps) (hids : (rows'.map (·.1.id)).Nodup)
    (hback : ∀ r' ∈ rows', ∃ r ∈ rows, SamePlace r.1 r'.1)
    (hforth : ∀ r ∈ rows, r.1.emptied = false → ∃ r' ∈ rows', SamePlace r.1 r'.1)
    (hpoints : points gaps' = points gaps)
    (howns : ∀ q id, Owns (fragmentsAt gaps' q) id ↔ Owns (fragmentsAt gaps q) id)
    (hfull : ∀ q, ∀ f' ∈ fragmentsAt gaps' q, ∃ f ∈ fragmentsAt gaps q, f'.text = f.text) :
    Valid n rows' gaps' where
  ids := hids
  ordered r' hr' := by
    obtain ⟨r, hr, -, h1, h2, -⟩ := hback r' hr'
    rw [h1, h2]
    exact h.ordered r hr
  inText r' hr' := by
    obtain ⟨r, hr, -, -, h2, -⟩ := hback r' hr'
    rw [h2]
    exact h.inText r hr
  disjoint r' hr' s' hs' p hp hp' := by
    obtain ⟨r, hr, hrr⟩ := hback r' hr'
    obtain ⟨s, hs, hss⟩ := hback s' hs'
    rw [hrr.1, hss.1]
    exact h.disjoint r hr s hs p ((hrr.covers p).1 hp) ((hss.covers p).1 hp')
  gapInText q hq := h.gapInText q (hpoints ▸ hq)
  outside q hq r' hr' := by
    obtain ⟨r, hr, -, h1, h2, -⟩ := hback r' hr'
    rw [h1, h2]
    exact h.outside q (hpoints ▸ hq) r hr
  full q f' hf' := by
    obtain ⟨f, hf, ht⟩ := hfull q f' hf'
    rw [ht]
    exact h.full q f hf
  owned q id ho := by
    obtain ⟨r, hr, hid, hem⟩ := h.owned q id ((howns q id).1 ho)
    obtain ⟨r', hr', h1, -, -, h4⟩ := hforth r hr hem
    exact ⟨r', hr', h1.trans hid, h4.trans hem⟩
  seated r' hr' hs hem := by
    obtain ⟨r, hr, hrr⟩ := hback r' hr'
    rw [hrr.1, hrr.2.1, howns]
    exact h.seated r hr (hrr.hasSpan ▸ hs) (hrr.2.2.2 ▸ hem)
  emptied r' hr' hem := by
    obtain ⟨r, hr, hrr⟩ := hback r' hr'
    rw [hrr.hasSpan]
    exact h.emptied r hr (hrr.2.2.2 ▸ hem)

lemma Valid.congr {n : ℕ} {rows rows' : List Row} {gaps gaps' : List GapRow}
    (h : Valid n rows gaps) (hr : rows'.map Prod.fst = rows.map Prod.fst)
    (hg : gaps'.map Prod.fst = gaps.map Prod.fst) : Valid n rows' gaps' := by
  have hmem : ∀ {l l' : List Row}, l'.map Prod.fst = l.map Prod.fst → ∀ r' ∈ l', ∃ r ∈ l,
      SamePlace r.1 r'.1 := by
    intro l l' hl r' hr'
    have hm : r'.1 ∈ l.map Prod.fst := hl ▸ mem_map_of_mem hr'
    obtain ⟨r, hr, he⟩ := mem_map.1 hm
    exact ⟨r, hr, by rw [he]; exact ⟨rfl, rfl, rfl, rfl⟩⟩
  refine h.transport ?_ (hmem hr) (fun r hr' _ => ?_) (points_congr hg)
    (fun q id => by rw [fragmentsAt_congr hg]) (fun q f' hf' => ⟨f', ?_, rfl⟩)
  · have hids := congrArg (map ChangeRecord.id) hr
    simp only [map_map] at hids
    exact hids ▸ h.ids
  · obtain ⟨r', hr'', he⟩ := hmem hr.symm r hr'
    exact ⟨r', hr'', he.1.symm, he.2.1.symm, he.2.2.1.symm, he.2.2.2.symm⟩
  · rwa [fragmentsAt_congr hg] at hf'

/-! Storing a plan. -/

/-- The stored form of a fragment: the same owner and text, under its id if it had one. -/
def StoredAs (f f' : Fragment) : Prop :=
  f'.change = f.change ∧ f'.text = f.text ∧ f'.id.isSome ∧ (f.id.isSome → f'.id = f.id)

/-- The state read after a plan was stored. Removed and emptied rows are gone; the other
rows and the gaps are those of the plan. -/
structure ReadBack (plan : Plan) (state : FileState) : Prop where
  changes : ∃ read : List ChangeRecord, read.Perm state.changes ∧
    List.Forall₂ (fun r r' => r' = { r with stale := r'.stale })
      ((plan.liveChanges.map Prod.fst).filter fun r => !r.emptied) read
  gaps : List.Forall₂ (fun g g' => g'.point = g.point ∧
      List.Forall₂ StoredAs g.fragments g'.fragments) (plan.liveGaps.map Prod.fst) state.gaps

lemma forall₂_exists {α β : Type*} {R : α → β → Prop} {l : List α} {l' : List β}
    (h : Forall₂ R l l') :
    (∀ a ∈ l, ∃ b ∈ l', R a b) ∧ ∀ b ∈ l', ∃ a ∈ l, R a b := by
  induction h with
  | nil => simp
  | cons hab _ ih =>
    refine ⟨fun a ha => ?_, fun b hb => ?_⟩
    · rcases mem_cons.1 ha with rfl | ha
      · exact ⟨_, mem_cons_self, hab⟩
      · obtain ⟨b, hb, hr⟩ := ih.1 a ha
        exact ⟨b, mem_cons_of_mem _ hb, hr⟩
    · rcases mem_cons.1 hb with rfl | hb
      · exact ⟨_, mem_cons_self, hab⟩
      · obtain ⟨a, ha, hr⟩ := ih.2 b hb
        exact ⟨a, mem_cons_of_mem _ ha, hr⟩

lemma forall₂_map_eq {α β γ : Type*} {R : α → β → Prop} {f : α → γ} {g : β → γ}
    (hR : ∀ a b, R a b → g b = f a) {l : List α} {l' : List β} (h : Forall₂ R l l') :
    l'.map g = l.map f := by
  induction h with
  | nil => rfl
  | cons hab _ ih => simp [hR _ _ hab, ih]

lemma fragmentsAt_records (gaps : List GapRow) (q : ℕ) :
    fragmentsAt gaps q =
      ((gaps.map Prod.fst).filter fun g => g.point = q).flatMap Gap.fragments := by
  simp only [fragmentsAt, filter_map, flatMap_map]
  rfl

namespace ReadBack
variable {plan : Plan} {state : FileState}

lemma points (h : ReadBack plan state) : points (keptGaps state) = Track.points plan.liveGaps := by
  have hm := forall₂_map_eq (f := Gap.point) (g := Gap.point) (fun _ _ h => h.1) h.gaps
  simp only [map_map] at hm
  simp only [Track.points, keptGaps, map_map]
  exact hm

lemma fragmentsAt (h : ReadBack plan state) (q : ℕ) :
    Forall₂ StoredAs (fragmentsAt plan.liveGaps q) (Track.fragmentsAt (keptGaps state) q) := by
  have hkept : (keptGaps state).map Prod.fst = state.gaps := by simp [keptGaps, Function.comp_def]
  rw [fragmentsAt_records, fragmentsAt_records, hkept]
  have hg := h.gaps
  generalize plan.liveGaps.map Prod.fst = gaps at hg ⊢
  generalize state.gaps = gaps' at hg ⊢
  induction hg with
  | nil => exact Forall₂.nil
  | cons hab _ ih =>
    obtain ⟨hp, hf⟩ := hab
    simp only [filter_cons, hp, decide_eq_true_eq]
    split
    · exact rel_append hf ih
    · exact ih

lemma rows (h : ReadBack plan state) :
    (∀ r' ∈ keptRows state, ∃ r ∈ plan.liveChanges, r.1.emptied = false ∧
        r'.1 = { r.1 with stale := r'.1.stale }) ∧
      ∀ r ∈ plan.liveChanges, r.1.emptied = false → ∃ r' ∈ keptRows state,
        r'.1 = { r.1 with stale := r'.1.stale } := by
  obtain ⟨read, hperm, hread⟩ := h.changes
  obtain ⟨h1, h2⟩ := forall₂_exists hread
  constructor
  · intro r' hr'
    obtain ⟨c, hc, rfl⟩ := mem_map.1 hr'
    obtain ⟨a, ha, hR⟩ := h2 c (hperm.mem_iff.2 hc)
    obtain ⟨ha, hem⟩ := mem_filter.1 ha
    obtain ⟨r, hr, rfl⟩ := mem_map.1 ha
    exact ⟨r, hr, by simpa using hem, hR⟩
  · intro r hr hem
    obtain ⟨c, hc, hR⟩ := h1 r.1 (mem_filter.2 ⟨mem_map_of_mem hr, by simp [hem]⟩)
    exact ⟨(c, .kept), mem_map_of_mem (f := fun c => (c, PlanState.kept)) (hperm.mem_iff.1 hc), hR⟩

lemma samePlace {r r' : ChangeRecord} (h : r' = { r with stale := r'.stale }) :
    SamePlace r r' := by
  rw [h]
  exact ⟨rfl, rfl, rfl, rfl⟩

/-- The state read after a valid plan is valid. -/
lemma valid {n : ℕ} (h : ReadBack plan state)
    (hv : Track.Valid n plan.liveChanges plan.liveGaps) : state.Valid n := by
  refine ⟨hv.transport ?_ (fun r' hr' => ?_) (fun r hr hem => ?_) h.points (fun q id => ?_)
    (fun q f' hf' => ?_), fun c hc => ?_⟩
  · obtain ⟨read, hperm, hread⟩ := h.changes
    have hids := forall₂_map_eq (f := ChangeRecord.id) (g := ChangeRecord.id)
      (fun _ _ h => (samePlace h).1) hread
    have hnd := hv.ids
    have hsub : (read.map ChangeRecord.id).Sublist (plan.liveChanges.map (·.1.id)) := by
      rw [hids]
      have hs := (filter_sublist (l := plan.liveChanges.map Prod.fst)
        (p := fun r => !r.emptied)).map ChangeRecord.id
      simp only [map_map] at hs
      exact hs
    have hstate : (keptRows state).map (·.1.id) = state.changes.map ChangeRecord.id := by
      simp [keptRows, Function.comp_def]
    rw [hstate, ← (hperm.map _).nodup_iff]
    exact hnd.sublist hsub
  · obtain ⟨r, hr, -, he⟩ := h.rows.1 r' hr'
    exact ⟨r, hr, samePlace he⟩
  · obtain ⟨r', hr', he⟩ := h.rows.2 r hr hem
    exact ⟨r', hr', samePlace he⟩
  · obtain ⟨h1, h2⟩ := forall₂_exists (h.fragmentsAt q)
    constructor
    · rintro ⟨f', hf', rfl⟩
      obtain ⟨f, hf, he⟩ := h2 f' hf'
      exact ⟨f, hf, he.1.symm⟩
    · rintro ⟨f, hf, rfl⟩
      obtain ⟨f', hf', he⟩ := h1 f hf
      exact ⟨f', hf', he.1⟩
  · obtain ⟨f, hf, he⟩ := (forall₂_exists (h.fragmentsAt q)).2 f' hf'
    exact ⟨f, hf, he.2.1⟩
  · obtain ⟨r, -, hem, he⟩ := h.rows.1 (c, .kept)
      (mem_map_of_mem (f := fun c => (c, PlanState.kept)) hc)
    have hc' : c = { r.1 with stale := c.stale } := he
    rw [hc']
    exact hem

end ReadBack

/-- One way to store a plan: the fragments that have no id take the given one. -/
def Plan.storedAs (plan : Plan) (name : String) : FileState where
  changes := (plan.liveChanges.map Prod.fst).filter fun r => !r.emptied
  gaps := (plan.liveGaps.map Prod.fst).map fun g =>
    { g with fragments := g.fragments.map fun f => { f with id := f.id.or (some name) } }

lemma ReadBack.storedAs (plan : Plan) (name : String) : ReadBack plan (plan.storedAs name) where
  changes := ⟨_, Perm.refl _, forall₂_same.2 fun _ _ => rfl⟩
  gaps := by
    have hf : ∀ l : List Fragment,
        Forall₂ StoredAs l (l.map fun f => { f with id := f.id.or (some name) }) := by
      intro l
      rw [forall₂_map_right_iff, forall₂_same]
      exact fun f _ => ⟨rfl, rfl, by cases f.id <;> rfl, fun h => by
        obtain ⟨id, hid⟩ := Option.isSome_iff_exists.1 h
        simp [hid]⟩
    unfold Plan.storedAs
    rw [forall₂_map_right_iff, forall₂_same]
    exact fun g _ => ⟨rfl, hf _⟩

/-- One batch against a text and its pending state. `tracked` restricts the batches to
tracked ones. -/
inductive BatchStep (tracked : Bool) : List Char × FileState → List Char × FileState → Prop
  | plan (b : Batch) (state : FileState) (hfits : FitsFrom 0 b.before.length b.edits)
      (hfresh : Fresh b.fresh b.taken (keptRows b.state))
      (htracked : tracked = true → b.untracked = false) (hread : ReadBack b.plan state) :
      BatchStep tracked (b.before, b.state) (b.text, state)

/-- A run of batches, each against the state that the one before it left. -/
abbrev BatchRun (tracked : Bool) : List Char × FileState → List Char × FileState → Prop :=
  Relation.ReflTransGen (BatchStep tracked)

namespace Batch
variable {b : Batch}

lemma Ready.plan_valid (h : b.Ready) :
    Track.Valid b.text.length b.plan.liveChanges b.plan.liveGaps := by
  obtain ⟨-, lo, hs⟩ := h.induct (motive := fun _ => True) trivial (fun _ _ _ _ => trivial)
  exact hs.valid.congr h.live.1 h.live.2

lemma Ready.plan_points (h : b.Ready) (hp : (points (keptGaps b.state)).Nodup) :
    (points b.plan.liveGaps).Nodup := by
  rw [points_congr h.live.2]
  exact (h.induct (motive := fun p => (points p.gaps).Nodup) hp
    fun _ _ hr => Call.nodup_points_gapRows hr.fits.le).1

end Batch

/-- Every state of a run is valid for its text, with one gap at each position if the run
started so. -/
lemma BatchRun.valid {tracked : Bool} {text text' : List Char} {state state' : FileState}
    (hrun : BatchRun tracked (text, state) (text', state')) (h : state.Valid text.length) :
    state'.Valid text'.length := by
  suffices key : ∀ x y, BatchRun tracked x y → x.2.Valid x.1.length → y.2.Valid y.1.length from
    key _ _ hrun h
  intro x y hxy hx
  induction hxy with
  | refl => exact hx
  | tail _ hstep ih =>
    cases hstep with
    | plan b state hfits hfresh _ hread =>
      exact hread.valid (Batch.Ready.plan_valid ⟨ih, hfresh, hfits⟩)

lemma BatchRun.points {tracked : Bool} {text text' : List Char} {state state' : FileState}
    (hrun : BatchRun tracked (text, state) (text', state')) (h : state.Valid text.length)
    (hp : (points (keptGaps state)).Nodup) : (Track.points (keptGaps state')).Nodup := by
  suffices key : ∀ x y, BatchRun tracked x y → x.2.Valid x.1.length →
      (Track.points (keptGaps x.2)).Nodup →
      y.2.Valid y.1.length ∧ (Track.points (keptGaps y.2)).Nodup from (key _ _ hrun h hp).2
  intro x y hxy hx hxp
  induction hxy with
  | refl => exact ⟨hx, hxp⟩
  | tail _ hstep ih =>
    cases hstep with
    | plan b state hfits hfresh _ hread =>
      have hready : b.Ready := ⟨ih.1, hfresh, hfits⟩
      exact ⟨hread.valid hready.plan_valid, hread.points ▸ hready.plan_points ih.2⟩

/-- A file with no pending changes. -/
def noChanges : FileState := ⟨[], []⟩

lemma noChanges_valid (n : ℕ) : noChanges.Valid n where
  rows := by constructor <;> simp [keptRows, keptGaps, noChanges, points]
  live := by simp [noChanges]

/-- What the rows of a plan satisfy, as the planner's callers rely on it. -/
structure PlanInvariant (n : ℕ) (rows : List Row) (gaps : List GapRow) : Prop where
  inText : (∀ r ∈ rows, r.1.fromPos ≤ r.1.toPos ∧ r.1.toPos ≤ n) ∧ ∀ g ∈ gaps, g.1.point ≤ n
  disjoint : rows.Pairwise fun r s => ∀ p, ¬ (r.1.covers p ∧ s.1.covers p)
  onePerPoint : gaps.Pairwise fun g g' => g.1.point ≠ g'.1.point
  outside : ∀ g ∈ gaps, ∀ r ∈ rows, ¬ (r.1.fromPos < g.1.point ∧ g.1.point < r.1.toPos)
  owned : ∀ g ∈ gaps, ∀ f ∈ g.1.fragments, f.text ≠ [] ∧
    ∃ r ∈ rows, r.1.id = f.change ∧ r.1.emptied = false
  seated : ∀ r ∈ rows, hasSpan r.1 = false → r.1.emptied = false →
    ∃ g ∈ gaps, g.1.point = r.1.fromPos ∧ ∃ f ∈ g.1.fragments, f.change = r.1.id

lemma Valid.invariant {n : ℕ} {rows : List Row} {gaps : List GapRow} (h : Valid n rows gaps)
    (hp : (points gaps).Nodup) : PlanInvariant n rows gaps where
  inText := ⟨fun r hr => ⟨h.ordered r hr, h.inText r hr⟩,
    fun g hg => h.gapInText _ (mem_points.2 ⟨g, hg, rfl⟩)⟩
  disjoint := by
    have hids := pairwise_map.1 h.ids
    refine hids.imp_of_mem fun hr hs hne p hp => ?_
    exact hne (h.disjoint _ hr _ hs p hp.1 hp.2)
  onePerPoint := pairwise_map.1 hp
  outside g hg := h.outside _ (mem_points.2 ⟨g, hg, rfl⟩)
  owned g hg f hf := by
    have hm : f ∈ fragmentsAt gaps g.1.point := mem_fragmentsAt.2 ⟨g, hg, rfl, hf⟩
    exact ⟨h.full _ f hm, h.owned _ _ ⟨f, hm, rfl⟩⟩
  seated r hr hs hem := by
    obtain ⟨g, hg, hpt, f, hf, hid⟩ := owns_fragmentsAt.1 (h.seated r hr hs hem)
    exact ⟨g, hg, hpt, f, hf, hid⟩

/-- In every run from a file with no pending changes, the rows and gaps that each plan
leaves satisfy the planner's invariant. -/
theorem plan_invariant {text : List Char} {b : Batch}
    (hrun : BatchRun false (text, noChanges) (b.before, b.state))
    (hfits : FitsFrom 0 b.before.length b.edits)
    (hfresh : Fresh b.fresh b.taken (keptRows b.state)) :
    PlanInvariant b.text.length b.plan.liveChanges b.plan.liveGaps := by
  have hready : b.Ready := ⟨hrun.valid (noChanges_valid _), hfresh, hfits⟩
  have hpoints := hrun.points (noChanges_valid _) (by simp [noChanges, keptGaps, points])
  exact hready.plan_valid.invariant (hready.plan_points hpoints)

/-- A supply of ids. -/
def names (k : ℕ) : String := String.ofList (List.replicate k 'n')

lemma names_injective : Function.Injective names := by
  intro a b h
  have hlen := congrArg (fun s : String => s.toList.length) h
  simpa [names] using hlen

lemma names_fresh (n : ℕ) : Fresh names n (keptRows noChanges) :=
  ⟨names_injective, by simp [keptRows, noChanges]⟩

/-- One author replaces a range of a text with no pending changes. -/
def sampleReplace : Batch where
  fresh := names
  before := "abcd".toList
  state := noChanges
  edits := [⟨1, 3, "X".toList⟩]
  me := ⟨"u1", "Ann"⟩
  run := none
  now := 7
  untracked := false
  taken := 0

theorem plan_invariant_replace :
    PlanInvariant sampleReplace.text.length sampleReplace.plan.liveChanges
      sampleReplace.plan.liveGaps :=
  plan_invariant (b := sampleReplace) Relation.ReflTransGen.refl (by decide) (names_fresh 0)

end LibrePaper.Track
