import LibrePaper.Track.Rows
import LibrePaper.Library.Ranges

/-!
# What one edit does to the gaps

Two readings of a list of fragments are enough for everything below: its deleted
text, joined in order, and its stored fragments, which are those with an id.
Joining fragments changes neither reading.
-/
namespace LibrePaper.Track
open Library List

/-- The deleted text of a list of fragments. -/
def deletedText (l : List Fragment) : List Char := l.flatMap Fragment.text

@[simp] lemma deletedText_nil : deletedText [] = [] := rfl

@[simp] lemma deletedText_append (l l' : List Fragment) :
    deletedText (l ++ l') = deletedText l ++ deletedText l' := by simp [deletedText]

/-- The stored fragments of a list, as they are written. -/
def stored (l : List Fragment) : List Fragment :=
  (l.filter fun f => f.id.isSome).map fun f => { f with stale := false }

@[simp] lemma stored_nil : stored [] = [] := rfl

@[simp] lemma stored_append (l l' : List Fragment) :
    stored (l ++ l') = stored l ++ stored l' := by simp [stored]

lemma stored_flatMap {α : Type*} (g : α → List Fragment) (l : List α) :
    stored (l.flatMap g) = l.flatMap fun x => stored (g x) := by
  induction l with
  | nil => rfl
  | cons x l ih => simp [flatMap_cons, ih]

/-- Pushing a fragment joins it to the last one or appends it. -/
lemma pushFragment_cases (l : List Fragment) (f : Fragment) :
    (∃ l' last, l = l' ++ [last] ∧ last.change = f.change ∧ last.id = none ∧ f.id = none ∧
      pushFragment l f = l' ++ [{ last with text := last.text ++ f.text }]) ∨
    pushFragment l f = l ++ [{ f with stale := false }] := by
  unfold pushFragment
  cases h : l.getLast? with
  | none => exact .inr rfl
  | some last =>
    have hl : l = l.dropLast ++ [last] := by
      rw [getLast?_eq_some_iff] at h
      obtain ⟨ys, rfl⟩ := h
      simp
    by_cases hc : last.change = f.change ∧ last.id = none ∧ f.id = none
    · refine .inl ⟨l.dropLast, last, hl, hc.1, hc.2.1, hc.2.2, ?_⟩
      simp only [if_pos hc]
    · exact .inr (by simp only [if_neg hc])

lemma pushFragment_text (l : List Fragment) (f : Fragment) :
    deletedText (pushFragment l f) = deletedText l ++ f.text := by
  rcases pushFragment_cases l f with ⟨l', last, rfl, -, -, -, h⟩ | h <;> simp [h, deletedText]

lemma pushFragment_stored (l : List Fragment) (f : Fragment) :
    stored (pushFragment l f) = stored l ++ stored [f] := by
  rcases pushFragment_cases l f with ⟨l', last, rfl, -, h1, h2, h⟩ | h
  · simp [h, stored, h1, h2]
  · rw [h]
    cases hf : f.id <;> simp [stored, hf]

lemma pushFragments_text (l ps : List Fragment) :
    deletedText (pushFragments l ps) = deletedText l ++ deletedText ps := by
  induction ps generalizing l with
  | nil => simp [pushFragments]
  | cons f ps ih =>
    have h := ih (pushFragment l f)
    simp only [pushFragments, foldl_cons] at h ⊢
    rw [h, pushFragment_text]
    simp [deletedText]

lemma pushFragments_stored (l ps : List Fragment) :
    stored (pushFragments l ps) = stored l ++ stored ps := by
  induction ps generalizing l with
  | nil => simp [pushFragments]
  | cons f ps ih =>
    have h := ih (pushFragment l f)
    simp only [pushFragments, foldl_cons] at h ⊢
    rw [h, pushFragment_stored, append_assoc, ← stored_append]
    rfl

/-- A property of one fragment's owner and text that joining keeps. -/
lemma pushFragments_forall {P : Fragment → Prop}
    (hjoin : ∀ a b : Fragment, a.change = b.change → P a → P b →
      P { a with text := a.text ++ b.text })
    (hpush : ∀ a : Fragment, P a → P { a with stale := false }) {l ps : List Fragment}
    (hl : ∀ f ∈ l, P f) (hp : ∀ f ∈ ps, P f) : ∀ f ∈ pushFragments l ps, P f := by
  induction ps generalizing l with
  | nil => exact hl
  | cons f ps ih =>
    refine ih ?_ fun g hg => hp g (mem_cons_of_mem _ hg)
    have hf := hp f mem_cons_self
    intro g hg
    rcases pushFragment_cases l f with ⟨l', last, rfl, hc, -, -, h⟩ | h <;> rw [h] at hg <;>
      rcases mem_append.1 hg with hg | hg
    · exact hl g (mem_append_left _ hg)
    · rw [mem_singleton.1 hg]
      exact hjoin last f hc (hl last (by simp)) hf
    · exact hl g hg
    · rw [mem_singleton.1 hg]
      exact hpush f hf

/-- The list has a fragment of the change. -/
def Owns (l : List Fragment) (id : String) : Prop := ∃ f ∈ l, f.change = id

instance (l : List Fragment) (id : String) : Decidable (Owns l id) :=
  inferInstanceAs (Decidable (∃ f ∈ l, _))

@[simp] lemma not_owns_nil (id : String) : ¬ Owns [] id := by simp [Owns]

@[simp] lemma owns_append {l l' : List Fragment} {id : String} :
    Owns (l ++ l') id ↔ Owns l id ∨ Owns l' id := by
  simp [Owns, or_and_right, exists_or]

@[simp] lemma owns_cons {f : Fragment} {l : List Fragment} {id : String} :
    Owns (f :: l) id ↔ f.change = id ∨ Owns l id := by simp [Owns]

lemma owns_pushFragment {l : List Fragment} {f : Fragment} {id : String} :
    Owns (pushFragment l f) id ↔ Owns l id ∨ f.change = id := by
  rcases pushFragment_cases l f with ⟨l', last, rfl, hc, -, -, h⟩ | h
  · simp [h, hc]
  · simp [h]

/-- The owners of a joined list are those of its parts. -/
lemma owns_pushFragments {l ps : List Fragment} {id : String} :
    Owns (pushFragments l ps) id ↔ Owns l id ∨ Owns ps id := by
  induction ps generalizing l with
  | nil => simp [pushFragments]
  | cons f ps ih =>
    have h := ih (l := pushFragment l f)
    simp only [pushFragments, foldl_cons] at h ⊢
    rw [h, owns_pushFragment, owns_cons, or_assoc]

/-- The fragments of the gaps at `p`, in their order. -/
def fragmentsAt (gaps : List GapRow) (p : ℕ) : List Fragment :=
  (gaps.filter fun g => g.1.point = p).flatMap fun g => g.1.fragments

@[simp] lemma fragmentsAt_append (gs hs : List GapRow) (p : ℕ) :
    fragmentsAt (gs ++ hs) p = fragmentsAt gs p ++ fragmentsAt hs p := by
  simp [fragmentsAt]

@[simp] lemma fragmentsAt_nil (p : ℕ) : fragmentsAt [] p = [] := rfl

lemma fragmentsAt_singleton (g : GapRow) (p : ℕ) :
    fragmentsAt [g] p = if g.1.point = p then g.1.fragments else [] := by
  simp only [fragmentsAt, filter_cons, filter_nil]
  split_ifs <;> simp_all

lemma fragmentsAt_cons (g : GapRow) (gs : List GapRow) (p : ℕ) :
    fragmentsAt (g :: gs) p =
      (if g.1.point = p then g.1.fragments else []) ++ fragmentsAt gs p := by
  rw [← singleton_append, fragmentsAt_append, fragmentsAt_singleton]

lemma fragmentsAt_sort (gaps : List GapRow) (p : ℕ) :
    fragmentsAt (sortByKey (fun g : GapRow => g.1.point) gaps) p = fragmentsAt gaps p := by
  simp only [fragmentsAt, filter_key_sortByKey]

lemma mem_fragmentsAt {gaps : List GapRow} {p : ℕ} {f : Fragment} :
    f ∈ fragmentsAt gaps p ↔ ∃ g ∈ gaps, g.1.point = p ∧ f ∈ g.1.fragments := by
  simp [fragmentsAt, and_assoc]

lemma owns_fragmentsAt {gaps : List GapRow} {p : ℕ} {id : String} :
    Owns (fragmentsAt gaps p) id ↔ ∃ g ∈ gaps, g.1.point = p ∧ Owns g.1.fragments id := by
  simp only [Owns, mem_fragmentsAt]
  constructor
  · rintro ⟨f, ⟨g, hg, hp, hf⟩, rfl⟩
    exact ⟨g, hg, hp, f, hf, rfl⟩
  · rintro ⟨g, hg, hp, f, hf, rfl⟩
    exact ⟨f, ⟨g, hg, hp, hf⟩, rfl⟩

/-- The gaps that an edit leaves in place: those before it, and those after it at
their new positions. -/
lemma fragmentsAt_keepGap {e : OneEdit} (he : e.ef ≤ e.et) (gaps : List GapRow) (q : ℕ) :
    fragmentsAt (gaps.filterMap (keepGap e)) q =
      if q < e.ef then fragmentsAt gaps q
      else if e.stop < q then fragmentsAt gaps (q + (e.et - e.ef) - e.len)
      else [] := by
  induction gaps with
  | nil => simp
  | cons g gaps ih =>
    have hk : ∀ q, fragmentsAt (filterMap (keepGap e) [g]) q =
        if q < e.ef ∧ g.1.point = q ∨
          e.stop < q ∧ g.1.point = q + (e.et - e.ef) - e.len then g.1.fragments else [] := by
      intro q
      by_cases h1 : g.1.point < e.ef
      · have hg : keepGap e g = some g := if_pos h1
        simp only [filterMap_cons, filterMap_nil, hg, fragmentsAt_singleton]
        exact if_congr (by unfold OneEdit.stop; omega) rfl rfl
      by_cases h2 : e.et < g.1.point
      · have hg : keepGap e g = some ({ g.1 with point := e.shift g.1.point }, g.2) := by
          simp [keepGap, h1, h2]
        simp only [filterMap_cons, filterMap_nil, hg, fragmentsAt_singleton]
        exact if_congr (by unfold OneEdit.stop OneEdit.shift; omega) rfl rfl
      · have hg : keepGap e g = none := by simp [keepGap, h1, h2]
        simp only [filterMap_cons, filterMap_nil, hg, fragmentsAt_nil]
        rw [if_neg (by unfold OneEdit.stop; omega)]
    rw [← singleton_append, filterMap_append, fragmentsAt_append, ih, hk, singleton_append]
    simp only [fragmentsAt_cons, OneEdit.stop]
    by_cases h1 : q < e.ef
    · simp [h1, show ¬ e.ef + e.len < q by omega]
    · by_cases h2 : e.ef + e.len < q <;> simp [h1, h2]

/-! Regrouping. -/

/-- The second list is the first one with fragments joined: the deleted text, the
stored fragments and the owners are the same. -/
structure Regrouped (l l' : List Fragment) : Prop where
  text : deletedText l' = deletedText l
  stored : stored l' = stored l
  owns : ∀ id, Owns l' id ↔ Owns l id
  full : (∀ f ∈ l, f.text ≠ []) → ∀ f ∈ l', f.text ≠ []

namespace Regrouped

lemma refl (l : List Fragment) : Regrouped l l := ⟨rfl, rfl, fun _ => Iff.rfl, id⟩

lemma trans {l l' l'' : List Fragment} (h : Regrouped l l') (h' : Regrouped l' l'') :
    Regrouped l l'' :=
  ⟨h'.text.trans h.text, h'.stored.trans h.stored, fun x => (h'.owns x).trans (h.owns x),
    fun hf => h'.full (h.full hf)⟩

lemma append {a a' b b' : List Fragment} (h : Regrouped a a') (h' : Regrouped b b') :
    Regrouped (a ++ b) (a' ++ b') where
  text := by simp [h.text, h'.text]
  stored := by simp [h.stored, h'.stored]
  owns x := by simp [h.owns x, h'.owns x]
  full hf f hm := by
    rcases mem_append.1 hm with hm | hm
    · exact h.full (fun f hf' => hf f (mem_append_left _ hf')) f hm
    · exact h'.full (fun f hf' => hf f (mem_append_right _ hf')) f hm

lemma push (ps : List Fragment) : Regrouped ps (pushFragments [] ps) where
  text := by simp [pushFragments_text]
  stored := by simp [pushFragments_stored]
  owns x := by simp [owns_pushFragments]
  full hf := pushFragments_forall (by simp_all) (by simp) (by simp) hf

end Regrouped

@[simp] lemma deletedText_relabel (l : List Fragment) (mine : Option ChangeRecord)
    (owned : List String) : deletedText (l.map (relabel mine owned)) = deletedText l := by
  simp only [deletedText, flatMap_map]
  rfl

lemma stored_relabel (l : List Fragment) (mine : Option ChangeRecord) (owned : List String) :
    stored (l.map (relabel mine owned)) = (stored l).map (relabel mine owned) := by
  simp only [stored, filter_map, map_map]
  rfl

lemma owns_relabel {l : List Fragment} {mine : Option ChangeRecord} {owned : List String}
    {id : String} :
    Owns (l.map (relabel mine owned)) id ↔ ∃ x, Owns l x ∧ newOwner mine owned x = id := by
  simp only [Owns, mem_map]
  constructor
  · rintro ⟨_, ⟨f, hf, rfl⟩, rfl⟩
    exact ⟨f.change, ⟨f, hf, rfl⟩, rfl⟩
  · rintro ⟨_, ⟨f, hf, rfl⟩, rfl⟩
    exact ⟨_, ⟨f, hf, rfl⟩, rfl⟩

@[simp] lemma newOwner_newOwner (mine : Option ChangeRecord) (owned : List String)
    (id : String) : newOwner mine owned (newOwner mine owned id) = newOwner mine owned id := by
  unfold newOwner
  cases mine with
  | none => rfl
  | some m => by_cases h : id ∈ owned <;> simp [h]

@[simp] lemma relabel_relabel (mine : Option ChangeRecord) (owned : List String)
    (f : Fragment) : relabel mine owned (relabel mine owned f) = relabel mine owned f := by
  simp [relabel]

lemma relabel_eq_self {mine : Option ChangeRecord} {owned : List String} {f : Fragment}
    (h : newOwner mine owned f.change = f.change) : relabel mine owned f = f := by
  simp [relabel, h]

lemma Regrouped.relabel {l l' : List Fragment} (h : Regrouped l l')
    (mine : Option ChangeRecord) (owned : List String) :
    Regrouped (l.map (relabel mine owned)) (l'.map (Track.relabel mine owned)) where
  text := by simp [h.text]
  stored := by simp [stored_relabel, h.stored]
  owns id := by simp [owns_relabel, h.owns]
  full hf f hm := by
    obtain ⟨g, hg, rfl⟩ := mem_map.1 hm
    exact h.full (fun f hf' => hf (Track.relabel mine owned f) (mem_map_of_mem hf')) g hg

/-! Where the gaps of the plan stand and what they hold. -/

lemma fragmentsAt_placeMerged_ne (fresh : ℕ → String) {pos q : ℕ} (merged : List Fragment)
    (out : List GapRow) (ids : List String) (n : ℕ) (hq : q ≠ pos) :
    fragmentsAt (placeMerged fresh pos merged out ids n).1 q = fragmentsAt out q := by
  unfold placeMerged
  split
  · rfl
  split
  · rename_i first rest hthere
    have hpos : first.1.point = pos := by
      have h : first ∈ out.filter fun g => g.1.point = pos := by simp [hthere]
      simpa using (mem_filter.1 h).2
    rw [fragmentsAt_append, fragmentsAt_singleton, if_neg (by simpa [hpos] using Ne.symm hq),
      append_nil]
    simp only [fragmentsAt, filter_filter]
    congr 1
    apply filter_congr
    intro g _
    by_cases h : g.1.point = q <;> simp [h, hq]
  · rw [fragmentsAt_append, fragmentsAt_singleton, if_neg (by simpa using Ne.symm hq),
      append_nil]

lemma fragmentsAt_placeMerged_self (fresh : ℕ → String) (pos : ℕ) (merged : List Fragment)
    (out : List GapRow) (ids : List String) (n : ℕ) :
    Regrouped (fragmentsAt out pos ++ merged)
      (fragmentsAt (placeMerged fresh pos merged out ids n).1 pos) := by
  unfold placeMerged
  split
  · rename_i h
    simpa [h] using Regrouped.refl _
  split
  · rename_i first rest hthere
    have hpos : first.1.point = pos := by
      have h : first ∈ out.filter fun g => g.1.point = pos := by simp [hthere]
      simpa using (mem_filter.1 h).2
    have hout : fragmentsAt (out.filter fun g => !decide (g.1.point = pos)) pos = [] := by
      simp [fragmentsAt, filter_filter]
    rw [fragmentsAt_append, hout, fragmentsAt_singleton, if_pos hpos, nil_append, ← hthere]
    exact Regrouped.push _
  · rw [fragmentsAt_append, fragmentsAt_singleton, if_pos rfl]
    exact Regrouped.refl _

lemma fragmentsAt_placeAfter (fresh : ℕ → String) (pos : ℕ) (after : List Fragment)
    (out : List GapRow) (ids : List String) (n q : ℕ) :
    fragmentsAt (placeAfter fresh pos after out ids n).1 q =
      fragmentsAt out q ++ if q = pos then after else [] := by
  unfold placeAfter
  split
  · rename_i h
    simp [h]
  · rw [fragmentsAt_append, fragmentsAt_singleton]
    simp only [eq_comm]

lemma relabelGap_fragments (mine : Option ChangeRecord) (owned : List String) (g : GapRow) :
    (relabelGap mine owned g).1.point = g.1.point ∧
      Regrouped (g.1.fragments.map (relabel mine owned)) (relabelGap mine owned g).1.fragments := by
  cases mine with
  | none =>
    refine ⟨rfl, ?_⟩
    have h : g.1.fragments.map (relabel none owned) = g.1.fragments := map_id _
    rw [h]
    exact Regrouped.refl _
  | some m =>
    simp only [relabelGap]
    split <;> rename_i h
    · exact ⟨rfl, Regrouped.push _⟩
    · refine ⟨rfl, ?_⟩
      have hid : g.1.fragments.map (relabel (some m) owned) = g.1.fragments := by
        rw [map_congr_left (g := id), map_id]
        intro f hf
        refine relabel_eq_self ?_
        simp only [any_eq_true, not_exists, not_and, Bool.and_eq_true, decide_eq_true_eq,
          decide_not, Bool.not_eq_true', decide_eq_false_iff_not, not_not] at h
        by_cases ho : f.change ∈ owned
        · simp [newOwner, h f hf ho]
        · simp [newOwner, ho]
      rw [hid]
      exact Regrouped.refl _

lemma fragmentsAt_relabelGap (mine : Option ChangeRecord) (owned : List String)
    (gaps : List GapRow) (q : ℕ) :
    Regrouped ((fragmentsAt gaps q).map (relabel mine owned))
      (fragmentsAt (gaps.map (relabelGap mine owned)) q) := by
  induction gaps with
  | nil => exact Regrouped.refl _
  | cons g gaps ih =>
    obtain ⟨hp, hf⟩ := relabelGap_fragments mine owned g
    rw [map_cons, fragmentsAt_cons, fragmentsAt_cons, hp, map_append]
    refine Regrouped.append ?_ ih
    split
    · exact hf
    · exact Regrouped.refl _

lemma gapPieces_eq {gaps : List GapRow} {e : OneEdit} {mine : Option ChangeRecord}
    {owned : List String} {p : ℕ} (h1 : e.ef ≤ p) (h2 : p ≤ e.et) :
    gapPieces (swallowed gaps e) mine owned p = (fragmentsAt gaps p).map (relabel mine owned) := by
  simp only [gapPieces, swallowed, fragmentsAt, filter_map, flatMap_map, filter_filter]
  congr 2
  apply filter_congr
  intro g _
  by_cases h : g.1.point = p <;> simp [h, h1, h2]

namespace Call

/-- The pieces that merge at one position of the edit: the gaps there, then the
original character. -/
def pieces (c : Call) (p : ℕ) : List Fragment :=
  (if c.splitAtEnd && p = c.edit.et then [] else
    (fragmentsAt c.gaps p).map (relabel c.mine c.owned)) ++
    originalPiece c.cur c.changes c.mine c.edit p

/-- What the gaps of the plan hold at `q`, before joining: the kept fragments, then the
merged ones, then those that come after the inserted text. -/
def layout (c : Call) (q : ℕ) : List Fragment :=
  (fragmentsAt (c.gaps.filterMap (keepGap c.edit)) q).map (relabel c.mine c.owned) ++
    (if q = c.pos then joinRange c.pieces c.edit.ef (c.edit.et + 1) else []) ++
    if q = c.edit.stop ∧ c.splitAtEnd = true then
      (fragmentsAt c.gaps c.edit.et).map (relabel c.mine c.owned) else []

variable {c : Call}

lemma merged_eq : c.merged = pushFragments [] (joinRange c.pieces c.edit.ef (c.edit.et + 1)) := by
  simp only [merged, mergedFragments, joinRange]
  congr 1
  apply flatMap_congr
  intro p hp
  simp only [mem_range'_1] at hp
  rw [sw, gapPieces_eq hp.1 (by omega)]
  rfl

lemma merged_regrouped :
    Regrouped (joinRange c.pieces c.edit.ef (c.edit.et + 1)) c.merged := by
  rw [merged_eq]
  exact Regrouped.push _

lemma after_eq (he : c.edit.ef ≤ c.edit.et) :
    c.after = if c.splitAtEnd = true then
      pushFragments [] ((fragmentsAt c.gaps c.edit.et).map (relabel c.mine c.owned)) else [] := by
  unfold after afterFragments
  rw [sw, gapPieces_eq he le_rfl]

lemma after_regrouped (he : c.edit.ef ≤ c.edit.et) :
    Regrouped (if c.splitAtEnd = true then
      (fragmentsAt c.gaps c.edit.et).map (relabel c.mine c.owned) else []) c.after := by
  rw [after_eq he]
  split
  · exact Regrouped.push _
  · exact Regrouped.refl _

lemma pieces_relabel (p : ℕ) :
    (c.pieces p).map (relabel c.mine c.owned) = c.pieces p := by
  have h : (originalPiece c.cur c.changes c.mine c.edit p).map (relabel c.mine c.owned) =
      originalPiece c.cur c.changes c.mine c.edit p := by
    unfold originalPiece
    split
    · rename_i m ch hm _
      split
      · simp [relabel, newOwner, hm]
      · rfl
    · rfl
  simp only [pieces, map_append, h]
  split <;> simp [Function.comp_def]

/-- The gaps of the plan hold at every position what `layout` says. -/
lemma gapRows_regrouped (he : c.edit.ef ≤ c.edit.et) (q : ℕ) :
    Regrouped (c.layout q) (fragmentsAt c.gapRows q) := by
  have hsort : fragmentsAt c.gapRows q = fragmentsAt c.gapsOut q := fragmentsAt_sort _ _
  rw [hsort]
  refine Regrouped.trans ?_ (fragmentsAt_relabelGap c.mine c.owned c.all.1 q)
  have hall : Regrouped (fragmentsAt (c.gaps.filterMap (keepGap c.edit)) q ++
      (if q = c.pos then joinRange c.pieces c.edit.ef (c.edit.et + 1) else []) ++
      if q = c.edit.stop ∧ c.splitAtEnd = true then
        (fragmentsAt c.gaps c.edit.et).map (relabel c.mine c.owned) else [])
      (fragmentsAt c.all.1 q) := by
    rw [all, fragmentsAt_placeAfter]
    refine Regrouped.append ?_ ?_
    · by_cases hq : q = c.pos
      · subst hq
        simp only [if_true]
        exact (Regrouped.append (Regrouped.refl _) merged_regrouped).trans
          (fragmentsAt_placeMerged_self _ _ _ _ _ _)
      · rw [if_neg hq, append_nil, placed, fragmentsAt_placeMerged_ne _ _ _ _ _ hq]
        exact Regrouped.refl _
    · by_cases hq : q = c.edit.stop
      · simpa [hq] using after_regrouped he
      · simpa [hq] using Regrouped.refl _
  have h := hall.relabel c.mine c.owned
  have hseg : (joinRange c.pieces c.edit.ef (c.edit.et + 1)).map (relabel c.mine c.owned) =
      joinRange c.pieces c.edit.ef (c.edit.et + 1) := by
    rw [map_joinRange]
    exact joinRange_congr fun p _ _ => pieces_relabel p
  simp only [map_append, apply_ite (map (relabel c.mine c.owned)), hseg,
    map_map, Function.comp_def, relabel_relabel, map_nil] at h
  exact h

end Call

/-! The positions of the gaps. -/

/-- The positions of the gaps, in their order. -/
def points (gaps : List GapRow) : List ℕ := gaps.map (·.1.point)

lemma mem_points {gaps : List GapRow} {q : ℕ} :
    q ∈ points gaps ↔ ∃ g ∈ gaps, g.1.point = q := by simp [points]

lemma fragmentsAt_eq_nil {gaps : List GapRow} {q : ℕ} (h : q ∉ points gaps) :
    fragmentsAt gaps q = [] := by
  rw [mem_points] at h
  simp only [fragmentsAt, flatMap_eq_nil_iff, mem_filter, decide_eq_true_eq]
  exact fun g hg => absurd ⟨g, hg⟩ h

lemma points_keepGap (e : OneEdit) (gaps : List GapRow) :
    points (gaps.filterMap (keepGap e)) = (points gaps).filterMap fun p =>
      if p < e.ef then some p else if e.et < p then some (e.shift p) else none := by
  induction gaps with
  | nil => rfl
  | cons g gaps ih =>
    simp only [points, map_cons, filterMap_cons, keepGap] at ih ⊢
    split_ifs <;> simp [ih]

lemma mem_points_keepGap {e : OneEdit} {gaps : List GapRow} {q : ℕ} :
    q ∈ points (gaps.filterMap (keepGap e)) ↔
      (q < e.ef ∧ q ∈ points gaps) ∨ ∃ p ∈ points gaps, e.ef ≤ p ∧ e.et < p ∧ q = e.shift p := by
  rw [points_keepGap, mem_filterMap]
  constructor
  · rintro ⟨p, hp, h⟩
    split_ifs at h with h1 h2
    · rw [Option.some.injEq] at h
      exact .inl ⟨h ▸ h1, h ▸ hp⟩
    · rw [Option.some.injEq] at h
      exact .inr ⟨p, hp, by omega, h2, h.symm⟩
  · rintro (⟨h1, hp⟩ | ⟨p, hp, h1, h2, rfl⟩)
    · exact ⟨q, hp, if_pos h1⟩
    · exact ⟨p, hp, by rw [if_neg (by omega), if_pos h2]⟩

lemma nodup_points_keepGap {e : OneEdit} (he : e.ef ≤ e.et) {gaps : List GapRow}
    (h : (points gaps).Nodup) : (points (gaps.filterMap (keepGap e))).Nodup := by
  rw [points_keepGap]
  refine h.filterMap ?_
  intro p p' q hp hp'
  simp only [Option.mem_def, OneEdit.shift] at hp hp'
  split_ifs at hp hp' <;> simp only [Option.some.injEq] at hp hp' <;> omega

lemma mem_points_placeMerged {fresh : ℕ → String} {pos : ℕ} {merged : List Fragment}
    {out : List GapRow} {ids : List String} {n q : ℕ}
    (h : q ∈ points (placeMerged fresh pos merged out ids n).1) :
    q ∈ points out ∨ (q = pos ∧ merged ≠ []) := by
  unfold placeMerged at h
  split at h <;> rename_i hm
  · exact .inl h
  split at h
  · rename_i first rest hthere
    have hpos : first.1.point = pos := by
      have h : first ∈ out.filter fun g => g.1.point = pos := by simp [hthere]
      simpa using (mem_filter.1 h).2
    simp only [points, map_append, map_cons, map_nil, mem_append, mem_singleton, hpos] at h
    rcases h with h | h
    · obtain ⟨g, hg, rfl⟩ := mem_map.1 h
      exact .inl (mem_points.2 ⟨g, mem_of_mem_filter hg, rfl⟩)
    · exact .inr ⟨h, hm⟩
  · simp only [points, map_append, map_cons, map_nil, mem_append,
      mem_singleton] at h
    exact h.imp_right fun h => ⟨h, hm⟩

lemma nodup_points_placeMerged {fresh : ℕ → String} {pos : ℕ} {merged : List Fragment}
    {out : List GapRow} {ids : List String} {n : ℕ} (h : (points out).Nodup) :
    (points (placeMerged fresh pos merged out ids n).1).Nodup := by
  unfold placeMerged
  split
  · exact h
  split
  · rename_i first rest hthere
    have hpos : first.1.point = pos := by
      have h : first ∈ out.filter fun g => g.1.point = pos := by simp [hthere]
      simpa using (mem_filter.1 h).2
    simp only [points, map_append, map_cons, map_nil, hpos] at h ⊢
    refine Nodup.append (h.sublist (filter_sublist.map _)) (by simp) ?_
    simp [disjoint_singleton]
  · rename_i hthere
    simp only [points, map_append, map_cons, map_nil] at h ⊢
    refine Nodup.append h (by simp) ?_
    simpa [disjoint_singleton] using hthere

lemma points_placeAfter (fresh : ℕ → String) (pos : ℕ) (after : List Fragment)
    (out : List GapRow) (ids : List String) (n : ℕ) :
    points (placeAfter fresh pos after out ids n).1 =
      points out ++ if after = [] then [] else [pos] := by
  unfold placeAfter
  split <;> simp [points]

lemma points_relabelGap (mine : Option ChangeRecord) (owned : List String)
    (gaps : List GapRow) : points (gaps.map (relabelGap mine owned)) = points gaps := by
  simp [points, map_map, Function.comp_def, (relabelGap_fragments mine owned _).1]

namespace Call
variable {c : Call}

lemma pos_le : c.pos ≤ c.edit.ef := by
  unfold pos
  cases h : c.mine with
  | none => simp
  | some m =>
    simp only [Option.map_some, Option.getD_some]
    unfold mine made mineOf at h
    have hle : widenFrom c.changes c.owned c.edit ≤ c.edit.ef := by
      unfold widenFrom
      exact foldl_min_le.2 (.inl le_rfl)
    split at h
    · split at h <;> simp only [Option.some.injEq] at h <;> subst h <;> exact hle
    · simp at h

lemma perm_points_gapRows :
    (points c.gapRows).Perm (points c.placed.1 ++ if c.after = [] then [] else [c.edit.stop]) := by
  have h : (points c.gapRows).Perm (points c.gapsOut) := (sortByKey_perm _ _).map _
  refine h.trans (Perm.of_eq ?_)
  rw [gapsOut, points_relabelGap, all, points_placeAfter]

/-- Where a gap of the plan stands. -/
lemma mem_points_gapRows {q : ℕ} (h : q ∈ points c.gapRows) :
    (q < c.edit.ef ∧ q ∈ points c.gaps) ∨
      (∃ p ∈ points c.gaps, c.edit.ef ≤ p ∧ c.edit.et < p ∧ q = c.edit.shift p) ∨
      (q = c.pos ∧ c.merged ≠ []) ∨ (q = c.edit.stop ∧ c.after ≠ []) := by
  rw [perm_points_gapRows.mem_iff, mem_append] at h
  rcases h with h | h
  · rcases mem_points_placeMerged h with h | h
    · exact (mem_points_keepGap.1 h).imp_right .inl
    · exact .inr (.inr (.inl h))
  · split at h <;> rename_i ha
    · simp at h
    · exact .inr (.inr (.inr ⟨by simpa using h, ha⟩))

lemma splitAtEnd_len (h : c.after ≠ []) : c.splitAtEnd = true ∧ 0 < c.edit.len := by
  unfold after afterFragments at h
  split at h <;> rename_i hs
  · refine ⟨hs, ?_⟩
    unfold splitAtEnd at hs
    simp only [Bool.and_eq_true, decide_eq_true_eq] at hs
    exact hs.1
  · simp at h

/-- One edit leaves at most one gap at each position. -/
lemma nodup_points_gapRows (he : c.edit.ef ≤ c.edit.et) (h : (points c.gaps).Nodup) :
    (points c.gapRows).Nodup := by
  rw [perm_points_gapRows.nodup_iff]
  refine Nodup.append (nodup_points_placeMerged (nodup_points_keepGap he h)) (by split <;> simp) ?_
  split <;> rename_i ha
  · simp
  · have hlen := (splitAtEnd_len ha).2
    have hpos := pos_le (c := c)
    rw [disjoint_singleton]
    intro hm
    rcases mem_points_placeMerged hm with hm | ⟨hq, -⟩
    · rcases mem_points_keepGap.1 hm with ⟨h1, -⟩ | ⟨p, -, h1, h2, hq⟩
      · simp only [OneEdit.stop] at h1
        omega
      · simp only [OneEdit.stop, OneEdit.shift] at hq
        omega
    · simp only [OneEdit.stop] at hq
      omega

end Call

end LibrePaper.Track
