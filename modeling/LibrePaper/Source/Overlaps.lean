import LibrePaper.Library.Replacing
import LibrePaper.Source.Patched
import LibrePaper.Track.Agreement

/-!
# Checking neighbours for overlaps

Ranges are checked against the one before them only. For the rules in use that is enough: a list is
accepted when every two of its ranges may stand together. Edits with accepted ranges leave the same
text from the last to the first and in order.
-/
namespace LibrePaper.Source
open Library Anchors List

/-- Two ranges that share nothing, neither an insertion strictly inside the other. -/
structure Apart (a b : ℕ × ℕ) : Prop where
  disjoint : ∀ p, ¬(a.1 ≤ p ∧ p < a.2 ∧ b.1 ≤ p ∧ p < b.2)
  left : a.1 = a.2 → ¬(b.1 < a.1 ∧ a.1 < b.2)
  right : b.1 = b.2 → ¬(a.1 < b.1 ∧ b.1 < a.2)

/-- An earlier range and a later one may stand in a list together. Two insertions at one place need
the rule that allows them, and a rule that wants sorted ranges wants them ascending, by their starts
and then by their ends. -/
structure Compatible (policy : OverlapPolicy) (a b : ℕ × ℕ) : Prop where
  apart : Apart a b
  coincident : policy.coincidentInserts = false → ¬(a.1 = a.2 ∧ a = b)
  ascending : policy.sortedInput = true → toLex a ≤ toLex b

/-- The rules in use let ranges touch. -/
structure LetsTouch (policy : OverlapPolicy) : Prop where
  touching : policy.touching = true
  boundary : policy.insertAtBoundary = true

variable {policy : OverlapPolicy} {text out : List Char} {edits : List Edit}

lemma letsTouch (h : policy ∈ [applySorted, agentPatch]) : LetsTouch policy := by
  rcases mem_cons.1 h with rfl | h
  · exact ⟨rfl, rfl⟩
  · rw [mem_singleton.1 h]
    exact ⟨rfl, rfl⟩

section Ranges
variable {policy : OverlapPolicy} {a b c : ℕ × ℕ} {ranges : List (ℕ × ℕ)}

lemma conflicts_eq_false (hp : LetsTouch policy) (ha : a.1 ≤ a.2) :
    conflicts policy a b = false ↔
      a.2 ≤ b.1 ∧ (policy.coincidentInserts = false → ¬(a.1 = a.2 ∧ a = b)) := by
  obtain ⟨a1, a2⟩ := a
  obtain ⟨b1, b2⟩ := b
  unfold conflicts
  rw [hp.touching, hp.boundary]
  cases policy.coincidentInserts <;> grind

lemma lex_iff : toLex a ≤ toLex b ↔ a.1 < b.1 ∨ a.1 = b.1 ∧ a.2 ≤ b.2 := Prod.Lex.toLex_le_toLex

/-- A range follows one that is not after it exactly when they are apart. -/
lemma apart_iff (hb : b.1 ≤ b.2) (h : toLex a ≤ toLex b) :
    Apart a b ↔ a.2 ≤ b.1 := by
  rw [lex_iff] at h
  constructor
  · intro hapart
    by_contra hlt
    have hleft := hapart.disjoint b.1
    have hright := hapart.right
    omega
  · intro hle
    exact ⟨fun p => by omega, fun _ => by omega, fun _ => by omega⟩

lemma lex_of_follows (ha : a.1 ≤ a.2) (hb : b.1 ≤ b.2) (h : a.2 ≤ b.1) : toLex a ≤ toLex b := by
  rw [lex_iff]
  omega

lemma anyConflict_iff (hp : LetsTouch policy) (hle : ∀ r ∈ ranges, r.1 ≤ r.2) :
    anyConflict policy ranges = false ↔
      ranges.Pairwise fun a b => conflicts policy a b = false := by
  induction ranges with
  | nil => exact iff_of_true rfl Pairwise.nil
  | cons a ranges ih =>
    have ih := ih fun r hr => hle r (mem_cons_of_mem _ hr)
    cases ranges with
    | nil => exact iff_of_true rfl (pairwise_singleton _ _)
    | cons b ranges =>
      have ha := hle a mem_cons_self
      have hb := hle b (mem_cons_of_mem _ mem_cons_self)
      rw [anyConflict, Bool.or_eq_false_iff, ih, pairwise_cons (a := a)]
      refine and_congr_left fun hrest => ⟨fun hab c hc => ?_, fun h => h b mem_cons_self⟩
      rcases mem_cons.1 hc with rfl | hc
      · exact hab
      · have hbc := (pairwise_cons.1 hrest).1 c hc
        rw [conflicts_eq_false hp ha] at hab ⊢
        rw [conflicts_eq_false hp hb] at hbc
        refine ⟨by omega, fun hno heq => hab.2 hno ⟨heq.1, ?_⟩⟩
        obtain ⟨h1, rfl⟩ := heq
        refine Prod.ext ?_ ?_ <;> omega

lemma Apart.symm (h : Apart a b) : Apart b a :=
  ⟨fun p hp => h.disjoint p ⟨hp.2.2.1, hp.2.2.2, hp.1, hp.2.1⟩, h.right, h.left⟩

lemma compatible_iff (hp : LetsTouch policy) (ha : a.1 ≤ a.2) (hb : b.1 ≤ b.2)
    (h : toLex a ≤ toLex b) : conflicts policy a b = false ↔ Compatible policy a b := by
  rw [conflicts_eq_false hp ha, ← apart_iff hb h]
  exact ⟨fun hab => ⟨hab.1, hab.2, fun _ => h⟩, fun hab => ⟨hab.apart, hab.coincident⟩⟩

lemma overlapping_iff (hpolicy : policy ∈ [applySorted, agentPatch])
    (hle : ∀ r ∈ ranges, r.1 ≤ r.2) :
    overlapping policy ranges = false ↔ ranges.Pairwise (Compatible policy) := by
  have hp := letsTouch hpolicy
  rcases mem_cons.1 hpolicy with rfl | hpolicy
  · have hsame : overlapping applySorted ranges = anyConflict applySorted ranges := rfl
    rw [hsame, anyConflict_iff hp hle]
    refine Pairwise.iff_of_mem fun {a b} ha hb => ?_
    constructor
    · intro hab
      have hlex := lex_of_follows (hle a ha) (hle b hb) ((conflicts_eq_false hp (hle a ha)).1 hab).1
      exact (compatible_iff hp (hle a ha) (hle b hb) hlex).1 hab
    · intro hab
      exact (compatible_iff hp (hle a ha) (hle b hb) (hab.ascending rfl)).2 hab
  · obtain rfl := mem_singleton.1 hpolicy
    have hle' : ∀ r ∈ sortByKey toLex ranges, r.1 ≤ r.2 := fun r hr =>
      hle r ((mem_sortByKey _ _ _).1 hr)
    have hsorted : (sortByKey toLex ranges).Pairwise fun a b => toLex a ≤ toLex b :=
      pairwise_insertionSort _ _
    have hsymm : ∀ {a b : ℕ × ℕ}, Compatible agentPatch a b → Compatible agentPatch b a :=
      fun h => ⟨h.apart.symm, fun hno heq => h.coincident hno ⟨heq.2 ▸ heq.1, heq.2.symm⟩,
        fun hno => by cases hno⟩
    have hsame : overlapping agentPatch ranges =
        anyConflict agentPatch (sortByKey toLex ranges) := rfl
    rw [hsame, anyConflict_iff hp hle',
      ← (sortByKey_perm toLex ranges).pairwise_iff hsymm]
    constructor
    · intro h
      refine (h.and hsorted).imp_of_mem fun {a b} ha hb hab => ?_
      exact (compatible_iff hp (hle' a ha) (hle' b hb) hab.2).1 hab.1
    · intro h
      refine (h.and hsorted).imp_of_mem fun {a b} ha hb hab => ?_
      exact (compatible_iff hp (hle' a ha) (hle' b hb) hab.2).2 hab.1

example : overlapping applySorted [(2, 4), (2, 2)] = true ∧
    overlapping agentPatch [(2, 4), (2, 2)] = false := by decide

end Ranges

section Orders
variable {α : Type}

/-- The edits in the order in which their ranges are checked. -/
def visited (policy : OverlapPolicy) (edits : List (Replacement α)) : List (Replacement α) :=
  if policy.sortedInput then edits else sortByKey (fun e => toLex e.range) edits

lemma range_le (edits : List (Replacement α)) : ∀ r ∈ edits.map Replacement.range, r.1 ≤ r.2 := by
  intro r hr
  obtain ⟨e, -, rfl⟩ := mem_map.1 hr
  exact Nat.le_add_right _ _

lemma visited_follows (hpolicy : policy ∈ [applySorted, agentPatch])
    {edits : List (Replacement α)} (h : overlapping policy (edits.map Replacement.range) = false) :
    (visited policy edits).Pairwise fun a b => a.stop ≤ b.pos := by
  have hvisited : (if policy.sortedInput then edits.map Replacement.range
      else sortByKey toLex (edits.map Replacement.range)) =
        (visited policy edits).map Replacement.range := by
    rw [visited]
    split
    · rfl
    · exact sortByKey_map _ _ _ (fun _ _ => Iff.rfl) edits
  rw [overlapping, hvisited, anyConflict_iff (letsTouch hpolicy) (range_le _), pairwise_map] at h
  refine h.imp fun {a b} hab => ?_
  exact ((conflicts_eq_false (letsTouch hpolicy) (Nat.le_add_right _ _)).1 hab).1

end Orders

/-- An edit of code units. -/
def unitReplacement (e : Edit) : Replacement UInt16 := ⟨e.pos, e.delete, Browser.utf16 e.insert⟩

lemma utf16_applyEdit {e : Edit} (h : applyEdit text e = some out) :
    Browser.utf16 out =
      splice (Browser.utf16 text) e.pos (e.pos + e.delete) (Browser.utf16 e.insert) := by
  rw [applyEdit] at h
  obtain ⟨first, hfirst, h⟩ := Option.bind_eq_some_iff.1 h
  obtain ⟨last, hlast, h⟩ := Option.bind_eq_some_iff.1 h
  cases h
  have hpos : lenUtf16 (text.take first) = e.pos := boundaryAt_some hfirst
  have hstop : lenUtf16 (text.take last) = e.pos + e.delete := boundaryAt_some hlast
  have htake := take_utf16 (text.take first) (text.drop first)
  have hdrop := drop_utf16 (text.take last) (text.drop last)
  rw [take_append_drop] at htake hdrop
  rw [splice, splice, ← hstop, ← hpos, htake, hdrop, utf16_append, utf16_append]

/-- The text after the edits, from the last to the first, in code units. -/
lemma utf16_applyTextEdits (h : applyTextEdits text edits = some out) :
    Browser.utf16 out = Replacement.fromLast (Browser.utf16 text) (edits.map unitReplacement) := by
  rw [applyTextEdits] at h
  split at h
  · cases h
  clear * - h
  induction edits generalizing out with
  | nil =>
    cases h
    rfl
  | cons e edits ih =>
    obtain ⟨mid, hmid, hout⟩ := Option.bind_eq_some_iff.1 h
    rw [utf16_applyEdit hout, ih hmid]
    rfl

lemma fits_applyTextEdits (h : applyTextEdits text edits = some out) :
    overlapping applySorted ((edits.map unitReplacement).map Replacement.range) = false ∧
      ∀ e ∈ edits.map unitReplacement, e.stop ≤ (Browser.utf16 text).length := by
  rw [applyTextEdits] at h
  split at h
  · cases h
  · next hno =>
    rw [Bool.not_eq_true, Bool.or_eq_false_iff] at hno
    rw [map_map]
    refine ⟨hno.2, fun e he => ?_⟩
    obtain ⟨x, hx, rfl⟩ := mem_map.1 he
    rw [length_utf16]
    have hfit := any_eq_false.1 hno.1 x hx
    rw [decide_eq_true_eq, Nat.not_lt] at hfit
    exact hfit

/-- An edit of a plan. -/
def plannedEdit (e : Replacement Char) : Track.Edit := ⟨e.pos, e.stop, e.insert⟩

lemma planStep_next (fresh : ℕ → String) (state : Track.FileState) (me : Track.Author)
    (run : Option String) (now : ℤ) (untracked : Bool) (p : Track.Progress)
    {e : Replacement Char} (h : 0 ≤ e.pos + p.adj) :
    let p' := Track.planStep fresh state me run now untracked p (plannedEdit e)
    (p'.cur, p'.adj) = Replacement.next (p.cur, p.adj) e := by
  have hstop : ((plannedEdit e).toPos : ℤ) = e.pos + e.delete := by
    show ((e.pos + e.delete : ℕ) : ℤ) = _
    push_cast
    rfl
  rw [Track.planStep, Replacement.next]
  dsimp only
  by_cases hnone : ((plannedEdit e).fromPos + p.adj).toNat = ((plannedEdit e).toPos + p.adj).toNat ∧
      (plannedEdit e).insert = []
  · rw [if_pos hnone]
    obtain ⟨heq, hins⟩ := hnone
    have hins : e.insert = [] := hins
    have heq : ((e.pos : ℤ) + p.adj).toNat = ((e.stop : ℤ) + p.adj).toNat := heq
    have hdelete : e.delete = 0 := by
      have hstop : (e.stop : ℤ) = e.pos + e.delete := hstop
      omega
    rw [hins, heq, splice, append_nil, take_append_drop, hdelete]
    simp
  · rw [if_neg hnone]
    refine Prod.ext rfl ?_
    show p.adj + ((e.insert.length : ℕ) : ℤ) - ((((e.stop : ℤ) + p.adj).toNat : ℤ) -
      (((e.pos : ℤ) + p.adj).toNat : ℤ)) = p.adj + e.insert.length - e.delete
    have hstop : (e.stop : ℤ) = e.pos + e.delete := hstop
    omega

/-- The text of a plan is that of the edits in order. -/
lemma foldl_planStep (fresh : ℕ → String) (state : Track.FileState) (me : Track.Author)
    (run : Option String) (now : ℤ) (untracked : Bool) {edits : List (Replacement Char)} {lo : ℕ}
    {p : Track.Progress} (h : Replacement.Follows lo edits) (hlo : 0 ≤ lo + p.adj) :
    ((edits.map plannedEdit).foldl (Track.planStep fresh state me run now untracked) p).cur =
      (edits.foldl Replacement.next (p.cur, p.adj)).1 := by
  induction edits generalizing lo p with
  | nil => rfl
  | cons e edits ih =>
    have hpos := h.1 e mem_cons_self
    have hstep := planStep_next fresh state me run now untracked p (e := e) (by omega)
    rw [map_cons, foldl_cons, foldl_cons, ← hstep]
    refine ih h.tail ?_
    have hadj := congrArg Prod.snd hstep
    have hadj : (Track.planStep fresh state me run now untracked p (plannedEdit e)).adj =
        p.adj + e.insert.length - e.delete := hadj
    have hstop : e.stop = e.pos + e.delete := rfl
    omega

lemma planText_eq (fresh : ℕ → String) (before : List Char) (state : Track.FileState)
    {edits : List (Replacement Char)} (me : Track.Author) (run : Option String) (now : ℤ)
    (untracked : Bool) (n : ℕ) (h : edits.Pairwise fun a b => a.stop ≤ b.pos)
    (hfit : ∀ e ∈ edits, e.stop ≤ before.length) :
    Track.planText fresh before state (edits.map plannedEdit) me run now untracked n =
      Replacement.fromLast before edits := by
  rw [Replacement.fromLast_eq_inOrder h hfit]
  have hfollows : Replacement.Follows 0 edits := ⟨fun _ _ => Nat.zero_le _, h⟩
  exact foldl_planStep fresh state me run now untracked hfollows le_rfl

/-- For the rules in use, checking each range against the one before it accepts exactly the lists
whose ranges may all stand together, and edits with accepted ranges that fit a text leave the same
text from the last to the first and in order. So `apply_text_edits`, which goes from the last to the
first, and `plan_edits`, which goes in order, agree. -/
theorem neighbours_suffice :
    (∀ policy ∈ [applySorted, agentPatch], ∀ (α : Type) (edits : List (Replacement α)),
      (overlapping policy (edits.map Replacement.range) = false ↔
        (edits.map Replacement.range).Pairwise (Compatible policy)) ∧
      (overlapping policy (edits.map Replacement.range) = false → ∀ text : List α,
        (∀ e ∈ edits, e.stop ≤ text.length) →
          Replacement.fromLast text (visited policy edits) =
            Replacement.inOrder text (visited policy edits))) ∧
    (∀ (text out : List Char) (edits : List Edit), applyTextEdits text edits = some out →
      Browser.utf16 out = Replacement.inOrder (Browser.utf16 text) (edits.map unitReplacement)) ∧
    ∀ (before : List Char) (edits : List (Replacement Char)),
      overlapping applySorted (edits.map Replacement.range) = false →
      (∀ e ∈ edits, e.stop ≤ before.length) → ∀ fresh state me run now untracked n,
        Track.planText fresh before state (edits.map plannedEdit) me run now untracked n =
          Replacement.fromLast before edits := by
  refine ⟨fun policy hpolicy α edits => ⟨overlapping_iff hpolicy (range_le edits),
    fun h text hfit => ?_⟩, fun text out edits h => ?_, ?_⟩
  · refine Replacement.fromLast_eq_inOrder (visited_follows hpolicy h) fun e he => hfit e ?_
    rw [visited] at he
    split at he
    · exact he
    · exact (mem_sortByKey _ _ _).1 he
  · obtain ⟨haccepted, hfit⟩ := fits_applyTextEdits h
    have hfollows := visited_follows (mem_cons_self (l := [agentPatch])) haccepted
    rw [utf16_applyTextEdits h]
    exact Replacement.fromLast_eq_inOrder hfollows hfit
  · intro before edits h hfit fresh state me run now untracked n
    have hfollows := visited_follows (mem_cons_self (l := [agentPatch])) h
    exact planText_eq fresh before state me run now untracked n hfollows hfit

end LibrePaper.Source
