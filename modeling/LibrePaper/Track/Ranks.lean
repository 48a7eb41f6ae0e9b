import LibrePaper.Library.Rising
import LibrePaper.Track.Records

/-!
# The ranks of a gap

The fragments of a gap are read back in the order of their ranks. A writer gives each fragment a
rank and keeps as many of the stored ones as it can, so that a peer that adds a fragment beside one
of ours does not move ours. The midpoint of two ranks is a parameter, as a midpoint of floating
point numbers may fall onto one of them.
-/
namespace LibrePaper.Track
open Library List Option Function

/-- The fragments that keep their stored rank, and the ranks that are known so far. -/
structure Ranking where
  keep : ℕ → Bool
  out : ℕ → Option ℚ

namespace Ranking

/-- The nearest rank before `i`. -/
def lower (s : Ranking) (i : ℕ) : Option ℚ := (List.range i).reverse.findSome? s.out

/-- The rank of the next fragment after `i` that keeps it. -/
def upper (n : ℕ) (s : Ranking) (i : ℕ) : Option ℚ :=
  ((List.range' (i + 1) (n - (i + 1))).find? s.keep).bind s.out

/-- A rank between two others, one past the last, or one before the first. -/
def between (midpoint : ℚ → ℚ → ℚ) : Option ℚ → Option ℚ → ℚ
  | none, none => 0
  | none, some hi => hi - 1
  | some lo, none => lo + 1
  | some lo, some hi => midpoint lo hi

/-- The rank is not between the others. -/
def collapsed (lo hi : Option ℚ) (v : ℚ) : Bool := lo.any (v ≤ ·) || hi.any (· ≤ v)

/-- The fragment at `i` takes its rank. Where the midpoint collapses it takes one past the lower
one, and the kept ranks after it go. -/
def step (midpoint : ℚ → ℚ → ℚ) (n : ℕ) (s : Ranking) (i : ℕ) : Ranking :=
  if s.keep i then s
  else
    let lo := s.lower i
    let hi := s.upper n i
    let v := between midpoint lo hi
    if collapsed lo hi v then
      { keep := fun j => s.keep j && decide (j ≤ i)
        out := Function.update s.out i (some ((lo.map fun r => r + 1).getD v)) }
    else { s with out := Function.update s.out i (some v) }

end Ranking

/-- The stored rank of each fragment. -/
def storedRank (fragments : List Fragment) (i : ℕ) : Option ℚ := fragments[i]?.bind Fragment.rank

/-- The longest run of stored ranks that rises keeps its values. -/
def startRanking (fragments : List Fragment) : Ranking :=
  let run := longestRun (storedRank fragments) fragments.length
  { keep := fun i => decide (i ∈ run)
    out := fun i => if i ∈ run then storedRank fragments i else none }

/-- Ranks for the fragments of one gap, in document order. -/
def rankGap (midpoint : ℚ → ℚ → ℚ) (fragments : List Fragment) : List ℚ :=
  let n := fragments.length
  let s := (List.range n).foldl (Ranking.step midpoint n) (startRanking fragments)
  (List.range n).map fun i => (s.out i).getD 0

namespace Ranking
variable {midpoint : ℚ → ℚ → ℚ} {n i : ℕ} {s : Ranking}

/-- The rank at `j` stands when the pass is at `i`. -/
def Stands (i : ℕ) (s : Ranking) (j : ℕ) : Prop := j < i ∨ s.keep j = true

/-- The ranks that stand rise. -/
structure Rise (n i : ℕ) (s : Ranking) : Prop where
  value : ∀ j < n, s.Stands i j → ∃ v, s.out j = some v
  rising : ∀ j k, j < k → k < n → s.Stands i j → s.Stands i k →
    ∀ x y, s.out j = some x → s.out k = some y → x < y

lemma Rise.lower_spec (h : Rise n i s) (hi : i < n) :
    (s.lower i = none → i = 0) ∧
      ∀ lo, s.lower i = some lo →
        (∃ j < i, s.out j = some lo) ∧ ∀ j < i, ∀ x, s.out j = some x → x ≤ lo := by
  cases i with
  | zero => exact ⟨fun _ => rfl, nofun⟩
  | succ i =>
    obtain ⟨v, hv⟩ := h.value i (Nat.lt_of_succ_lt hi) (.inl (Nat.lt_succ_self i))
    have hlower : s.lower (i + 1) = some v := by
      rw [lower, range_succ, reverse_append, reverse_singleton,
        singleton_append, findSome?_cons, hv]
    rw [hlower]
    refine ⟨fun hno => (by cases hno), fun lo hlo => ?_⟩
    cases hlo
    refine ⟨⟨i, Nat.lt_succ_self i, hv⟩, fun j hj x hx => ?_⟩
    rcases Nat.lt_succ_iff_lt_or_eq.1 hj with hj | rfl
    · exact (h.rising j i hj (Nat.lt_of_succ_lt hi) (.inl (Nat.lt_succ_of_lt hj))
        (.inl (Nat.lt_succ_self i)) x v hx hv).le
    · cases hv.symm.trans hx
      exact le_rfl

lemma Rise.upper_spec (h : Rise n i s) :
    (s.upper n i = none → ∀ j, i < j → j < n → s.keep j = false) ∧
      ∀ hi, s.upper n i = some hi →
        (∃ k, i < k ∧ k < n ∧ s.keep k = true ∧ s.out k = some hi) ∧
        ∀ j, i < j → j < n → s.keep j = true → ∀ y, s.out j = some y → hi ≤ y := by
  cases hfind : (range' (i + 1) (n - (i + 1))).find? s.keep with
  | none =>
    have hupper : s.upper n i = none := by rw [upper, hfind]; rfl
    rw [hupper]
    refine ⟨fun _ j hij hj => ?_, nofun⟩
    have hmem : j ∈ range' (i + 1) (n - (i + 1)) := by
      rw [mem_range'_1]
      omega
    exact Bool.eq_false_iff.2 (find?_eq_none.1 hfind j hmem)
  | some k =>
    obtain ⟨hkeep, hk, hfirst⟩ := find?_range'_eq_some.1 hfind
    rw [mem_range'_1] at hk
    obtain ⟨v, hv⟩ := h.value k (by omega) (.inr hkeep)
    have hupper : s.upper n i = some v := by rw [upper, hfind]; exact hv
    rw [hupper]
    refine ⟨fun hno => (by cases hno), fun hi hhi => ?_⟩
    cases hhi
    refine ⟨⟨k, by omega, by omega, hkeep, hv⟩, fun j hij hj hjkeep y hy => ?_⟩
    rcases lt_trichotomy j k with hlt | rfl | hgt
    · have hno := hfirst j (by omega) hlt
      rw [hjkeep] at hno
      cases hno
    · cases hv.symm.trans hy
      exact le_rfl
    · exact (h.rising k j hgt hj (.inr hkeep) (.inr hjkeep) v y hv hy).le

/-- A rank that is placed between those that stand. -/
lemma Rise.place (h : Rise n i s) (hi : i < n) {v : ℚ} {keep : ℕ → Bool}
    (hsub : ∀ j, i < j → keep j = true → s.keep j = true)
    (hbelow : ∀ j < i, ∀ x, s.out j = some x → x < v)
    (habove : ∀ j, i < j → j < n → keep j = true → ∀ y, s.out j = some y → v < y) :
    Rise n (i + 1) ⟨keep, update s.out i (some v)⟩ := by
  have hstands : ∀ j, j ≠ i → (⟨keep, update s.out i (some v)⟩ : Ranking).Stands (i + 1) j →
      s.Stands i j ∧ (i < j → keep j = true) := by
    intro j hne hj
    rcases hj with hj | hj
    · exact ⟨.inl (by omega), fun hij => absurd hj (by omega)⟩
    · rcases Nat.lt_or_ge i j with hij | hij
      · exact ⟨.inr (hsub j hij hj), fun _ => hj⟩
      · exact ⟨.inl (by omega), fun hij' => absurd hij' (by omega)⟩
  constructor
  · intro j hj hst
    by_cases hji : j = i
    · subst hji
      exact ⟨v, update_self ..⟩
    · obtain ⟨x, hx⟩ := h.value j hj (hstands j hji hst).1
      exact ⟨x, (update_of_ne hji _ _).trans hx⟩
  · intro j k hjk hk hj hk' x y hx hy
    dsimp only at hx hy
    by_cases hji : j = i
    · subst hji
      have hki : k ≠ j := hjk.ne'
      rw [update_self] at hx
      rw [update_of_ne hki] at hy
      cases hx
      exact habove k hjk hk ((hstands k hki hk').2 hjk) y hy
    · rw [update_of_ne hji] at hx
      by_cases hki : k = i
      · subst hki
        rw [update_self] at hy
        cases hy
        exact hbelow j hjk x hx
      · rw [update_of_ne hki] at hy
        exact h.rising j k hjk hk (hstands j hji hj).1 (hstands k hki hk').1 x y hx hy

lemma Rise.step (h : Rise n i s) (hi : i < n) : Rise n (i + 1) (s.step midpoint n i) := by
  rw [Ranking.step]
  by_cases hkeep : s.keep i = true
  · rw [if_pos hkeep]
    have hstands : ∀ j, s.Stands (i + 1) j → s.Stands i j := by
      rintro j (hj | hj)
      · rcases Nat.lt_succ_iff_lt_or_eq.1 hj with hj | rfl
        · exact .inl hj
        · exact .inr hkeep
      · exact .inr hj
    exact ⟨fun j hj hst => h.value j hj (hstands j hst), fun j k hjk hk hj hk' =>
      h.rising j k hjk hk (hstands j hj) (hstands k hk')⟩
  rw [if_neg hkeep]
  obtain ⟨-, hlower⟩ := h.lower_spec hi
  obtain ⟨hlast, hupper⟩ := h.upper_spec
  dsimp only
  by_cases hcollapsed : collapsed (s.lower i) (s.upper n i)
      (between midpoint (s.lower i) (s.upper n i)) = true
  · rw [if_pos hcollapsed]
    refine h.place hi (fun j hij hno => ?_) (fun j hj x hx => ?_) fun j hij _ hno => ?_
    · rw [Bool.and_eq_true, decide_eq_true_eq] at hno
      exact absurd hno.2 (Nat.not_le.2 hij)
    · cases hlo : s.lower i with
      | none =>
        have hzero := (h.lower_spec hi).1 hlo
        omega
      | some lo => exact ((hlower lo hlo).2 j hj x hx).trans_lt (lt_add_one lo)
    · rw [Bool.and_eq_true, decide_eq_true_eq] at hno
      exact absurd hno.2 (Nat.not_le.2 hij)
  · rw [if_neg hcollapsed]
    rw [Bool.not_eq_true, collapsed, Bool.or_eq_false_iff] at hcollapsed
    refine h.place hi (fun j _ hj => hj) (fun j hj x hx => ?_) fun j hij hj hjkeep y hy => ?_
    · cases hlo : s.lower i with
      | none =>
        have hzero := (h.lower_spec hi).1 hlo
        omega
      | some lo =>
        rw [hlo] at hcollapsed
        have hlt := of_decide_eq_false hcollapsed.1
        exact ((hlower lo hlo).2 j hj x hx).trans_lt (not_le.1 hlt)
    · cases hhi : s.upper n i with
      | none => cases (hlast hhi j hij hj).symm.trans hjkeep
      | some r =>
        rw [hhi] at hcollapsed
        have hlt := of_decide_eq_false hcollapsed.2
        exact (not_le.1 hlt).trans_le ((hupper r hhi).2 j hij hj hjkeep y hy)

lemma Rise.fold (h : Rise n 0 s) (midpoint : ℚ → ℚ → ℚ) {k : ℕ} (hk : k ≤ n) :
    Rise n k ((range k).foldl (Ranking.step midpoint n) s) := by
  induction k with
  | zero => exact h
  | succ k ih =>
    rw [range_succ, foldl_concat]
    exact (ih (Nat.le_of_succ_le hk)).step hk

/-- An exact midpoint is between its ends, so nothing collapses. -/
lemma Rise.exact (h : Rise n i s) (hi : i < n) :
    collapsed (s.lower i) (s.upper n i)
      (between (fun lo hi => (lo + hi) / 2) (s.lower i) (s.upper n i)) = false := by
  cases hlo : s.lower i with
  | none =>
    cases hhi : s.upper n i with
    | none => rfl
    | some r =>
      refine decide_eq_false ?_
      rw [between]
      linarith
  | some lo =>
    cases hhi : s.upper n i with
    | none =>
      rw [collapsed, between, any_none, Bool.or_false]
      refine decide_eq_false ?_
      linarith
    | some r =>
      obtain ⟨k, hik, hk, hkeep, hout⟩ := (h.upper_spec.2 r hhi).1
      obtain ⟨j, hj, hbelow⟩ := ((h.lower_spec hi).2 lo hlo).1
      have hlt := h.rising j k (hj.trans hik) hk (.inl hj) (.inr hkeep) lo r hbelow hout
      rw [collapsed, between, Bool.or_eq_false_iff]
      refine ⟨decide_eq_false ?_, decide_eq_false ?_⟩ <;> linarith

end Ranking

lemma startRanking_rise (fragments : List Fragment) :
    (startRanking fragments).Rise fragments.length 0 := by
  have hrun := longestRun_rises (storedRank fragments) fragments.length
  have hkept : ∀ j, (startRanking fragments).Stands 0 j →
      j ∈ longestRun (storedRank fragments) fragments.length := by
    rintro j (hj | hj)
    · exact absurd hj (Nat.not_lt_zero _)
    · exact of_decide_eq_true hj
  constructor
  · intro j _ hj
    have hmem := hkept j hj
    obtain ⟨v, hv⟩ := isSome_iff_exists.1 (hrun.present j (mem_reverse.2 hmem)).2
    exact ⟨v, (if_pos hmem).trans hv⟩
  · intro j k hjk _ hj hk x y hx hy
    have hj := hkept j hj
    have hk := hkept k hk
    rw [startRanking] at hx hy
    dsimp only at hx hy
    rw [if_pos hj] at hx
    rw [if_pos hk] at hy
    obtain ⟨-, x', y', hx', hy', hlt⟩ := hrun.between (mem_reverse.2 hj) (mem_reverse.2 hk) hjk
    cases hx.symm.trans hx'
    cases hy.symm.trans hy'
    exact hlt

/-- The fragments whose stored rank is the one they are given. -/
def keptRanks (fragments : List Fragment) (ranks : List ℚ) : List ℕ :=
  (List.range fragments.length).filter fun i =>
    (storedRank fragments i).isSome && decide (ranks[i]? = storedRank fragments i)

lemma rankGap_getElem? (midpoint : ℚ → ℚ → ℚ) (fragments : List Fragment) {i : ℕ}
    (hi : i < fragments.length) : (rankGap midpoint fragments)[i]? =
      ((range fragments.length).foldl (Ranking.step midpoint fragments.length)
        (startRanking fragments)).out i := by
  obtain ⟨v, hv⟩ := ((startRanking_rise fragments).fold midpoint le_rfl).value i hi (.inl hi)
  rw [rankGap, getElem?_map, getElem?_range hi, hv, map_some, hv]
  rfl

/-- Whatever the midpoints are, the ranks rise. -/
lemma rankGap_rises (midpoint : ℚ → ℚ → ℚ) (fragments : List Fragment) :
    (rankGap midpoint fragments).length = fragments.length ∧
      (rankGap midpoint fragments).Pairwise (· < ·) := by
  have hlen : (rankGap midpoint fragments).length = fragments.length := by
    rw [rankGap, length_map, length_range]
  refine ⟨hlen, pairwise_iff_getElem.2 fun i j hi hj hij => ?_⟩
  have hrise := (startRanking_rise fragments).fold midpoint le_rfl
  rw [hlen] at hi hj
  refine hrise.rising i j hij hj (.inl hi) (.inl hj) _ _ ?_ ?_
  · rw [← rankGap_getElem? midpoint fragments hi, getElem?_eq_getElem]
  · rw [← rankGap_getElem? midpoint fragments hj, getElem?_eq_getElem]

/-- With exact midpoints every fragment of the longest run keeps its rank. -/
lemma fold_exact {n : ℕ} {s : Ranking} (h : s.Rise n 0) {k : ℕ} (hk : k ≤ n) :
    let s' := (range k).foldl (Ranking.step (fun lo hi => (lo + hi) / 2) n) s
    s'.keep = s.keep ∧ ∀ j, s.keep j = true → s'.out j = s.out j := by
  induction k with
  | zero => exact ⟨rfl, fun _ _ => rfl⟩
  | succ k ih =>
    obtain ⟨hkeep, hout⟩ := ih (Nat.le_of_succ_le hk)
    have hrise := h.fold (fun lo hi => (lo + hi) / 2) (Nat.le_of_succ_le hk)
    rw [range_succ, foldl_concat]
    set t := (range k).foldl (Ranking.step (fun lo hi => (lo + hi) / 2) n) s
    rw [Ranking.step]
    by_cases hkept : t.keep k = true
    · rw [if_pos hkept]
      exact ⟨hkeep, hout⟩
    · have hexact := hrise.exact hk
      rw [if_neg hkept]
      simp only [hexact, Bool.false_eq_true, if_false]
      refine ⟨hkeep, fun j hj => ?_⟩
      have hne : j ≠ k := by
        rintro rfl
        exact hkept (hkeep ▸ hj)
      rw [update_of_ne hne]
      exact hout j hj

lemma mem_keptRanks {fragments : List Fragment} {ranks : List ℚ} {i : ℕ} :
    i ∈ keptRanks fragments ranks ↔
      i < fragments.length ∧ (storedRank fragments i).isSome ∧
        ranks[i]? = storedRank fragments i := by
  rw [keptRanks, mem_filter, mem_range, Bool.and_eq_true, decide_eq_true_eq]

/-- The ranks of a gap rise in the order of its fragments, whatever the midpoints are. With exact
midpoints the fragments that keep their stored rank are as many as a rising run of stored ranks can
have. -/
theorem rankGap_keeps (fragments : List Fragment) :
    (∀ midpoint : ℚ → ℚ → ℚ, (rankGap midpoint fragments).length = fragments.length ∧
      (rankGap midpoint fragments).Pairwise (· < ·)) ∧
    Rises (storedRank fragments) fragments.length
      (keptRanks fragments (rankGap (fun lo hi => (lo + hi) / 2) fragments)) ∧
    ∀ s, Rises (storedRank fragments) fragments.length s →
      s.length ≤ (keptRanks fragments (rankGap (fun lo hi => (lo + hi) / 2) fragments)).length := by
  obtain ⟨hlen, hrising⟩ := rankGap_rises (fun lo hi => (lo + hi) / 2) fragments
  set ranks := rankGap (fun lo hi => (lo + hi) / 2) fragments with hranks
  refine ⟨fun midpoint => rankGap_rises midpoint fragments, ⟨fun i hi => ?_, ?_⟩, fun s hs => ?_⟩
  · obtain ⟨hi, hsome, -⟩ := mem_keptRanks.1 hi
    exact ⟨hi, hsome⟩
  · refine (List.pairwise_lt_range.filter _).imp_of_mem fun {i j} hi hj hij => ?_
    obtain ⟨hin, hsome, heq⟩ := mem_keptRanks.1 hi
    obtain ⟨hjn, hsome', heq'⟩ := mem_keptRanks.1 hj
    obtain ⟨x, hx⟩ := Option.isSome_iff_exists.1 hsome
    obtain ⟨y, hy⟩ := Option.isSome_iff_exists.1 hsome'
    obtain ⟨hi', rfl⟩ := List.getElem?_eq_some_iff.1 (heq.trans hx)
    obtain ⟨hj', rfl⟩ := List.getElem?_eq_some_iff.1 (heq'.trans hy)
    exact ⟨hij, _, _, hx, hy, List.pairwise_iff_getElem.1 hrising i j hi' hj' hij⟩
  · refine (longestRun_longest hs).trans ?_
    have hrun := longestRun_rises (storedRank fragments) fragments.length
    rw [← List.length_reverse]
    refine List.Subperm.length_le (List.subperm_of_subset ?_ fun i hi => ?_)
    · exact hrun.rising.imp fun h => h.1.ne
    · obtain ⟨hin, hsome⟩ := hrun.present i hi
      refine mem_keptRanks.2 ⟨hin, hsome, ?_⟩
      have hkeep : (startRanking fragments).keep i = true := decide_eq_true (List.mem_reverse.1 hi)
      rw [hranks, rankGap_getElem? _ _ hin,
        (fold_exact (startRanking_rise fragments) le_rfl).2 i hkeep]
      exact if_pos (List.mem_reverse.1 hi)

end LibrePaper.Track
