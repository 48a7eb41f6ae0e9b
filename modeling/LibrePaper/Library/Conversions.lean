import LibrePaper.Library.Widths

/-!
# Offsets counted in two units

A boundary of a list has an offset for each way to measure the elements. An offset that is no
boundary falls inside one element or past the end, and a range of offsets covers each element by so
many units.
-/
namespace LibrePaper.Library
open List Option

variable {α : Type*} {v w : α → ℕ} {l : List α} {u u' x x' start stop : ℕ}

/-- The offset of a boundary in another measure, when the offset is one of a boundary. -/
def convert (v w : α → ℕ) (l : List α) (u : ℕ) : Option ℕ :=
  (boundaryAt v l u).map fun i => width w (l.take i)

/-- The elements, each with the offset it begins at. -/
def spans (w : α → ℕ) : ℕ → List α → List (ℕ × α)
  | _, [] => []
  | u, a :: l => (u, a) :: spans w (u + w a) l

/-- How many units of an element that begins at `u` lie in a range. -/
def covered (w : α → ℕ) (start stop u : ℕ) (a : α) : ℕ := min (u + w a) stop - max u start

lemma floorAt_mono (h : u ≤ u') : floorAt w l u ≤ floorAt w l u' := by
  induction l generalizing u u' with
  | nil => exact le_rfl
  | cons a l ih =>
    unfold floorAt
    split_ifs with ha ha'
    · exact Nat.succ_le_succ (ih (Nat.sub_le_sub_right h _))
    · exact absurd (ha.trans h) ha'
    · exact Nat.zero_le _
    · exact le_rfl

lemma ceilAt_mono (h : u ≤ u') : ceilAt w l u ≤ ceilAt w l u' := by
  induction l generalizing u u' with
  | nil => exact le_rfl
  | cons a l ih =>
    unfold ceilAt
    split_ifs with hu hu'
    · exact le_rfl
    · exact Nat.zero_le _
    · omega
    · exact Nat.succ_le_succ (ih (Nat.sub_le_sub_right h _))

lemma floorAt_le_ceilAt (hw : ∀ a, 0 < w a) : floorAt w l u ≤ ceilAt w l u := by
  induction l generalizing u with
  | nil => exact le_rfl
  | cons a l ih =>
    have ha := hw a
    unfold floorAt ceilAt
    split_ifs with hfloor hceil
    · omega
    · exact Nat.succ_le_succ ih
    · exact le_rfl
    · exact Nat.zero_le _

lemma width_take_mono {i j : ℕ} (h : i ≤ j) : width w (l.take i) ≤ width w (l.take j) := by
  rw [← take_append_drop i (l.take j), width_append, take_take, Nat.min_eq_left h]
  exact Nat.le_add_right _ _

lemma spans_append (p q : List α) :
    spans w u (p ++ q) = spans w u p ++ spans w (u + width w p) q := by
  induction p generalizing u with
  | nil => rfl
  | cons a p ih =>
    rw [cons_append, spans, ih, width_cons, ← Nat.add_assoc]
    rfl

lemma map_snd_spans (u : ℕ) (l : List α) : (spans w u l).map Prod.snd = l := by
  induction l generalizing u with
  | nil => rfl
  | cons a l ih => rw [spans, map_cons, ih]

lemma within_of_mem_spans {y : ℕ × α} (h : y ∈ spans w u l) :
    u ≤ y.1 ∧ y.1 + w y.2 ≤ u + width w l := by
  induction l generalizing u with
  | nil => cases h
  | cons a l ih =>
    rw [width_cons]
    rcases mem_cons.1 h with rfl | h
    · exact ⟨le_rfl, by dsimp only; omega⟩
    · have := ih h
      omega

section Positive
variable (hv : ∀ a, 0 < v a) (hw : ∀ a, 0 < w a)
include hv

lemma boundaryAt_eq_some {i : ℕ} :
    boundaryAt v l u = some i ↔ ∃ p q, l = p ++ q ∧ width v p = u ∧ p.length = i := by
  constructor
  · intro h
    have hu := boundaryAt_some h
    refine ⟨l.take i, l.drop i, (take_append_drop i l).symm, hu, ?_⟩
    have hat := boundaryAt_width hv (l.take i) (l.drop i)
    rw [take_append_drop, hu, h] at hat
    exact (some.inj hat).symm
  · rintro ⟨p, q, rfl, rfl, rfl⟩
    exact boundaryAt_width hv p q

lemma boundaryAt_isSome : (boundaryAt v l u).isSome = true ↔ Boundary v l u := by
  rw [isSome_iff_exists]
  constructor
  · rintro ⟨i, hi⟩
    obtain ⟨p, q, hl, hu, -⟩ := (boundaryAt_eq_some hv).1 hi
    exact ⟨p, q, hl, hu⟩
  · rintro ⟨p, q, hl, hu⟩
    exact ⟨p.length, (boundaryAt_eq_some hv).2 ⟨p, q, hl, hu, rfl⟩⟩

lemma convert_eq_some :
    convert v w l u = some x ↔ ∃ p q, l = p ++ q ∧ width v p = u ∧ width w p = x := by
  unfold convert
  rw [map_eq_some_iff]
  constructor
  · rintro ⟨i, hi, rfl⟩
    obtain ⟨p, q, rfl, hu, rfl⟩ := (boundaryAt_eq_some hv).1 hi
    exact ⟨p, q, rfl, hu, by rw [take_left]⟩
  · rintro ⟨p, q, rfl, hu, rfl⟩
    exact ⟨p.length, (boundaryAt_eq_some hv).2 ⟨p, q, rfl, hu, rfl⟩, by rw [take_left]⟩

lemma convert_eq_none : convert v w l u = none ↔ ¬Boundary v l u := by
  unfold convert
  rw [map_eq_none_iff, ← boundaryAt_isSome hv, Bool.not_eq_true, isSome_eq_false_iff,
    isNone_iff_eq_none]

lemma convert_cons {a : α} : convert v w (a :: l) u =
    if u = 0 then some 0 else if u < v a then none
    else (convert v w l (u - v a)).map (w a + ·) := by
  have ha := hv a
  unfold convert boundaryAt
  rw [floorAt]
  by_cases hu : v a ≤ u
  · have htake : width v ((a :: l).take (floorAt v l (u - v a) + 1)) =
        v a + width v (l.take (floorAt v l (u - v a))) := rfl
    rw [if_pos hu, htake, if_neg (show u ≠ 0 by omega), if_neg (show ¬u < v a by omega)]
    by_cases hat : width v (l.take (floorAt v l (u - v a))) = u - v a
    · rw [if_pos hat, if_pos (by omega)]
      rfl
    · rw [if_neg hat, if_neg (by omega)]
      rfl
  · rw [if_neg hu, take_zero, width_nil, if_pos (show u < v a by omega)]
    by_cases hzero : u = 0
    · rw [if_pos hzero, if_pos hzero.symm]
      rfl
    · rw [if_neg hzero, if_neg (Ne.symm hzero)]
      rfl

lemma convert_mono (h : convert v w l u = some x) (h' : convert v w l u' = some x')
    (hle : u ≤ u') : x ≤ x' := by
  obtain ⟨p, q, rfl, rfl, rfl⟩ := (convert_eq_some hv).1 h
  obtain ⟨s, t, hst, rfl, rfl⟩ := (convert_eq_some hv).1 h'
  obtain ⟨r, rfl, -⟩ := append_split hv hst hle
  rw [width_append]
  exact Nat.le_add_right _ _

include hw in
lemma convert_symm : convert v w l u = some x ↔ convert w v l x = some u := by
  rw [convert_eq_some hv, convert_eq_some hw]
  constructor
  · rintro ⟨p, q, hl, hu, hx⟩
    exact ⟨p, q, hl, hx, hu⟩
  · rintro ⟨p, q, hl, hx, hu⟩
    exact ⟨p, q, hl, hu, hx⟩

omit hv in
/-- Every offset is one of a boundary, or inside one element, or past the end. -/
lemma offset_cases (l : List α) (u : ℕ) : Boundary v l u ∨
    (∃ p a q, l = p ++ a :: q ∧ width v p < u ∧ u < width v p + v a) ∨ width v l < u := by
  induction l generalizing u with
  | nil =>
    rcases Nat.eq_zero_or_pos u with rfl | hu
    · exact .inl (.zero [])
    · exact .inr (.inr hu)
  | cons a l ih =>
    rcases Nat.eq_zero_or_pos u with rfl | hu
    · exact .inl (.zero _)
    by_cases ha : u < v a
    · exact .inr (.inl ⟨[], a, l, rfl, hu, by rw [width_nil]; omega⟩)
    · rcases ih (u - v a) with ⟨p, q, rfl, hp⟩ | ⟨p, b, q, rfl, hlt, hub⟩ | hpast
      · exact .inl ⟨a :: p, q, rfl, by rw [width_cons]; omega⟩
      · exact .inr (.inl ⟨a :: p, b, q, rfl, by rw [width_cons]; omega, by rw [width_cons]; omega⟩)
      · exact .inr (.inr (by rw [width_cons]; omega))

omit hv in
lemma floorAt_inside {p q : List α} {a : α} (hlt : width v p < u) (hgt : u < width v p + v a) :
    floorAt v (p ++ a :: q) u = p.length := by
  obtain ⟨k, rfl⟩ := Nat.exists_eq_add_of_lt hlt
  rw [Nat.add_assoc, floorAt_append, floorAt, if_neg (by omega), Nat.add_zero]

lemma ceilAt_inside {p q : List α} {a : α} (hlt : width v p < u) (hgt : u < width v p + v a) :
    ceilAt v (p ++ a :: q) u = p.length + 1 := by
  obtain ⟨k, rfl⟩ := Nat.exists_eq_add_of_lt hlt
  rw [Nat.add_assoc, ceilAt_append hv, ceilAt, if_neg (by omega),
    Nat.sub_eq_zero_of_le (by omega), ceilAt_zero]

lemma not_boundary_inside {p q : List α} {a : α} (hlt : width v p < u)
    (hgt : u < width v p + v a) : ¬Boundary v (p ++ a :: q) u := by
  rintro ⟨s, t, hst, rfl⟩
  obtain ⟨r, rfl, hr⟩ := append_split hv hst hlt.le
  rw [width_append] at hlt hgt
  cases r with
  | nil => simp at hlt
  | cons b r =>
    obtain ⟨rfl, -⟩ := cons.inj hr
    rw [width_cons] at hgt
    omega

omit hv in
lemma floorAt_past (h : width v l < u) : floorAt v l u = l.length := by
  obtain ⟨k, rfl⟩ := Nat.exists_eq_add_of_lt h
  have hfloor := floorAt_append (w := v) l [] (k + 1)
  rwa [append_nil, ← Nat.add_assoc] at hfloor

lemma ceilAt_past (h : width v l < u) : ceilAt v l u = l.length := by
  obtain ⟨k, rfl⟩ := Nat.exists_eq_add_of_lt h
  have hceil := ceilAt_append hv l [] (k + 1)
  rwa [append_nil, ← Nat.add_assoc] at hceil

/-- A widened slice is the elements that the range covers a unit of. -/
lemma widened_eq_filter (u : ℕ) : widened v l start stop =
    ((spans v u l).filter fun y => decide (0 < covered v (u + start) (u + stop) y.1 y.2)).map
      Prod.snd := by
  induction l generalizing u start stop with
  | nil => simp [widened, spans, floorAt, ceilAt]
  | cons a l ih =>
    have ha := hv a
    by_cases hle : stop ≤ start
    · rw [filter_eq_nil_iff.2, map_nil]
      · exact if_pos hle
      · intro y _ hy
        have hpos := of_decide_eq_true hy
        unfold covered at hpos
        omega
    have hceil : ceilAt v (a :: l) stop = ceilAt v l (stop - v a) + 1 := if_neg (by omega)
    by_cases hstart : v a ≤ start
    · have hnext : widened v (a :: l) start stop = widened v l (start - v a) (stop - v a) := by
        unfold widened
        rw [hceil, floorAt, if_pos hstart, if_neg hle, take_succ_cons, drop_succ_cons]
        split_ifs with hempty
        · exact absurd hempty (by omega)
        · rfl
      have hout : ¬0 < covered v (u + start) (u + stop) u a := by
        unfold covered
        omega
      rw [hnext, spans, filter_cons_of_neg (by simpa using hout), ih (u + v a),
        show u + v a + (start - v a) = u + start by omega,
        show u + v a + (stop - v a) = u + stop by omega]
    · have hnext : widened v (a :: l) start stop = a :: widened v l 0 (stop - v a) := by
        unfold widened
        rw [hceil, floorAt, if_neg hstart, if_neg hle, take_succ_cons, drop_zero,
          floorAt_zero hv, drop_zero]
        split_ifs with hempty
        · rw [Nat.le_zero.1 hempty, ceilAt_zero, take_zero]
        · rfl
      have hin : 0 < covered v (u + start) (u + stop) u a := by
        unfold covered
        omega
      rw [hnext, spans, filter_cons_of_pos (by simpa using hin), map_cons, ih (u + v a)]
      refine congrArg (cons a) (congrArg (map Prod.snd) (filter_congr fun y hy => ?_))
      have := (within_of_mem_spans hy).1
      rw [decide_eq_decide]
      unfold covered
      omega

end Positive

end LibrePaper.Library
