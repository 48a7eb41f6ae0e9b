import Mathlib

/-!
# Offsets in a list of elements with widths

An offset counts units, and an element has one or more of them. An offset may fall inside
an element; a slice between two offsets then takes the element whole. The boundaries are
the offsets at which the list splits.
-/
namespace LibrePaper.Library
open List

variable {α : Type*} (w : α → ℕ)

def width (l : List α) : ℕ := (l.map w).sum

@[simp] lemma width_nil : width w [] = 0 := rfl

@[simp] lemma width_cons (a : α) (l : List α) : width w (a :: l) = w a + width w l := rfl

@[simp] lemma width_append (l m : List α) : width w (l ++ m) = width w l + width w m := by
  simp [width]

/-- How many elements end by an offset. -/
def floorAt : List α → ℕ → ℕ
  | [], _ => 0
  | a :: l, u => if w a ≤ u then floorAt l (u - w a) + 1 else 0

/-- How many elements begin before an offset. -/
def ceilAt : List α → ℕ → ℕ
  | [], _ => 0
  | a :: l, u => if u = 0 then 0 else ceilAt l (u - w a) + 1

/-- The elements that two offsets reach into. -/
def widened (l : List α) (start stop : ℕ) : List α :=
  if stop ≤ start then [] else (l.take (ceilAt w l stop)).drop (floorAt w l start)

/-- How many elements end at an offset, when none spans it. -/
def boundaryAt (l : List α) (u : ℕ) : Option ℕ :=
  if width w (l.take (floorAt w l u)) = u then some (floorAt w l u) else none

/-- An offset between two elements, or at an end. -/
def Boundary (l : List α) (u : ℕ) : Prop := ∃ p q, l = p ++ q ∧ width w p = u

variable {w}

lemma floorAt_append (p q : List α) (u : ℕ) :
    floorAt w (p ++ q) (width w p + u) = p.length + floorAt w q u := by
  induction p with
  | nil => simp
  | cons a p ih =>
    have hsub : width w (a :: p) + u - w a = width w p + u := by
      rw [width_cons]
      omega
    rw [cons_append, floorAt, if_pos, hsub, ih, length_cons]
    · omega
    · rw [width_cons]
      omega

section Positive

variable (hw : ∀ a, 0 < w a)
include hw

variable {l : List α}

lemma width_eq_zero (h : width w l = 0) : l = [] := by
  cases l with
  | nil => rfl
  | cons a l =>
    have := hw a
    rw [width_cons] at h
    omega

lemma ceilAt_append (p q : List α) (u : ℕ) :
    ceilAt w (p ++ q) (width w p + u) = p.length + ceilAt w q u := by
  induction p with
  | nil => simp
  | cons a p ih =>
    have ha := hw a
    have hsub : width w (a :: p) + u - w a = width w p + u := by
      rw [width_cons]
      omega
    rw [cons_append, ceilAt, if_neg, hsub, ih, length_cons]
    · omega
    · rw [width_cons]
      omega

lemma floorAt_zero (l : List α) : floorAt w l 0 = 0 := by
  cases l with
  | nil => rfl
  | cons a l => exact if_neg (Nat.not_le.2 (hw a))

lemma floorAt_width (p q : List α) : floorAt w (p ++ q) (width w p) = p.length := by
  have h := floorAt_append (w := w) p q 0
  rwa [floorAt_zero hw, Nat.add_zero, Nat.add_zero] at h

omit hw in
lemma ceilAt_zero (l : List α) : ceilAt w l 0 = 0 := by cases l <;> simp [ceilAt]

lemma ceilAt_width (p q : List α) : ceilAt w (p ++ q) (width w p) = p.length := by
  have h := ceilAt_append hw p q 0
  rwa [ceilAt_zero, Nat.add_zero, Nat.add_zero] at h

/-- What lies between two boundaries. -/
lemma widened_between (p s q : List α) :
    widened w (p ++ s ++ q) (width w p) (width w p + width w s) = s := by
  unfold widened
  split_ifs with h
  · exact (width_eq_zero hw (by omega)).symm
  · have hstop : ceilAt w (p ++ s ++ q) (width w p + width w s) = (p ++ s).length := by
      rw [← width_append, ceilAt_width hw]
    have hstart : floorAt w (p ++ s ++ q) (width w p) = p.length := by
      rw [append_assoc, floorAt_width hw]
    rw [hstop, hstart, take_left, drop_left]

lemma floorAt_le_of_le {p : List α} {u : ℕ} (q : List α) (h : u ≤ width w p) :
    floorAt w (p ++ q) u ≤ p.length := by
  induction p generalizing u with
  | nil =>
    obtain rfl : u = 0 := Nat.le_zero.1 h
    rw [floorAt_zero hw]
    exact Nat.zero_le _
  | cons a p ih =>
    rw [width_cons] at h
    rw [cons_append, floorAt]
    split_ifs
    · exact Nat.succ_le_succ (ih (by omega))
    · exact Nat.zero_le _

/-- A slice splits at a boundary inside it. -/
lemma widened_join {start mid stop : ℕ} (hmid : Boundary w l mid) (hstart : start ≤ mid)
    (hstop : mid ≤ stop) :
    widened w l start stop = widened w l start mid ++ widened w l mid stop := by
  obtain ⟨p, q, rfl, rfl⟩ := hmid
  obtain ⟨u, rfl⟩ := Nat.exists_eq_add_of_le hstop
  have hfloor := floorAt_le_of_le hw q hstart
  have hfirst : widened w (p ++ q) start (width w p) = p.drop (floorAt w (p ++ q) start) := by
    unfold widened
    split_ifs with h
    · obtain rfl := le_antisymm hstart h
      rw [floorAt_width hw, drop_length]
    · rw [ceilAt_width hw, take_left]
  have hsecond : widened w (p ++ q) (width w p) (width w p + u) = q.take (ceilAt w q u) := by
    unfold widened
    split_ifs with h
    · obtain rfl : u = 0 := by omega
      rw [ceilAt_zero, take_zero]
    · rw [ceilAt_append hw, floorAt_width hw, take_length_add_append, drop_left]
  rw [hfirst, hsecond]
  unfold widened
  split_ifs with h
  · obtain rfl : u = 0 := by omega
    obtain rfl : start = width w p := by omega
    rw [floorAt_width hw, drop_length, ceilAt_zero, take_zero, append_nil]
  · rw [ceilAt_append hw, take_length_add_append, drop_append_of_le_length hfloor]

end Positive

lemma width_take_floorAt (l : List α) (u : ℕ) : width w (l.take (floorAt w l u)) ≤ u := by
  induction l generalizing u with
  | nil => simp
  | cons a l ih =>
    unfold floorAt
    split_ifs with h
    · have := ih (u - w a)
      rw [take_succ_cons, width_cons]
      omega
    · simp

variable {l p q s t : List α} {u start : ℕ}

/-- The element after those that end by an offset spans it. -/
lemma lt_width_floorAt {a : α} (h : l[floorAt w l u]? = some a) :
    u < width w (l.take (floorAt w l u)) + w a := by
  induction l generalizing u with
  | nil => cases h
  | cons b l ih =>
    unfold floorAt at h ⊢
    split_ifs at h ⊢ with hle
    · rw [getElem?_cons_succ] at h
      have := ih h
      rw [take_succ_cons, width_cons]
      omega
    · rw [getElem?_cons_zero, Option.some.injEq] at h
      subst h
      rw [take_zero, width_nil]
      omega

lemma le_width_take_ceilAt (l : List α) (u : ℕ) :
    u ≤ width w (l.take (ceilAt w l u)) ∨ width w l < u := by
  induction l generalizing u with
  | nil =>
    rcases Nat.eq_zero_or_pos u with rfl | hu
    · exact .inl (Nat.zero_le _)
    · exact .inr hu
  | cons a l ih =>
    unfold ceilAt
    split_ifs with h
    · exact .inl (by omega)
    · rw [take_succ_cons, width_cons, width_cons]
      have := ih (u - w a)
      omega

/-- There is nothing past the end. -/
lemma widened_past (h : width w l ≤ start) (stop : ℕ) : widened w l start stop = [] := by
  have hfloor : l.length ≤ floorAt w l start := by
    induction l generalizing start with
    | nil => exact Nat.zero_le _
    | cons a l ih =>
      rw [width_cons] at h
      rw [floorAt, if_pos (by omega), length_cons]
      exact Nat.succ_le_succ (ih (by omega))
  unfold widened
  split_ifs
  · rfl
  · exact drop_eq_nil_of_le ((length_take_le' _ _).trans hfloor)

/-- A slice that is as wide as its range lies between two boundaries, unless the range ends
past the end. -/
lemma widened_exact {stop : ℕ} (hlt : start < stop)
    (h : width w (widened w l start stop) = stop - start) :
    Boundary w l start ∧ Boundary w l stop ∨ width w l < stop := by
  refine or_iff_not_imp_right.2 fun hin => ?_
  have hstart := width_take_floorAt (w := w) l start
  have hstop := (le_width_take_ceilAt (w := w) l stop).resolve_right hin
  unfold widened at h
  rw [if_neg (Nat.not_le.2 hlt)] at h
  rcases Nat.le_total (floorAt w l start) (ceilAt w l stop) with hle | hle
  · have hsplit := congrArg (width w) (take_append_drop (floorAt w l start)
      (l.take (ceilAt w l stop)))
    rw [width_append, take_take, min_eq_left hle, h] at hsplit
    refine ⟨⟨_, _, (take_append_drop (floorAt w l start) l).symm, ?_⟩,
      ⟨_, _, (take_append_drop (ceilAt w l stop) l).symm, ?_⟩⟩
    · omega
    · omega
  · rw [drop_eq_nil_of_le ((length_take_le _ _).trans hle), width_nil] at h
    omega

lemma Boundary.zero (l : List α) : Boundary w l 0 := ⟨[], l, rfl, rfl⟩

lemma Boundary.left (p q : List α) : Boundary w (p ++ q) (width w p) := ⟨p, q, rfl, rfl⟩

lemma Boundary.le (h : Boundary w l u) : u ≤ width w l := by
  obtain ⟨p, q, rfl, rfl⟩ := h
  rw [width_append]
  omega

/-- A boundary that is no later than the end of a part is one of the part. -/
lemma Boundary.of_le (hw : ∀ a, 0 < w a) (h : Boundary w (p ++ q) u) (hu : u ≤ width w p) :
    Boundary w p u := by
  obtain ⟨s, t, hst, rfl⟩ := h
  rcases append_eq_append_iff.1 hst with ⟨r, rfl, rfl⟩ | ⟨r, rfl, rfl⟩
  · have hr : r = [] := width_eq_zero hw (by rw [width_append] at hu; omega)
    exact ⟨p, [], by simp, by simp [hr]⟩
  · exact ⟨s, r, rfl, rfl⟩

/-- A boundary that is no earlier than the end of a part is one of the rest. -/
lemma Boundary.of_ge (hw : ∀ a, 0 < w a) (h : Boundary w (p ++ q) (width w p + u)) :
    Boundary w q u := by
  obtain ⟨s, t, hst, hs⟩ := h
  rcases append_eq_append_iff.1 hst with ⟨r, rfl, rfl⟩ | ⟨r, rfl, rfl⟩
  · exact ⟨r, t, rfl, by rw [width_append] at hs; omega⟩
  · have hr : r = [] := width_eq_zero hw (by rw [width_append] at hs; omega)
    obtain rfl : u = 0 := by simp only [hr, width_append, width_nil] at hs; omega
    exact .zero q

/-- Of two splits of a list, the one with the narrower front splits the other's front. -/
lemma append_split (hw : ∀ a, 0 < w a) (h : p ++ q = s ++ t) (hle : width w p ≤ width w s) :
    ∃ r, s = p ++ r ∧ q = r ++ t := by
  rcases append_eq_append_iff.1 h with ⟨r, rfl, rfl⟩ | ⟨r, rfl, rfl⟩
  · exact ⟨r, rfl, rfl⟩
  · obtain rfl : r = [] := width_eq_zero hw (by rw [width_append] at hle; omega)
    exact ⟨[], by simp, by simp⟩

/-- Two splits at one offset are the same. -/
lemma append_unique (hw : ∀ a, 0 < w a) (h : p ++ q = s ++ t) (heq : width w p = width w s) :
    p = s ∧ q = t := by
  obtain ⟨r, rfl, rfl⟩ := append_split hw h heq.le
  obtain rfl : r = [] := width_eq_zero hw (by rw [width_append] at heq; omega)
  exact ⟨by simp, by simp⟩

lemma boundaryAt_width (hw : ∀ a, 0 < w a) (p q : List α) :
    boundaryAt w (p ++ q) (width w p) = some p.length := by
  unfold boundaryAt
  rw [floorAt_width hw, take_left, if_pos rfl]

lemma boundaryAt_some {i : ℕ} (h : boundaryAt w l u = some i) : width w (l.take i) = u := by
  unfold boundaryAt at h
  split_ifs at h with hwidth
  cases h
  exact hwidth

end LibrePaper.Library
