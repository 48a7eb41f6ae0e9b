import LibrePaper.Library.Widths

/-!
# Sequences that keep what is deleted

A sequence of identified elements, of which some are deleted and leave a mark. An element is
found again by its id; its offset is the width of the live elements before it. Deletions mark
elements, and an insertion puts new ones between two others.
-/
namespace LibrePaper.Library
open List

variable {α : Type*}

structure Elem (α : Type*) where
  id : ℕ
  value : α
  live : Bool

/-- What an element takes: nothing when it is deleted. -/
def Elem.width (w : α → ℕ) (e : Elem α) : ℕ := if e.live then w e.value else 0

/-- The values that are not deleted. -/
def standing (l : List (Elem α)) : List α := l.filterMap fun e => if e.live then some e.value else none

@[simp] lemma standing_nil : standing ([] : List (Elem α)) = [] := rfl

@[simp] lemma standing_append (p q : List (Elem α)) :
    standing (p ++ q) = standing p ++ standing q :=
  filterMap_append

variable {e : Elem α} {l : List (Elem α)} {p q d : List α} {id u start stop k : ℕ} {r : ℕ × Elem α}

lemma standing_live (h : e.live = true) (l : List (Elem α)) :
    standing (e :: l) = e.value :: standing l := by
  unfold standing
  rw [filterMap_cons, if_pos h]

lemma standing_dead (h : e.live = false) (l : List (Elem α)) :
    standing (e :: l) = standing l := by
  unfold standing
  rw [filterMap_cons, if_neg (Bool.eq_false_iff.1 h)]

/-- A split of the values is one of the elements. -/
lemma standing_split (h : standing l = p ++ q) :
    ∃ a b, l = a ++ b ∧ standing a = p ∧ standing b = q :=
  filterMap_eq_append_iff.1 h

def ids (l : List (Elem α)) : List ℕ := l.map Elem.id

@[simp] lemma ids_cons (e : Elem α) (l : List (Elem α)) : ids (e :: l) = e.id :: ids l := rfl

@[simp] lemma ids_append (p q : List (Elem α)) : ids (p ++ q) = ids p ++ ids q := map_append

/-- New elements, with ids from a number on. -/
def fresh : ℕ → List α → List (Elem α)
  | _, [] => []
  | next, a :: l => ⟨next, a, true⟩ :: fresh (next + 1) l

@[simp] lemma standing_fresh (next : ℕ) (l : List α) : standing (fresh next l) = l := by
  induction l generalizing next with
  | nil => rfl
  | cons a l ih =>
    unfold fresh
    rw [standing_live rfl, ih]

lemma ids_fresh (next : ℕ) (l : List α) : ids (fresh next l) = range' next l.length := by
  induction l generalizing next with
  | nil => rfl
  | cons a l ih =>
    unfold fresh
    rw [ids_cons, ih, length_cons, range'_succ]

/-- Marks the elements that begin between two offsets as deleted; the first element begins at
`u`. -/
def strike (w : α → ℕ) (start stop : ℕ) : ℕ → List (Elem α) → List (Elem α)
  | _, [] => []
  | u, e :: l =>
    if e.live then
      { e with live := !(decide (start ≤ u) && decide (u < stop)) } ::
        strike w start stop (u + w e.value) l
    else e :: strike w start stop u l

lemma ids_strike (w : α → ℕ) (start stop u : ℕ) (l : List (Elem α)) :
    ids (strike w start stop u l) = ids l := by
  induction l generalizing u with
  | nil => rfl
  | cons e l ih =>
    unfold strike
    split_ifs
    all_goals rw [ids_cons, ids_cons, ih]

/-- Where an element is, by the live ones before it, and the element. -/
def seek (w : α → ℕ) (id : ℕ) : List (Elem α) → Option (ℕ × Elem α)
  | [] => none
  | e :: l => if e.id = id then some (0, e) else (seek w id l).map fun r => (e.width w + r.1, r.2)

variable {w : α → ℕ}

lemma width_standing_cons (e : Elem α) (l : List (Elem α)) :
    width w (standing (e :: l)) = e.width w + width w (standing l) := by
  unfold Elem.width
  cases h : e.live with
  | true =>
    rw [standing_live h, width_cons]
    rfl
  | false =>
    rw [standing_dead h]
    exact (Nat.zero_add _).symm

lemma seek_head (h : e.id = id) (l : List (Elem α)) : seek w id (e :: l) = some (0, e) := if_pos h

lemma seek_tail (h : e.id ≠ id) (l : List (Elem α)) :
    seek w id (e :: l) = (seek w id l).map fun r => (e.width w + r.1, r.2) := if_neg h

/-- An element after the others is found behind them. -/
lemma seek_append_right {p : List (Elem α)} (q : List (Elem α)) (h : id ∉ ids p) :
    seek w id (p ++ q) = (seek w id q).map fun r => (width w (standing p) + r.1, r.2) := by
  induction p with
  | nil =>
    rw [nil_append, standing_nil, width_nil]
    simp
  | cons a p ih =>
    rw [ids_cons, mem_cons, not_or] at h
    rw [cons_append, seek_tail (Ne.symm h.1), ih h.2, Option.map_map, width_standing_cons]
    congr 1
    funext r
    rw [Function.comp_apply, Nat.add_assoc]

/-- An element is found where the live ones before it end. -/
lemma seek_at {p q : List (Elem α)} (he : e.id = id) (hp : id ∉ ids p) :
    seek w id (p ++ e :: q) = some (width w (standing p), e) := by
  rw [seek_append_right _ hp, seek_head he]
  rfl

lemma seek_eq_some (h : seek w id l = some (u, e)) :
    ∃ p q, l = p ++ e :: q ∧ e.id = id ∧ id ∉ ids p ∧ width w (standing p) = u := by
  induction l generalizing u with
  | nil => cases h
  | cons a l ih =>
    by_cases hid : a.id = id
    · rw [seek_head hid] at h
      cases h
      exact ⟨[], l, rfl, hid, not_mem_nil, rfl⟩
    · rw [seek_tail hid] at h
      obtain ⟨⟨v, e'⟩, hr, heq⟩ := Option.map_eq_some_iff.1 h
      cases heq
      obtain ⟨p, q, rfl, he, hp, rfl⟩ := ih hr
      refine ⟨a :: p, q, rfl, he, ?_, width_standing_cons a p⟩
      rw [ids_cons, mem_cons, not_or]
      exact ⟨fun heq => hid heq.symm, hp⟩

lemma seek_append_left {p : List (Elem α)} (q : List (Elem α)) (h : seek w id p = some r) :
    seek w id (p ++ q) = some r := by
  obtain ⟨u, e⟩ := r
  obtain ⟨s, t, rfl, he, hs, rfl⟩ := seek_eq_some h
  rw [append_assoc, cons_append]
  exact seek_at he hs

lemma seek_mem (h : seek w id l = some (u, e)) : id ∈ ids l := by
  obtain ⟨p, q, rfl, rfl, -, -⟩ := seek_eq_some h
  simp

lemma seek_of_mem (h : id ∈ ids l) : ∃ r, seek w id l = some r := by
  induction l with
  | nil => cases h
  | cons a l ih =>
    by_cases hid : a.id = id
    · exact ⟨_, seek_head hid l⟩
    · rw [ids_cons, mem_cons] at h
      obtain ⟨r, hr⟩ := ih (h.resolve_left fun heq => hid heq.symm)
      exact ⟨_, by rw [seek_tail hid, hr, Option.map_some]⟩

lemma seek_append {p q : List (Elem α)} (h : seek w id (p ++ q) = some (u, e)) :
    seek w id p = some (u, e) ∨
      id ∉ ids p ∧ ∃ v, seek w id q = some (v, e) ∧ u = width w (standing p) + v := by
  by_cases hp : id ∈ ids p
  · obtain ⟨r, hr⟩ := seek_of_mem (w := w) hp
    rw [seek_append_left q hr] at h
    exact .inl (hr.trans h)
  · rw [seek_append_right q hp] at h
    obtain ⟨⟨v, e'⟩, hv, heq⟩ := Option.map_eq_some_iff.1 h
    cases heq
    exact .inr ⟨hp, v, hv, rfl⟩

/-- An element lies among the others. -/
lemma seek_le (h : seek w id l = some (u, e)) : u + e.width w ≤ width w (standing l) := by
  obtain ⟨p, q, rfl, -, -, rfl⟩ := seek_eq_some h
  rw [standing_append, width_append, width_standing_cons]
  omega

/-- The live element at an index. -/
lemma live_at {c : α} (h : standing l = p ++ c :: q) :
    ∃ e a b, (l.filter Elem.live)[p.length]? = some e ∧ e.live = true ∧ e.value = c ∧
      l = a ++ e :: b ∧ standing a = p := by
  induction l generalizing p with
  | nil => cases p <;> cases h
  | cons x l ih =>
    cases hlive : x.live with
    | true =>
      rw [standing_live hlive] at h
      rw [filter_cons_of_pos hlive]
      cases p with
      | nil =>
        obtain ⟨hc, -⟩ := cons.inj h
        exact ⟨x, [], l, rfl, hlive, hc, rfl, rfl⟩
      | cons d p =>
        obtain ⟨hd, hrest⟩ := cons.inj h
        obtain ⟨e, a, b, hat, he, hc, rfl, ha⟩ := ih hrest
        refine ⟨e, x :: a, b, hat, he, hc, rfl, ?_⟩
        rw [standing_live hlive, ha, hd]
    | false =>
      rw [standing_dead hlive] at h
      obtain ⟨e, a, b, hat, he, hc, rfl, ha⟩ := ih h
      refine ⟨e, x :: a, b, ?_, he, hc, rfl, ?_⟩
      · rw [filter_cons_of_neg (Bool.eq_false_iff.1 hlive)]
        exact hat
      · rw [standing_dead hlive, ha]

lemma strike_live (h : e.live = true) (start stop u : ℕ) (l : List (Elem α)) :
    strike w start stop u (e :: l) =
      { e with live := !(decide (start ≤ u) && decide (u < stop)) } ::
        strike w start stop (u + w e.value) l := if_pos h

lemma strike_dead (h : e.live = false) (start stop u : ℕ) (l : List (Elem α)) :
    strike w start stop u (e :: l) = e :: strike w start stop u l :=
  if_neg (Bool.eq_false_iff.1 h)

lemma strike_append (start stop u : ℕ) (p q : List (Elem α)) :
    strike w start stop u (p ++ q) =
      strike w start stop u p ++ strike w start stop (u + width w (standing p)) q := by
  induction p generalizing u with
  | nil => rfl
  | cons e p ih =>
    cases h : e.live with
    | true =>
      rw [cons_append, strike_live h, strike_live h, ih, standing_live h, width_cons,
        cons_append, Nat.add_assoc]
    | false => rw [cons_append, strike_dead h, strike_dead h, ih, standing_dead h, cons_append]

/-- Elements outside the range stay. -/
lemma strike_outside (hw : ∀ a, 0 < w a) (h : u + width w (standing l) ≤ start ∨ stop ≤ u) :
    strike w start stop u l = l := by
  induction l generalizing u with
  | nil => rfl
  | cons e l ih =>
    cases hlive : e.live with
    | true =>
      have hpos := hw e.value
      rw [standing_live hlive, width_cons] at h
      have hout : (decide (start ≤ u) && decide (u < stop)) = false := by
        rw [Bool.and_eq_false_iff, decide_eq_false_iff_not, decide_eq_false_iff_not]
        omega
      rw [strike_live hlive, hout, ih (by omega)]
      simp [← hlive]
    | false =>
      rw [standing_dead hlive] at h
      rw [strike_dead hlive, ih h]

def Elem.struck (e : Elem α) : Elem α := { e with live := false }

/-- Elements inside the range are deleted. -/
lemma strike_inside (hw : ∀ a, 0 < w a) (hstart : start ≤ u)
    (hstop : u + width w (standing l) ≤ stop) : strike w start stop u l = l.map Elem.struck := by
  induction l generalizing u with
  | nil => rfl
  | cons e l ih =>
    cases hlive : e.live with
    | true =>
      have hpos := hw e.value
      rw [standing_live hlive, width_cons] at hstop
      have hin : (decide (start ≤ u) && decide (u < stop)) = true := by
        rw [Bool.and_eq_true, decide_eq_true_eq, decide_eq_true_eq]
        omega
      rw [strike_live hlive, hin, ih (by omega) (by omega)]
      rfl
    | false =>
      rw [standing_dead hlive] at hstop
      have hsame : e.struck = e := by
        unfold Elem.struck
        rw [← hlive]
      rw [strike_dead hlive, ih hstart hstop, map_cons, hsame]

@[simp] lemma standing_struck (l : List (Elem α)) : standing (l.map Elem.struck) = [] := by
  induction l with
  | nil => rfl
  | cons e l ih =>
    rw [map_cons, standing_dead rfl]
    exact ih

@[simp] lemma ids_struck (l : List (Elem α)) : ids (l.map Elem.struck) = ids l := by
  unfold ids
  rw [map_map]
  rfl

/-- A deletion between boundaries deletes the elements between them. -/
lemma strike_between (hw : ∀ a, 0 < w a) (a m b : List (Elem α)) :
    strike w (width w (standing a)) (width w (standing a) + width w (standing m)) 0 (a ++ m ++ b) =
      a ++ m.map Elem.struck ++ b := by
  rw [strike_append, strike_append, Nat.zero_add, strike_outside hw (.inl (Nat.zero_add _).le),
    strike_inside hw le_rfl le_rfl, strike_outside hw (.inr _)]
  rw [standing_append, width_append, Nat.zero_add]

lemma seek_struck (h : seek w id l = some (u, e)) :
    seek w id (l.map Elem.struck) = some (0, e.struck) := by
  obtain ⟨p, q, rfl, he, hp, -⟩ := seek_eq_some h
  rw [map_append, map_cons]
  have hat := seek_at (w := w) (q := q.map Elem.struck) (e := e.struck) he
    (by rw [ids_struck]; exact hp)
  rw [standing_struck, width_nil] at hat
  exact hat

/-- Where an offset goes when a range is deleted. -/
def shrunk (u start stop : ℕ) : ℕ :=
  if u < start then u else if stop ≤ u then u - (stop - start) else start

/-- What a deletion does to an element: it moves, and is deleted if it lies in the range. -/
lemma seek_strike (hw : ∀ a, 0 < w a) (hl : standing l = p ++ d ++ q)
    (h : seek w id l = some (u, e)) :
    ∃ e', seek w id (strike w (width w p) (width w p + width w d) 0 l) =
        some (shrunk u (width w p) (width w p + width w d), e') ∧ e'.value = e.value ∧
      (e.live = false → e'.live = false) ∧
      (e.live = true → u + w e.value ≤ width w p ∨ width w p + width w d ≤ u → e'.live = true) := by
  obtain ⟨am, b, rfl, ham, rfl⟩ := standing_split hl
  obtain ⟨a, m, rfl, rfl, rfl⟩ := standing_split ham
  rw [strike_between hw]
  have hwide : e.live = true → e.width w = w e.value := fun hlive => if_pos hlive
  rcases seek_append h with ham | ⟨hnot, v, hb, rfl⟩
  · rcases seek_append ham with ha | ⟨hnot, v, hm, rfl⟩
    · have hle := seek_le ha
      refine ⟨e, ?_, rfl, fun hdead => hdead, fun hlive _ => hlive⟩
      rw [append_assoc, seek_append_left _ ha]
      unfold shrunk
      congr 2
      split_ifs <;> omega
    · have hle := seek_le hm
      refine ⟨e.struck, ?_, rfl, fun _ => rfl, fun hlive hout => ?_⟩
      · rw [append_assoc, seek_append_right _ hnot, seek_append_left _ (seek_struck hm),
          Option.map_some, Nat.add_zero]
        unfold shrunk
        congr 2
        split_ifs <;> omega
      · have hpos := hw e.value
        rw [hwide hlive] at hle
        omega
  · rw [ids_append, mem_append, not_or] at hnot
    refine ⟨e, ?_, rfl, fun hdead => hdead, fun hlive _ => hlive⟩
    have hid : id ∉ ids (a ++ m.map Elem.struck) := by
      rw [ids_append, ids_struck, mem_append, not_or]
      exact hnot
    rw [seek_append_right _ hid, hb, Option.map_some, standing_append, standing_struck,
      append_nil, standing_append, width_append]
    unfold shrunk
    congr 2
    split_ifs <;> omega

/-- What stands after a deletion. -/
lemma standing_strike (hw : ∀ a, 0 < w a) (hl : standing l = p ++ d ++ q) :
    standing (strike w (width w p) (width w p + width w d) 0 l) = p ++ q := by
  obtain ⟨am, b, rfl, ham, rfl⟩ := standing_split hl
  obtain ⟨a, m, rfl, rfl, rfl⟩ := standing_split ham
  rw [strike_between hw, standing_append, standing_append, standing_struck, append_nil]

/-- New elements behind the first `k`. -/
def insertAt (k next : ℕ) (new : List α) (l : List (Elem α)) : List (Elem α) :=
  l.take k ++ fresh next new ++ l.drop k

lemma standing_insertAt (k next : ℕ) (new : List α) (l : List (Elem α)) :
    standing (insertAt k next new l) = standing (l.take k) ++ new ++ standing (l.drop k) := by
  unfold insertAt
  rw [standing_append, standing_append, standing_fresh]

/-- An element before the new ones stays where it is. -/
lemma seek_insertAt_before (next : ℕ) (new : List α) (h : seek w id (l.take k) = some r) :
    seek w id (insertAt k next new l) = some r := by
  unfold insertAt
  rw [append_assoc]
  exact seek_append_left _ h

/-- An element behind the new ones moves past them. -/
lemma seek_insertAt_behind {next : ℕ} (new : List α) (hid : id < next)
    (hnot : id ∉ ids (l.take k)) (h : seek w id l = some (u, e)) :
    seek w id (insertAt k next new l) = some (u + width w new, e) := by
  rw [← take_append_drop k l] at h
  rcases seek_append h with htake | ⟨-, v, hdrop, rfl⟩
  · exact absurd (seek_mem htake) hnot
  · have hnew : id ∉ ids (l.take k ++ fresh next new) := by
      rw [ids_append, mem_append, not_or, ids_fresh, mem_range'_1]
      exact ⟨hnot, fun hin => absurd hid (Nat.not_lt.2 hin.1)⟩
    unfold insertAt
    rw [seek_append_right _ hnew, hdrop, Option.map_some, standing_append, width_append,
      standing_fresh]
    congr 2
    omega

/-- A sequence whose ids are different, and below the next one. -/
structure Strand (α : Type*) where
  elems : List (Elem α)
  next : ℕ
  nodup : (ids elems).Nodup
  below : ∀ id ∈ ids elems, id < next

namespace Strand

def strike (w : α → ℕ) (start stop : ℕ) (t : Strand α) : Strand α where
  elems := Library.strike w start stop 0 t.elems
  next := t.next
  nodup := by
    rw [ids_strike]
    exact t.nodup
  below := by
    rw [ids_strike]
    exact t.below

def insertAt (k : ℕ) (new : List α) (t : Strand α) : Strand α where
  elems := Library.insertAt k t.next new t.elems
  next := t.next + new.length
  nodup := by
    have hsplit : (ids (t.elems.take k) ++ ids (t.elems.drop k)).Nodup := by
      rw [← ids_append, List.take_append_drop]
      exact t.nodup
    have hbelow : ∀ id ∈ ids (t.elems.take k) ++ ids (t.elems.drop k), id < t.next := by
      rw [← ids_append, List.take_append_drop]
      exact t.below
    unfold Library.insertAt
    rw [ids_append, ids_append, ids_fresh, List.append_assoc,
      (List.perm_append_comm_assoc _ _ _).nodup_iff, List.nodup_append]
    refine ⟨List.nodup_range', hsplit, ?_⟩
    intro i hi j hj
    have hlt := hbelow j hj
    rw [List.mem_range'_1] at hi
    omega
  below := by
    intro i hi
    unfold Library.insertAt at hi
    rw [ids_append, ids_append, ids_fresh, List.mem_append, List.mem_append,
      List.mem_range'_1] at hi
    rcases hi with (htake | hnew) | hdrop
    · have hlt := t.below i ((List.map_subset _ (List.take_subset k t.elems)) htake)
      omega
    · omega
    · have hlt := t.below i ((List.map_subset _ (List.drop_subset k t.elems)) hdrop)
      omega

end Strand
end LibrePaper.Library
