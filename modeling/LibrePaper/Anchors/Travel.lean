import LibrePaper.Anchors.Follow
import LibrePaper.Anchors.Store

/-!
# How cursors travel

An edit moves the characters that cursors sit on as the planner moves the anchors, unless it
inserts text where the character of a cursor was deleted: in front of the end of an anchor, or
behind its start. Edits that ascend never make up for that.
-/
namespace LibrePaper.Anchors
open Library List

/-- What is relied on of the document: an insertion goes behind the text before its offset. -/
def Inserts (insertion : List (Elem Char) → ℕ → ℕ) : Prop :=
  ∀ l u, Boundary charLenUtf16 (standing l) u →
    lenUtf16 (standing (l.take (insertion l u))) = u

section Text

variable {insertion : List (Elem Char) → ℕ → ℕ} {t : Strand Char} {p d q : List Char}

lemma struck_body (ht : body t = p ++ d ++ q) :
    body (t.strike charLenUtf16 (lenUtf16 p) (lenUtf16 p + lenUtf16 d)) = p ++ q :=
  standing_strike charLenUtf16_pos ht

/-- The elements before an insertion. -/
lemma insertion_split (hi : Inserts insertion) {l : List (Elem Char)} (hl : standing l = p ++ q) :
    standing (l.take (insertion l (lenUtf16 p))) = p ∧
      standing (l.drop (insertion l (lenUtf16 p))) = q := by
  have hwidth := hi l (lenUtf16 p) (hl ▸ Boundary.left p q)
  have hsplit : standing (l.take (insertion l (lenUtf16 p))) ++
      standing (l.drop (insertion l (lenUtf16 p))) = p ++ q := by
    rw [← standing_append, take_append_drop, hl]
  exact append_unique charLenUtf16_pos hsplit hwidth

lemma editText_body (hi : Inserts insertion) (ht : body t = p ++ d ++ q) (ins : List Char) :
    body (editText insertion t (lenUtf16 p) (lenUtf16 d) ins) = p ++ ins ++ q := by
  obtain ⟨hp, hq⟩ := insertion_split hi (struck_body ht)
  show standing (Library.insertAt _ _ ins _) = _
  rw [standing_insertAt, hp, hq]

/-- Where an element is after an edit. -/
lemma editText_seek (hi : Inserts insertion) (ht : body t = p ++ d ++ q) (ins : List Char)
    {id u : ℕ} {e : Elem Char} (h : seek charLenUtf16 id t.elems = some (u, e)) :
    let struck := t.strike charLenUtf16 (lenUtf16 p) (lenUtf16 p + lenUtf16 d)
    let before := struck.elems.take (insertion struck.elems (lenUtf16 p))
    let v := shrunk u (lenUtf16 p) (lenUtf16 p + lenUtf16 d)
    ∃ e', seek charLenUtf16 id struck.elems = some (v, e') ∧ e'.value = e.value ∧
      (e.live = false → e'.live = false) ∧
      (e.live = true → u + charLenUtf16 e.value ≤ lenUtf16 p ∨ lenUtf16 p + lenUtf16 d ≤ u →
        e'.live = true) ∧
      (id ∈ ids before ∧ v + e'.width charLenUtf16 ≤ lenUtf16 p ∧
          seek charLenUtf16 id (editText insertion t (lenUtf16 p) (lenUtf16 d) ins).elems =
            some (v, e') ∨
        id ∉ ids before ∧ lenUtf16 p ≤ v ∧
          seek charLenUtf16 id (editText insertion t (lenUtf16 p) (lenUtf16 d) ins).elems =
            some (v + lenUtf16 ins, e')) := by
  intro struck before v
  obtain ⟨e', hstruck, hvalue, hdead, hlive⟩ := seek_strike charLenUtf16_pos ht h
  obtain ⟨hp, hq⟩ := insertion_split hi (struck_body ht)
  refine ⟨e', hstruck, hvalue, hdead, hlive, ?_⟩
  have hsplit : struck.elems = before ++ struck.elems.drop (insertion struck.elems (lenUtf16 p)) :=
    (take_append_drop _ _).symm
  by_cases hid : id ∈ ids before
  · obtain ⟨r, hr⟩ := seek_of_mem (w := charLenUtf16) hid
    have heq : seek charLenUtf16 id struck.elems = some r := by
      rw [hsplit]
      exact seek_append_left _ hr
    obtain rfl := Option.some.inj (heq.symm.trans hstruck)
    have hle := seek_le hr
    refine .inl ⟨hid, ?_, seek_insertAt_before _ _ hr⟩
    rw [show standing before = p from hp] at hle
    exact hle
  · refine .inr ⟨hid, ?_, ?_⟩
    · have hdrop := hstruck
      change seek charLenUtf16 id struck.elems = some (v, e') at hdrop
      rw [hsplit, seek_append_right _ hid, show standing before = p from hp] at hdrop
      obtain ⟨r, -, heq⟩ := Option.map_eq_some_iff.1 hdrop
      have hv := congrArg Prod.fst heq
      dsimp only at hv
      unfold lenUtf16
      omega
    · have hbelow : id < struck.next := struck.below id (seek_mem hstruck)
      exact seek_insertAt_behind ins hbelow hid hstruck

end Text

/-- An anchor with the inserted text, if there is any. -/
def Followed.grown (ef n : ℕ) (f : Followed) : Followed :=
  if 0 < n then insertAnchor ef n f else f

/-- What an edit does to one anchor. -/
def Followed.edit (fragments : List FragmentRange) (index ef et n : ℕ) (f : Followed) : Followed :=
  if ef = et ∧ n = 0 then f
  else if ef < et then (cutAnchor fragments [] index ef et f).1.grown ef n
  else Followed.grown ef n { f with overlapped := false }

lemma cutAnchor_fst (fragments : List FragmentRange) (cur other : List Char) (index ef et : ℕ)
    (f : Followed) : (cutAnchor fragments cur index ef et f).1 =
      (cutAnchor fragments other index ef et f).1 := by
  unfold cutAnchor
  dsimp only
  split_ifs
  all_goals rfl

lemma step_anchors (fragments : List FragmentRange) (s : Following) (e : Edit) (index : ℕ) :
    (s.step fragments (e, index)).anchors =
      s.anchors.map (Followed.edit fragments index (e.pos + s.adj).toNat
        ((e.pos + s.adj).toNat + e.delete) (lenUtf16 e.insert)) := by
  unfold Following.step
  dsimp only
  generalize (e.pos + s.adj).toNat = ef
  by_cases hskip : ef = ef + e.delete ∧ lenUtf16 e.insert = 0
  · have hedit : Followed.edit fragments index ef (ef + e.delete) (lenUtf16 e.insert) = id :=
      funext fun f => if_pos hskip
    rw [if_pos hskip, hedit, map_id]
  · rw [if_neg hskip]
    dsimp only
    by_cases hcut : ef < ef + e.delete
    · have hedit : ∀ f, Followed.edit fragments index ef (ef + e.delete) (lenUtf16 e.insert) f =
          (cutAnchor fragments [] index ef (ef + e.delete) f).1.grown ef (lenUtf16 e.insert) :=
        fun f => (if_neg hskip).trans (if_pos hcut)
      rw [if_pos hcut, map_congr_left fun f _ => hedit f, map_map]
      unfold Followed.grown
      split_ifs
      · rw [map_map]
        refine map_congr_left fun f _ => ?_
        rw [Function.comp_apply, Function.comp_apply, cutAnchor_fst]
      · rw [map_map]
        refine map_congr_left fun f _ => ?_
        rw [Function.comp_apply, cutAnchor_fst]
    · have hedit : ∀ f, Followed.edit fragments index ef (ef + e.delete) (lenUtf16 e.insert) f =
          Followed.grown ef (lenUtf16 e.insert) { f with overlapped := false } :=
        fun f => (if_neg hskip).trans (if_neg hcut)
      rw [if_neg hcut, map_congr_left fun f _ => hedit f]
      unfold Followed.grown
      split_ifs
      · rw [map_map]
        rfl
      · rfl

/-- Where an edit moves the start of an anchor that it does not touch. -/
def movedStart (ef et n start : ℕ) : ℕ :=
  let start := afterDelete start ef et
  if ef ≤ start then start + n else start

def movedStop (ef et n start stop : ℕ) : ℕ :=
  let start := afterDelete start ef et
  let stop := afterDelete stop ef et
  if ef ≤ start ∨ ef < stop then stop + n else stop

/-- What an edit leaves of an anchor that stays attached and untouched. -/
structure Untouched (f g : Followed) (ef et n : ℕ) : Prop where
  attached : f.planned.anchor.attached = true
  touched : f.planned.touched = false
  outside : ef < et → f.planned.anchor.stop ≤ ef ∨ et ≤ f.planned.anchor.start
  id : g.planned.anchor.id = f.planned.anchor.id
  start : g.planned.anchor.start = movedStart ef et n f.planned.anchor.start
  stop : g.planned.anchor.stop = movedStop ef et n f.planned.anchor.start f.planned.anchor.stop

lemma insertAnchor_touched (ef n : ℕ) (f : Followed) :
    (insertAnchor ef n f).planned.touched = f.planned.touched := by
  unfold insertAnchor
  dsimp only
  split_ifs <;> rfl

lemma insertAnchor_attached (ef n : ℕ) (f : Followed) :
    (insertAnchor ef n f).planned.anchor.attached = f.planned.anchor.attached := by
  unfold insertAnchor
  dsimp only
  split_ifs <;> rfl

variable {f g : Followed} {ef n index et : ℕ} {fragments : List FragmentRange}

/-- What an insertion does to an anchor that it is not inside a deletion of. -/
lemma insertAnchor_moves (ef n : ℕ) (ha : f.planned.anchor.attached = true)
    (hover : f.overlapped = false) :
    (insertAnchor ef n f).planned.anchor.id = f.planned.anchor.id ∧
      (insertAnchor ef n f).planned.anchor.start =
        (if ef ≤ f.planned.anchor.start then f.planned.anchor.start + n
          else f.planned.anchor.start) ∧
      (insertAnchor ef n f).planned.anchor.stop =
        (if ef ≤ f.planned.anchor.start ∨ ef < f.planned.anchor.stop then
          f.planned.anchor.stop + n else f.planned.anchor.stop) := by
  unfold insertAnchor
  dsimp only
  rw [if_neg (by simp [ha]), if_neg (by simp [hover])]
  by_cases hbefore : ef ≤ f.planned.anchor.start
  · rw [if_pos hbefore, if_pos hbefore, if_pos (.inl hbefore)]
    exact ⟨rfl, rfl, rfl⟩
  · rw [if_neg hbefore, if_neg hbefore]
    by_cases hinside : ef < f.planned.anchor.stop
    · rw [if_pos hinside, if_pos (.inr hinside)]
      exact ⟨rfl, rfl, rfl⟩
    · rw [if_neg hinside, if_neg (not_or.2 ⟨hbefore, hinside⟩)]
      exact ⟨rfl, rfl, rfl⟩

lemma grown_moves (ha : (f.grown ef n).planned.anchor.attached = true)
    (ht : (f.grown ef n).planned.touched = false) :
    f.planned.anchor.attached = true ∧ f.planned.touched = false ∧ (f.overlapped = false →
      (f.grown ef n).planned.anchor.id = f.planned.anchor.id ∧
      (f.grown ef n).planned.anchor.start =
        (if ef ≤ f.planned.anchor.start then f.planned.anchor.start + n
          else f.planned.anchor.start) ∧
      (f.grown ef n).planned.anchor.stop =
        (if ef ≤ f.planned.anchor.start ∨ ef < f.planned.anchor.stop then
          f.planned.anchor.stop + n else f.planned.anchor.stop)) := by
  unfold Followed.grown at ha ht ⊢
  by_cases hn : 0 < n
  · rw [if_pos hn] at ha ht ⊢
    rw [insertAnchor_attached] at ha
    rw [insertAnchor_touched] at ht
    exact ⟨ha, ht, insertAnchor_moves ef n ha⟩
  · rw [if_neg hn] at ha ht ⊢
    obtain rfl : n = 0 := by omega
    refine ⟨ha, ht, fun _ => ⟨rfl, ?_, ?_⟩⟩
    all_goals rw [Nat.add_zero, ite_self]

lemma cutAnchor_untouched (hg : g = (cutAnchor fragments [] index ef et f).1)
    (ha : g.planned.anchor.attached = true) (ht : g.planned.touched = false) :
    f.planned.anchor.attached = true ∧ f.planned.touched = false ∧ g.overlapped = false ∧
      ¬(f.planned.anchor.start < et ∧ ef < f.planned.anchor.stop) ∧
      g.planned.anchor.id = f.planned.anchor.id ∧
      g.planned.anchor.start = afterDelete f.planned.anchor.start ef et ∧
      g.planned.anchor.stop = afterDelete f.planned.anchor.stop ef et := by
  unfold cutAnchor at hg
  dsimp only at hg
  by_cases hatt : f.planned.anchor.attached = false
  · rw [if_pos hatt] at hg
    subst hg
    exact absurd ha (by simp [hatt])
  rw [if_neg hatt] at hg
  by_cases hcovered : ef ≤ f.planned.anchor.start ∧ f.planned.anchor.stop ≤ et
  · rw [if_pos hcovered] at hg
    subst hg
    cases ht
  · rw [if_neg hcovered] at hg
    subst hg
    rw [Bool.or_eq_false_iff, decide_eq_false_iff_not] at ht
    exact ⟨ha, ht.1, decide_eq_false ht.2, ht.2, rfl, rfl, rfl⟩

lemma edit_untouched (hle : ef ≤ et)
    (ha : (f.edit fragments index ef et n).planned.anchor.attached = true)
    (ht : (f.edit fragments index ef et n).planned.touched = false) :
    Untouched f (f.edit fragments index ef et n) ef et n := by
  have hnone : ∀ u, afterDelete u ef ef = u := by
    intro u
    unfold afterDelete
    split_ifs <;> omega
  unfold Followed.edit at ha ht ⊢
  by_cases hskip : ef = et ∧ n = 0
  · rw [if_pos hskip] at ha ht ⊢
    obtain ⟨rfl, rfl⟩ := hskip
    refine ⟨ha, ht, fun h => absurd h (lt_irrefl _), rfl, ?_, ?_⟩
    · unfold movedStart
      simp only [hnone, Nat.add_zero, ite_self]
    · unfold movedStop
      simp only [hnone, Nat.add_zero, ite_self]
  · rw [if_neg hskip] at ha ht ⊢
    by_cases hcut : ef < et
    · rw [if_pos hcut] at ha ht ⊢
      obtain ⟨ha', ht', hmoves⟩ := grown_moves ha ht
      obtain ⟨hatt, htouched, hover, hout, hid, hstart, hstop⟩ := cutAnchor_untouched rfl ha' ht'
      obtain ⟨hid', hstart', hstop'⟩ := hmoves hover
      refine ⟨hatt, htouched, fun _ => by omega, hid'.trans hid, ?_, ?_⟩
      · rw [hstart', hstart]
        rfl
      · rw [hstop', hstart, hstop]
        rfl
    · rw [if_neg hcut] at ha ht ⊢
      obtain ⟨ha', ht', hmoves⟩ := grown_moves ha ht
      obtain ⟨hid', hstart', hstop'⟩ := hmoves rfl
      obtain rfl : ef = et := by omega
      refine ⟨ha', ht', fun h => absurd h hcut, hid', ?_, ?_⟩
      · unfold movedStart
        rw [hnone]
        exact hstart'
      · unfold movedStop
        rw [hnone, hnone]
        exact hstop'

/-- Where the span of two resolved cursors ends. -/
def spanStop (r : ℕ × Elem Char) : ℕ := r.1 + r.2.width charLenUtf16

/-- The cursors are where the planner has the anchor. -/
def InSync (t : Strand Char) (first last : ℕ) (a : Anchor) : Prop :=
  ∃ s e, seek charLenUtf16 first t.elems = some s ∧ seek charLenUtf16 last t.elems = some e ∧
    a.start = s.1 ∧ a.stop = spanStop e

/-- The cursors are elsewhere, and no edit from `m` on makes up for it. -/
def Slipped (t : Strand Char) (first last m : ℕ) (a : Anchor) : Prop :=
  ∃ s e, seek charLenUtf16 first t.elems = some s ∧ seek charLenUtf16 last t.elems = some e ∧
    (a.stop < m ∧ m ≤ e.1 ∨ s.1 < m ∧ m ≤ a.start)

/-- Text is inserted where the character of a cursor was deleted: in front of the end of an
anchor, or behind its start. -/
def slipsAt (insertion : List (Elem Char) → ℕ → ℕ) (struck : Strand Char) (ef : ℕ)
    (insert : List Char) (first last : ℕ) : Bool :=
  let before := ids (struck.elems.take (insertion struck.elems ef))
  let gone (char : ℕ) : Bool :=
    (seek charLenUtf16 char struck.elems).any fun r => !r.2.live && r.1 == ef
  insert != [] && (gone last && !before.contains last || gone first && before.contains first)

section Step

variable {insertion : List (Elem Char) → ℕ → ℕ} {t : Strand Char} {p d q : List Char}

variable {e : Elem Char} {first last m : ℕ} {a : Anchor}

/-- A live element that ends after a boundary begins at or after it. -/
lemma boundary_le_seek {id u b : ℕ} (h : seek charLenUtf16 id t.elems = some (u, e))
    (hlive : e.live = true) (hb : Boundary charLenUtf16 (body t) b)
    (hlt : b < u + charLenUtf16 e.value) : b ≤ u := by
  obtain ⟨x, y, hx, -, -, rfl⟩ := seek_eq_some h
  by_contra hgt
  obtain ⟨v, rfl⟩ := Nat.exists_eq_add_of_le (Nat.le_of_not_le hgt)
  unfold body at hb
  rw [hx, standing_append, standing_live hlive] at hb
  obtain ⟨s, r, hsr, hs⟩ := hb.of_ge charLenUtf16_pos
  cases s with
  | nil =>
    rw [width_nil] at hs
    omega
  | cons c s =>
    obtain ⟨rfl, -⟩ := cons.inj hsr
    rw [width_cons] at hs
    omega

lemma width_pos_iff : 0 < e.width charLenUtf16 ↔ e.live = true := by
  unfold Elem.width
  split_ifs with h
  · exact ⟨fun _ => h, fun _ => charLenUtf16_pos _⟩
  · exact ⟨fun hpos => absurd hpos (lt_irrefl 0), fun hlive => absurd hlive h⟩

lemma slipsAt_iff {struck : Strand Char} {ins : List Char} {s e : ℕ × Elem Char}
    (hs : seek charLenUtf16 first struck.elems = some s)
    (he : seek charLenUtf16 last struck.elems = some e) :
    slipsAt insertion struck ef ins first last = true ↔ ins ≠ [] ∧
      (e.2.live = false ∧ e.1 = ef ∧
          last ∉ ids (struck.elems.take (insertion struck.elems ef)) ∨
        s.2.live = false ∧ s.1 = ef ∧
          first ∈ ids (struck.elems.take (insertion struck.elems ef))) := by
  unfold slipsAt
  simp only [hs, he, Option.any_some, Bool.and_eq_true, Bool.or_eq_true, bne_iff_ne,
    Bool.not_eq_true', beq_iff_eq, contains_iff_mem, Bool.eq_false_iff, ne_eq, and_assoc]

/-- The character of the end of an anchor that a deletion does not reach is kept. -/
lemma last_kept {e : ℕ} {ee : Elem Char} (ht : body t = p ++ d ++ q)
    (he : seek charLenUtf16 last t.elems = some (e, ee)) (hin : InText (body t) a)
    (hstop : a.stop = spanStop (e, ee)) (hout : lenUtf16 p < lenUtf16 p + lenUtf16 d →
      a.stop ≤ lenUtf16 p ∨ lenUtf16 p + lenUtf16 d ≤ a.start) (hlive : ee.live = true) :
    e + charLenUtf16 ee.value ≤ lenUtf16 p ∨ lenUtf16 p + lenUtf16 d ≤ e := by
  have hwide : spanStop (e, ee) = e + charLenUtf16 ee.value := by
    unfold spanStop Elem.width
    rw [if_pos hlive]
  have hlt := hin.lt
  by_cases hd : lenUtf16 p < lenUtf16 p + lenUtf16 d
  · rcases hout hd with hle | hge
    · exact .inl (by omega)
    · have hstart := boundary_le_seek he hlive hin.start (by omega)
      exact .inr (by omega)
  · have hp : Boundary charLenUtf16 (body t) (lenUtf16 p) := by
      rw [ht, append_assoc]
      exact Boundary.left p (d ++ q)
    rcases Nat.lt_or_ge (lenUtf16 p) (e + charLenUtf16 ee.value) with hgt | hle
    · have hge := boundary_le_seek he hlive hp hgt
      exact .inr (by omega)
    · exact .inl hle

/-- One edit of an anchor whose cursors are in place: they stay so, unless the edit slips. -/
lemma InSync.step (hi : Inserts insertion) (ht : body t = p ++ d ++ q) (ins : List Char)
    (hsync : InSync t first last f.planned.anchor) (hin : InText (body t) f.planned.anchor)
    (hu : Untouched f g (lenUtf16 p) (lenUtf16 p + lenUtf16 d) (lenUtf16 ins)) :
    if slipsAt insertion (t.strike charLenUtf16 (lenUtf16 p) (lenUtf16 p + lenUtf16 d))
        (lenUtf16 p) ins first last then
      Slipped (editText insertion t (lenUtf16 p) (lenUtf16 d) ins) first last
        (lenUtf16 p + lenUtf16 ins) g.planned.anchor
    else InSync (editText insertion t (lenUtf16 p) (lenUtf16 d) ins) first last
      g.planned.anchor := by
  obtain ⟨⟨s, es⟩, ⟨e, ee⟩, hs, he, hstart, hstop⟩ := hsync
  obtain ⟨es', hs', -, -, -, hsplace⟩ := editText_seek hi ht ins hs
  obtain ⟨ee', he', hvalue, hdead, hlive, heplace⟩ := editText_seek hi ht ins he
  have hwidth : ee'.width charLenUtf16 = ee.width charLenUtf16 := by
    unfold Elem.width
    cases hl : ee.live with
    | true => rw [hlive hl (last_kept ht he hin hstop hu.outside hl), hvalue]
    | false => rw [hdead hl]; rfl
  have hkept : 0 < ee.width charLenUtf16 →
      e + ee.width charLenUtf16 ≤ lenUtf16 p ∨ lenUtf16 p + lenUtf16 d ≤ e := by
    intro hpos
    have hl := width_pos_iff.1 hpos
    have hk := last_kept ht he hin hstop hu.outside hl
    unfold Elem.width
    rw [if_pos hl]
    exact hk
  have hlt := hin.lt
  have hnil : lenUtf16 ins = 0 ↔ ins = [] :=
    ⟨width_eq_zero charLenUtf16_pos, fun h => by rw [h]; rfl⟩
  have hmstart := hu.start
  have hmstop := hu.stop
  have hout := hu.outside
  unfold movedStart at hmstart
  unfold movedStop at hmstop
  have hshrunk : afterDelete = shrunk := rfl
  unfold spanStop at hstop
  dsimp only at hstart hstop
  rw [hshrunk, hstart] at hmstart hmstop
  rw [hstop] at hmstop
  have hstop' : shrunk (e + ee.width charLenUtf16) (lenUtf16 p) (lenUtf16 p + lenUtf16 d) =
      shrunk e (lenUtf16 p) (lenUtf16 p + lenUtf16 d) + ee.width charLenUtf16 := by
    unfold shrunk
    split_ifs <;> omega
  have hless : shrunk s (lenUtf16 p) (lenUtf16 p + lenUtf16 d) <
      shrunk e (lenUtf16 p) (lenUtf16 p + lenUtf16 d) + ee.width charLenUtf16 := by
    rw [← hstop']
    rw [hstart, hstop] at hlt hout
    unfold shrunk
    split_ifs <;> omega
  rw [hstop'] at hmstop
  have hsdead : es'.width charLenUtf16 = 0 → es'.live = false := fun h =>
    Bool.eq_false_iff.2 fun hl => absurd (width_pos_iff.2 hl) (by omega)
  have hedead : ee'.width charLenUtf16 = 0 ↔ ee'.live = false := by
    constructor
    · exact fun h => Bool.eq_false_iff.2 fun hl => absurd (width_pos_iff.2 hl) (by omega)
    · intro h
      unfold Elem.width
      rw [if_neg (by simp [h])]
  generalize shrunk s (lenUtf16 p) (lenUtf16 p + lenUtf16 d) = S at *
  generalize shrunk e (lenUtf16 p) (lenUtf16 p + lenUtf16 d) = E at *
  dsimp only at hmstart hmstop hsplace heplace
  by_cases hslip : slipsAt insertion (t.strike charLenUtf16 (lenUtf16 p) (lenUtf16 p + lenUtf16 d))
      (lenUtf16 p) ins first last = true
  · rw [if_pos hslip]
    obtain ⟨hne, hcase⟩ := (slipsAt_iff hs' he').1 hslip
    have hn : 0 < lenUtf16 ins := Nat.pos_of_ne_zero fun h => hne (hnil.1 h)
    rcases hcase with ⟨hgone, rfl, hnotin⟩ | ⟨hgone, rfl, hmem⟩
    · have hzero := hedead.2 hgone
      obtain ⟨hin', -⟩ | ⟨-, -, hlast⟩ := heplace
      · exact absurd hin' hnotin
      · obtain ⟨sp, hfirst⟩ : ∃ sp, seek charLenUtf16 first
            (editText insertion t (lenUtf16 p) (lenUtf16 d) ins).elems = some sp := by
          rcases hsplace with ⟨-, -, h⟩ | ⟨-, -, h⟩
          all_goals exact ⟨_, h⟩
        refine ⟨sp, _, hfirst, hlast, .inl ⟨?_, le_rfl⟩⟩
        rw [hmstop, if_neg (by omega)]
        omega
    · obtain ⟨-, -, hfirst⟩ | ⟨hnotin, -⟩ := hsplace
      · obtain ⟨ep, hlast⟩ : ∃ ep, seek charLenUtf16 last
            (editText insertion t (lenUtf16 p) (lenUtf16 d) ins).elems = some ep := by
          rcases heplace with ⟨-, -, h⟩ | ⟨-, -, h⟩
          all_goals exact ⟨_, h⟩
        refine ⟨_, ep, hfirst, hlast, .inr ⟨?_, ?_⟩⟩
        · dsimp only
          omega
        · rw [hmstart, if_pos le_rfl]
      · exact absurd hmem hnotin
  · rw [if_neg hslip]
    have hnot := fun h => hslip ((slipsAt_iff hs' he').2 h)
    have hzero : ¬lenUtf16 ins = 0 → ins ≠ [] := fun h hins => h (hnil.2 hins)
    obtain ⟨sp, hfirst, hsp⟩ : ∃ sp, seek charLenUtf16 first
        (editText insertion t (lenUtf16 p) (lenUtf16 d) ins).elems = some sp ∧
          g.planned.anchor.start = sp.1 := by
      rcases hsplace with ⟨hmem, hle, h⟩ | ⟨-, hge, h⟩
      · refine ⟨_, h, ?_⟩
        rw [hmstart]
        split_ifs with hps
        · by_contra hne
          exact hnot ⟨hzero (by omega), .inr ⟨hsdead (by omega), by dsimp only; omega, hmem⟩⟩
        · rfl
      · exact ⟨_, h, by rw [hmstart, if_pos hge]⟩
    obtain ⟨ep, hlast, hep⟩ : ∃ ep, seek charLenUtf16 last
        (editText insertion t (lenUtf16 p) (lenUtf16 d) ins).elems = some ep ∧
          g.planned.anchor.stop = spanStop ep := by
      unfold spanStop
      rcases heplace with ⟨-, hle, h⟩ | ⟨hnotin, hge, h⟩
      · refine ⟨_, h, ?_⟩
        rw [hmstop, if_neg (by omega), hwidth]
      · refine ⟨_, h, ?_⟩
        rw [hmstop, hwidth]
        split_ifs with hmoves
        · exact Nat.add_right_comm _ _ _
        · by_contra hne
          exact hnot ⟨hzero (by omega), .inl ⟨hedead.1 (by omega), by dsimp only; omega, hnotin⟩⟩
    exact ⟨sp, ep, hfirst, hlast, hsp, hep⟩

/-- An edit behind the place where the cursors slipped does not make up for it. -/
lemma Slipped.step (hi : Inserts insertion) (ht : body t = p ++ d ++ q) (ins : List Char)
    (hslip : Slipped t first last m f.planned.anchor)
    (hlt : f.planned.anchor.start < f.planned.anchor.stop) (hm : m ≤ lenUtf16 p)
    (hu : Untouched f g (lenUtf16 p) (lenUtf16 p + lenUtf16 d) (lenUtf16 ins)) :
    Slipped (editText insertion t (lenUtf16 p) (lenUtf16 d) ins) first last m g.planned.anchor := by
  obtain ⟨⟨s, es⟩, ⟨e, ee⟩, hs, he, hcase⟩ := hslip
  obtain ⟨es', -, -, -, -, hsplace⟩ := editText_seek hi ht ins hs
  obtain ⟨ee', -, -, -, -, heplace⟩ := editText_seek hi ht ins he
  dsimp only at hcase hsplace heplace
  have hbelow : ∀ u, u < m → shrunk u (lenUtf16 p) (lenUtf16 p + lenUtf16 d) = u := fun u hu =>
    if_pos (Nat.lt_of_lt_of_le hu hm)
  have habove : ∀ u, m ≤ u → m ≤ shrunk u (lenUtf16 p) (lenUtf16 p + lenUtf16 d) := by
    intro u hu
    unfold shrunk
    split_ifs <;> omega
  rcases hcase with ⟨hstop, hend⟩ | ⟨hstart, hbegin⟩
  · have hgstop : g.planned.anchor.stop = f.planned.anchor.stop := by
      have hmoved := hu.stop
      unfold movedStop at hmoved
      have hafter : afterDelete = shrunk := rfl
      rw [hafter, hbelow _ hstop, hbelow _ (hlt.trans hstop), if_neg (by omega)] at hmoved
      exact hmoved
    have hge := habove e hend
    obtain ⟨sp, hfirst⟩ : ∃ sp, seek charLenUtf16 first
        (editText insertion t (lenUtf16 p) (lenUtf16 d) ins).elems = some sp := by
      rcases hsplace with ⟨-, -, h⟩ | ⟨-, -, h⟩
      all_goals exact ⟨_, h⟩
    rcases heplace with ⟨-, -, h⟩ | ⟨-, -, h⟩
    · exact ⟨sp, _, hfirst, h, .inl ⟨hgstop ▸ hstop, hge⟩⟩
    · exact ⟨sp, _, hfirst, h, .inl ⟨hgstop ▸ hstop, hge.trans (Nat.le_add_right _ _)⟩⟩
  · have hgstart : m ≤ g.planned.anchor.start := by
      have hmoved := hu.start
      have hge := habove _ hbegin
      unfold movedStart at hmoved
      have hafter : afterDelete = shrunk := rfl
      rw [hafter] at hmoved
      dsimp only at hmoved
      split_ifs at hmoved <;> omega
    obtain ⟨ep, hlast⟩ : ∃ ep, seek charLenUtf16 last
        (editText insertion t (lenUtf16 p) (lenUtf16 d) ins).elems = some ep := by
      rcases heplace with ⟨-, -, h⟩ | ⟨-, -, h⟩
      all_goals exact ⟨_, h⟩
    rw [hbelow s hstart] at hsplace
    rcases hsplace with ⟨-, -, h⟩ | ⟨-, hge, -⟩
    · exact ⟨_, ep, h, hlast, .inr ⟨hstart, hgstart⟩⟩
    · omega

lemma Slipped.not_inSync (h : Slipped t first last m a) : ¬InSync t first last a := by
  rintro ⟨s', e', hs', he', hstart, hstop⟩
  obtain ⟨s, e, hs, he, hcase⟩ := h
  obtain rfl := Option.some.inj (hs.symm.trans hs')
  obtain rfl := Option.some.inj (he.symm.trans he')
  unfold spanStop at hstop
  omega

end Step

/-- What the edits of a file do to one anchor. -/
def Followed.run (fragments : List FragmentRange) : ℕ → ℤ → List Edit → Followed → Followed
  | _, _, [], f => f
  | index, adj, e :: edits, f =>
    let ef := (e.pos + adj).toNat
    Followed.run fragments (index + 1) (adj + lenUtf16 e.insert - e.delete) edits
      (f.edit fragments index ef (ef + e.delete) (lenUtf16 e.insert))

/-- One of the edits slips on the cursors. -/
def slips (insertion : List (Elem Char) → ℕ → ℕ) (first last : ℕ) :
    ℤ → List Edit → Strand Char → Bool
  | _, [], _ => false
  | adj, e :: edits, t =>
    let ef := (e.pos + adj).toNat
    slipsAt insertion (t.strike charLenUtf16 ef (ef + e.delete)) ef e.insert first last ||
      slips insertion first last (adj + lenUtf16 e.insert - e.delete) edits
        (editText insertion t ef e.delete e.insert)

lemma step_adj (fragments : List FragmentRange) (s : Following) (e : Edit) (index : ℕ) :
    (s.step fragments (e, index)).adj = s.adj + lenUtf16 e.insert - e.delete := by
  unfold Following.step
  dsimp only
  split_ifs
  · omega
  all_goals rw [Nat.add_sub_cancel_left]

lemma step_cur {s : Following} {e : Edit} {p d q : List Char} (hs : Splits s e p d q)
    (fragments : List FragmentRange) (index : ℕ) :
    (s.step fragments (e, index)).cur = p ++ e.insert ++ q := by
  rw [Following.step_eq hs]
  by_cases hnone : d = [] ∧ e.insert = []
  · rw [if_pos hnone, hs.cur, hnone.1, hnone.2]
  · rw [if_neg hnone]

lemma foldl_anchors (fragments : List FragmentRange) (edits : List Edit) (index : ℕ)
    (s : Following) : ((edits.zipIdx index).foldl (Following.step fragments) s).anchors =
      s.anchors.map (Followed.run fragments index s.adj edits) := by
  induction edits generalizing index s with
  | nil => exact (map_id _).symm
  | cons e edits ih =>
    rw [zipIdx_cons, foldl_cons, ih, step_anchors, step_adj, map_map]
    rfl

/-- An anchor that stays untouched was untouched before. -/
lemma run_untouched {adj : ℤ} {edits : List Edit}
    (ha : (f.run fragments index adj edits).planned.anchor.attached = true)
    (ht : (f.run fragments index adj edits).planned.touched = false) :
    f.planned.anchor.attached = true ∧ f.planned.touched = false := by
  induction edits generalizing index adj f with
  | nil => exact ⟨ha, ht⟩
  | cons e edits ih =>
    obtain ⟨ha', ht'⟩ := ih ha ht
    have hu := edit_untouched (Nat.le_add_right _ _) ha' ht'
    exact ⟨hu.attached, hu.touched⟩

section Run

variable {insertion : List (Elem Char) → ℕ → ℕ} {t : Strand Char} {fragments : List FragmentRange}
  {s : Following}

section Cons

variable {e : Edit} {p d q : List Char}

lemma Splits.pos_toNat (hs : Splits s e p d q) : (e.pos + s.adj).toNat = lenUtf16 p := by
  have hpos := hs.pos
  omega

lemma run_cons (hs : Splits s e p d q) (fragments : List FragmentRange) (index : ℕ)
    (edits : List Edit) (f : Followed) : f.run fragments index s.adj (e :: edits) =
      (f.edit fragments index (lenUtf16 p) (lenUtf16 p + lenUtf16 d) (lenUtf16 e.insert)).run
        fragments (index + 1) (s.step fragments (e, index)).adj edits := by
  rw [step_adj, hs.delete, ← hs.pos_toNat]
  rfl

lemma editTexts_cons (hs : Splits s e p d q) (fragments : List FragmentRange) (index : ℕ)
    (edits : List Edit) : editTexts insertion s.adj (e :: edits) t =
      editTexts insertion (s.step fragments (e, index)).adj edits
        (editText insertion t (lenUtf16 p) (lenUtf16 d) e.insert) := by
  rw [step_adj, hs.delete, ← hs.pos_toNat]
  rfl

lemma slips_cons (hs : Splits s e p d q) (fragments : List FragmentRange) (index : ℕ)
    (edits : List Edit) (first last : ℕ) : slips insertion first last s.adj (e :: edits) t =
      (slipsAt insertion (t.strike charLenUtf16 (lenUtf16 p) (lenUtf16 p + lenUtf16 d)) (lenUtf16 p)
          e.insert first last ||
        slips insertion first last (s.step fragments (e, index)).adj edits
          (editText insertion t (lenUtf16 p) (lenUtf16 d) e.insert)) := by
  rw [step_adj, hs.delete, ← hs.pos_toNat]
  rfl

lemma edit_mem (hs : Splits s e p d q) (fragments : List FragmentRange) (index : ℕ)
    (hf : f ∈ s.anchors) :
    f.edit fragments index (lenUtf16 p) (lenUtf16 p + lenUtf16 d) (lenUtf16 e.insert) ∈
      (s.step fragments (e, index)).anchors := by
  rw [step_anchors, hs.delete, hs.pos_toNat]
  exact mem_map_of_mem hf

lemma next_le (hs : Splits s e p d q) (fragments : List FragmentRange) (index : ℕ) :
    ((e.pos + e.delete : ℕ) : ℤ) + (s.step fragments (e, index)).adj =
      lenUtf16 p + lenUtf16 e.insert := by
  rw [step_adj, ← hs.pos]
  push_cast
  omega

end Cons

/-- The body after the edits is the planner's text after them. -/
lemma editTexts_body (hi : Inserts insertion) (edits : List Edit) (index : ℕ)
    (hfits : Fits s.cur s.adj edits) (ht : body t = s.cur) :
    body (editTexts insertion s.adj edits t) =
      ((edits.zipIdx index).foldl (Following.step fragments) s).cur := by
  induction edits generalizing index s t with
  | nil => exact ht
  | cons e edits ih =>
    obtain ⟨p, d, q, hcur, hpos, hdelete, hrest⟩ := hfits
    have hs : Splits s e p d q := ⟨hcur, hpos, hdelete⟩
    have hbody := editText_body hi (ht.trans hcur) e.insert
    rw [editTexts_cons hs fragments index, zipIdx_cons, foldl_cons]
    exact ih (index + 1) (Fits.step hs hrest fragments index)
      (hbody.trans (step_cur hs fragments index).symm)

variable {before : List Char} {u first last : ℕ}

/-- Cursors that slipped stay out of place. -/
lemma Slipped.run (hi : Inserts insertion) {m : ℕ} (edits : List Edit) (index : ℕ)
    (hfine : Fine s) (hfits : Fits s.cur s.adj edits) (hasc : Ascending before u edits)
    (hm : (m : ℤ) ≤ u + s.adj) (ht : body t = s.cur) (hf : f ∈ s.anchors)
    (ha : (f.run fragments index s.adj edits).planned.anchor.attached = true)
    (hu : (f.run fragments index s.adj edits).planned.touched = false)
    (hslip : Slipped t first last m f.planned.anchor) :
    Slipped (editTexts insertion s.adj edits t) first last m
      (f.run fragments index s.adj edits).planned.anchor := by
  induction edits generalizing index s t u f with
  | nil => exact hslip
  | cons e edits ih =>
    obtain ⟨p, d, q, hcur, hpos, hdelete, hrest⟩ := hfits
    obtain ⟨hle, -, -, hasc⟩ := hasc
    have hs : Splits s e p d q := ⟨hcur, hpos, hdelete⟩
    rw [run_cons hs] at ha hu ⊢
    rw [editTexts_cons hs fragments index]
    obtain ⟨ha', hu'⟩ := run_untouched ha hu
    have hedit := edit_untouched (Nat.le_add_right _ _) ha' hu'
    have hnext := next_le hs fragments index
    have hin := hfine.anchors f hf hedit.attached
    exact ih (index + 1) (hfine.step hs fragments index) (Fits.step hs hrest fragments index) hasc
      (by omega) ((editText_body hi (ht.trans hcur) e.insert).trans
        (step_cur hs fragments index).symm) (edit_mem hs fragments index hf) ha hu
      (hslip.step hi (ht.trans hcur) e.insert hin.lt (by omega) hedit)

/-- The cursors of an anchor that no edit touches are in place after the edits, unless one of
them slips. -/
lemma InSync.run (hi : Inserts insertion) (edits : List Edit) (index : ℕ) (hfine : Fine s)
    (hfits : Fits s.cur s.adj edits) (hasc : Ascending before u edits) (ht : body t = s.cur)
    (hf : f ∈ s.anchors) (ha : (f.run fragments index s.adj edits).planned.anchor.attached = true)
    (hu : (f.run fragments index s.adj edits).planned.touched = false)
    (hsync : InSync t first last f.planned.anchor) :
    if slips insertion first last s.adj edits t then
      ∃ m, Slipped (editTexts insertion s.adj edits t) first last m
        (f.run fragments index s.adj edits).planned.anchor
    else InSync (editTexts insertion s.adj edits t) first last
      (f.run fragments index s.adj edits).planned.anchor := by
  induction edits generalizing index s t u f with
  | nil => exact hsync
  | cons e edits ih =>
    obtain ⟨p, d, q, hcur, hpos, hdelete, hrest⟩ := hfits
    obtain ⟨hle, -, -, hasc⟩ := hasc
    have hs : Splits s e p d q := ⟨hcur, hpos, hdelete⟩
    rw [run_cons hs] at ha hu ⊢
    rw [editTexts_cons hs fragments index, slips_cons hs fragments index]
    obtain ⟨ha', hu'⟩ := run_untouched ha hu
    have hedit := edit_untouched (Nat.le_add_right _ _) ha' hu'
    have hstep := hsync.step hi (ht.trans hcur) e.insert
      (ht ▸ hfine.anchors f hf hedit.attached) hedit
    have hfine' := hfine.step hs fragments index
    have hfits' := Fits.step hs hrest fragments index
    have hbody := (editText_body hi (ht.trans hcur) e.insert).trans
      (step_cur hs fragments index).symm
    have hmem := edit_mem hs fragments index hf
    by_cases hslip : slipsAt insertion (t.strike charLenUtf16 (lenUtf16 p)
        (lenUtf16 p + lenUtf16 d)) (lenUtf16 p) e.insert first last = true
    · rw [if_pos hslip] at hstep
      rw [hslip, Bool.true_or, if_pos rfl]
      have hnext := next_le hs fragments index
      exact ⟨_, hstep.run hi edits (index + 1) hfine' hfits' hasc (by push_cast; omega) hbody hmem
        ha hu⟩
    · rw [if_neg hslip] at hstep
      rw [Bool.eq_false_iff.2 hslip, Bool.false_or]
      exact ih (index + 1) hfine' hfits' hasc hbody hmem ha hu hstep

end Run

end LibrePaper.Anchors
