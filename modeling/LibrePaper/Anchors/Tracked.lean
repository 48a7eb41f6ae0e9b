import LibrePaper.Anchors.Exact

/-!
# The characters of an anchor

A text is followed character by character, each with a mark that says whether it is in the
span of an anchor. A deletion takes its characters, and an insertion is in the span when it
is strictly inside it, or in place of a part of it. The planner's offsets are where the
marks are.
-/
namespace LibrePaper.Anchors
open Library List

inductive Mark where
  | outside
  | own
  | added
deriving DecidableEq

/-- Whether a character is in the span. -/
def marked (x : Char × Mark) : Bool := decide (x.2 ≠ .outside)

/-- Whether a character was in the span from the start. -/
def isOwn (x : Char × Mark) : Bool := decide (x.2 = .own)

/-- Marks the characters of a text whose offsets are in a span as its own. -/
def paint (start stop : ℕ) : ℕ → List Char → List (Char × Mark)
  | _, [] => []
  | u, c :: l => (c, if start ≤ u ∧ u < stop then .own else .outside) ::
      paint start stop (u + charLenUtf16 c) l

/-- Whether a text inserted between `p` and `q` in place of `d` is in the span. -/
def admits (p d q : List (Char × Mark)) : Bool :=
  if d.any marked then p.any marked || q.any marked else p.any marked && q.any marked

/-- The characters before an edit, those it deletes, and those behind it. -/
def splitEdit (t : List (Char × Mark)) (adj : ℤ) (e : Edit) :
    List (Char × Mark) × List (Char × Mark) × List (Char × Mark) :=
  let ef := (e.pos + adj).toNat
  let first := floorAt charLenUtf16 (t.map Prod.fst) ef
  let last := ceilAt charLenUtf16 (t.map Prod.fst) (ef + e.delete)
  (t.take first, (t.take last).drop first, t.drop last)

/-- Follows the characters through one edit. -/
def trackEdit (t : List (Char × Mark)) (adj : ℤ) (e : Edit) : List (Char × Mark) :=
  let (p, d, q) := splitEdit t adj e
  p ++ e.insert.map (fun c => (c, if admits p d q then .added else .outside)) ++ q

/-- Follows the characters through edits in order. -/
def track : List (Char × Mark) → ℤ → List Edit → List (Char × Mark)
  | t, _, [] => t
  | t, adj, e :: edits => track (trackEdit t adj e) (adj + lenUtf16 e.insert - e.delete) edits

/-- No edit deletes a character of the span, and no insertion is in it. -/
def Spared : List (Char × Mark) → ℤ → List Edit → Prop
  | _, _, [] => True
  | t, adj, e :: edits =>
    let (p, d, q) := splitEdit t adj e
    d.any marked = false ∧ (e.insert = [] ∨ admits p d q = false) ∧
      Spared (trackEdit t adj e) (adj + lenUtf16 e.insert - e.delete) edits

def markedLen (x : Char × Mark) : ℕ := charLenUtf16 x.1

lemma markedLen_pos (x : Char × Mark) : 0 < markedLen x := charLenUtf16_pos x.1

lemma lenUtf16_map_fst (t : List (Char × Mark)) :
    lenUtf16 (t.map Prod.fst) = width markedLen t := by
  simp only [lenUtf16, width, map_map]
  rfl

variable {t p d q : List (Char × Mark)} {f : Followed} {ef et i : ℕ} {e : Edit} {s : Following}
  {cur : List Char} {a : Anchor}

lemma boundary_map_fst {u : ℕ} (h : Boundary charLenUtf16 (t.map Prod.fst) u) :
    Boundary markedLen t u := by
  obtain ⟨p, q, heq, rfl⟩ := h
  obtain ⟨a, b, rfl, rfl, rfl⟩ := map_eq_append_iff.1 heq
  exact ⟨a, b, rfl, (lenUtf16_map_fst a).symm⟩

lemma map_fst_paint (start stop u : ℕ) (text : List Char) :
    (paint start stop u text).map Prod.fst = text := by
  induction text generalizing u with
  | nil => rfl
  | cons c l ih => rw [paint, map_cons, ih]

/-- The marked characters are those whose offsets are in a span. -/
def Spans (t : List (Char × Mark)) (start stop : ℕ) : Prop :=
  ∀ a x c, t = a ++ x :: c →
    (marked x = true ↔ start ≤ width markedLen a ∧ width markedLen a < stop)

lemma spans_paint (start stop : ℕ) (text : List Char) :
    Spans (paint start stop 0 text) start stop := by
  have hrun : ∀ (text : List Char) (u : ℕ) (a : List (Char × Mark)) (x c),
      paint start stop u text = a ++ x :: c → (marked x = true ↔
        start ≤ u + width markedLen a ∧ u + width markedLen a < stop) := by
    intro text
    induction text with
    | nil =>
      intro u a x c h
      cases a <;> cases h
    | cons b text ih =>
      intro u a x c h
      cases a with
      | nil =>
        rw [paint, nil_append] at h
        obtain ⟨rfl, -⟩ := cons.inj h
        rw [width_nil, Nat.add_zero]
        by_cases hin : start ≤ u ∧ u < stop
        · simp [marked, hin]
        · simp only [marked, hin, iff_false]
          decide
      | cons y a =>
        rw [paint, cons_append] at h
        obtain ⟨rfl, htail⟩ := cons.inj h
        rw [width_cons, ← Nat.add_assoc]
        exact ih (u + charLenUtf16 b) a x c htail
  intro a x c h
  have := hrun text 0 a x c h
  rwa [Nat.zero_add] at this

section

variable {t p d q : List (Char × Mark)} {start stop : ℕ}

/-- A part of a text has a marked character when the span reaches into it. -/
lemma Spans.any_iff (h : Spans t start stop) (hs : Boundary markedLen t start)
    (ht : t = p ++ d ++ q) :
    d.any marked = true ↔ start < width markedLen (p ++ d) ∧ width markedLen p < stop ∧
      width markedLen p < width markedLen (p ++ d) ∧ start < stop := by
  rw [any_eq_true]
  constructor
  · rintro ⟨x, hx, hm⟩
    obtain ⟨a, c, rfl⟩ := append_of_mem hx
    have hx := markedLen_pos x
    have hin := (h (p ++ a) x (c ++ q) (by rw [ht]; simp)).1 hm
    simp only [width_append, width_cons] at hin ⊢
    omega
  · rintro ⟨hlt, hstop, hne, hspan⟩
    rcases Nat.lt_or_ge (width markedLen p) start with hlate | hearly
    · obtain ⟨a, b, hab, ha⟩ := hs
      rw [← ha] at hlate hlt
      obtain ⟨r, rfl, hr⟩ := append_split markedLen_pos
        (((append_assoc p d q).symm.trans ht.symm).trans hab) hlate.le
      obtain ⟨r', rfl, hrest⟩ := append_split markedLen_pos hr.symm (by
        simp only [width_append] at hlt
        omega)
      cases r' with
      | nil => simp at hlt
      | cons x r' =>
        refine ⟨x, by simp, (h (p ++ r) x (r' ++ q) (by rw [ht]; simp)).2 ?_⟩
        omega
    · cases d with
      | nil => simp at hne
      | cons x d => exact ⟨x, by simp, (h p x (d ++ q) (by rw [ht]; simp)).2 ⟨hearly, hstop⟩⟩

/-- The marked characters are one stretch of the text. -/
lemma Spans.filter (h : Spans t start stop) (hs : Boundary markedLen t start)
    (ht : Boundary markedLen t stop) (hle : start ≤ stop) :
    ∃ a b c, t = a ++ b ++ c ∧ width markedLen a = start ∧ width markedLen (a ++ b) = stop ∧
      t.filter marked = b := by
  obtain ⟨a, r, har, rfl⟩ := hs
  obtain ⟨s, c, rfl, rfl⟩ := ht
  obtain ⟨b, rfl, rfl⟩ := append_split markedLen_pos har.symm hle
  refine ⟨a, b, c, rfl, rfl, rfl, ?_⟩
  have houter : ∀ l, (∃ u v, a ++ b ++ c = u ++ l ++ v ∧
      (width markedLen (u ++ l) ≤ width markedLen a ∨
        width markedLen (a ++ b) ≤ width markedLen u)) → l.filter marked = [] := by
    rintro l ⟨u, v, heq, hout⟩
    refine filter_eq_nil_iff.2 fun x hx hm => ?_
    obtain ⟨y, z, rfl⟩ := append_of_mem hx
    have hx := markedLen_pos x
    have hin := (h (u ++ y) x (z ++ v) (by rw [heq]; simp)).1 hm
    simp only [width_append, width_cons] at hin hout
    omega
  have hfirst := houter a ⟨[], b ++ c, by simp, .inl (by simp)⟩
  have hlast := houter c ⟨a ++ b, [], by simp, .inr le_rfl⟩
  have hmid : b.filter marked = b := by
    refine filter_eq_self.2 fun x hx => ?_
    obtain ⟨y, z, rfl⟩ := append_of_mem hx
    have hx := markedLen_pos x
    refine (h (a ++ y) x (z ++ c) (by simp)).2 ?_
    simp only [width_append, width_cons]
    omega
  rw [filter_append, filter_append, hfirst, hmid, hlast, nil_append, append_nil]

end

/-- Where a span goes when `[ef, et)` is deleted and `n` units are inserted there. -/
def carried (start stop ef et n : ℕ) : ℕ × ℕ :=
  let s := afterDelete start ef et
  let u := afterDelete stop ef et
  if start < et ∧ ef < stop then (s, u + n) else if ef ≤ s then (s + n, u + n) else (s, u)

/-- What an edit does to an anchor. -/
def followAnchor (fragments : List FragmentRange) (cur : List Char) (index ef et n : ℕ)
    (f : Followed) : Followed :=
  let g := if ef < et then (cutAnchor fragments cur index ef et f).1
    else { f with overlapped := false }
  if 0 < n then insertAnchor ef n g else g

lemma followAnchor_detached (fragments : List FragmentRange) (cur : List Char) (index ef et n : ℕ)
    (h : f.planned.anchor.attached = false) :
    (followAnchor fragments cur index ef et n f).planned.anchor.attached = false := by
  have hcut : (if ef < et then (cutAnchor fragments cur index ef et f).1
      else { f with overlapped := false }).planned.anchor.attached = false := by
    unfold cutAnchor
    dsimp only
    rw [if_pos h]
    split <;> exact h
  unfold followAnchor
  dsimp only
  split
  · unfold insertAnchor
    dsimp only
    rw [if_pos hcut]
    exact hcut
  · exact hcut

/-- A deletion detaches an anchor that it covers. -/
lemma followAnchor_covered (fragments : List FragmentRange) (cur : List Char) (index n : ℕ)
    (hlt : f.planned.anchor.start < f.planned.anchor.stop)
    (h : ef ≤ f.planned.anchor.start ∧ f.planned.anchor.stop ≤ et) :
    (followAnchor fragments cur index ef et n f).planned.anchor.attached = false := by
  have hcut : (cutAnchor fragments cur index ef et f).1.planned.anchor.attached = false := by
    unfold cutAnchor
    dsimp only
    by_cases hatt : f.planned.anchor.attached = false
    · rw [if_pos hatt]
      exact hatt
    · rw [if_neg hatt, if_pos h]
      rfl
  unfold followAnchor
  dsimp only
  rw [if_pos (show ef < et by omega)]
  split
  · unfold insertAnchor
    dsimp only
    rw [if_pos hcut]
    exact hcut
  · exact hcut

/-- An anchor that is not covered stays attached, and is carried along. -/
lemma followAnchor_attached (fragments : List FragmentRange) (cur : List Char) (index n : ℕ)
    (hle : ef ≤ et) (hlt : f.planned.anchor.start < f.planned.anchor.stop)
    (hatt : f.planned.anchor.attached = true)
    (h : ¬ (ef ≤ f.planned.anchor.start ∧ f.planned.anchor.stop ≤ et)) :
    let a := (followAnchor fragments cur index ef et n f).planned.anchor
    a.attached = true ∧
      (a.start, a.stop) = carried f.planned.anchor.start f.planned.anchor.stop ef et n := by
  have hne : ¬ f.planned.anchor.attached = false := by rw [hatt]; decide
  have hcut : ∃ g : Followed, (if ef < et then (cutAnchor fragments cur index ef et f).1
      else { f with overlapped := false }) = g ∧ g.planned.anchor.attached = true ∧
      g.planned.anchor.start = afterDelete f.planned.anchor.start ef et ∧
      g.planned.anchor.stop = afterDelete f.planned.anchor.stop ef et ∧
      (g.overlapped = true ↔ ef < et ∧ f.planned.anchor.start < et ∧
        ef < f.planned.anchor.stop) := by
    refine ⟨_, rfl, ?_⟩
    split
    next hdel =>
      unfold cutAnchor
      dsimp only
      rw [if_neg hne, if_neg h]
      exact ⟨hatt, rfl, rfl, by simp [hdel]⟩
    next hdel =>
      obtain rfl : et = ef := by omega
      refine ⟨hatt, ?_, ?_, by simp⟩
      all_goals
        dsimp only
        unfold afterDelete
        split_ifs <;> omega
  obtain ⟨g, hg, hgatt, hgs, hgt, hover⟩ := hcut
  unfold followAnchor
  dsimp only
  rw [hg]
  have hkeep := afterDelete_lt hle hlt h
  have hgne : ¬ g.planned.anchor.attached = false := by rw [hgatt]; decide
  have hcarried : ∀ s u : ℕ, s = g.planned.anchor.start →
      u = g.planned.anchor.stop → carried f.planned.anchor.start f.planned.anchor.stop ef et n =
        if f.planned.anchor.start < et ∧ ef < f.planned.anchor.stop then (s, u + n)
        else if ef ≤ s then (s + n, u + n) else (s, u) := by
    rintro s u rfl rfl
    rw [hgs, hgt]
    rfl
  rw [hcarried _ _ rfl rfl]
  rw [← hgs, ← hgt] at hkeep
  by_cases hn : 0 < n
  · rw [if_pos hn]
    unfold insertAnchor
    dsimp only
    rw [if_neg hgne]
    by_cases hov : g.overlapped = true
    · rw [if_pos hov, if_pos (hover.1 hov).2]
      exact ⟨hgatt, rfl⟩
    rw [if_neg hov]
    by_cases hin : f.planned.anchor.start < et ∧ ef < f.planned.anchor.stop
    · have hpoint : et = ef := by
        have := mt hover.2 hov
        omega
      have hstart : ¬ ef ≤ g.planned.anchor.start := by
        rw [hgs]
        unfold afterDelete
        split_ifs <;> omega
      have hstop : ef < g.planned.anchor.stop := by
        rw [hgt]
        unfold afterDelete
        split_ifs <;> omega
      rw [if_neg hstart, if_pos hstop, if_pos hin]
      exact ⟨hgatt, rfl⟩
    · rw [if_neg hin]
      by_cases hstart : ef ≤ g.planned.anchor.start
      · rw [if_pos hstart, if_pos hstart]
        exact ⟨hgatt, rfl⟩
      · have hstop : ¬ ef < g.planned.anchor.stop := by
          rw [hgs] at hstart
          rw [hgt]
          unfold afterDelete at hstart ⊢
          split_ifs at hstart ⊢ <;> omega
        rw [if_neg hstart, if_neg hstop, if_neg hstart]
        exact ⟨hgatt, rfl⟩
  · obtain rfl : n = 0 := by omega
    rw [if_neg hn]
    refine ⟨hgatt, ?_⟩
    split_ifs <;> rfl

/-- The text after an edit of marked text. -/
def spliceMarked (p d q : List (Char × Mark)) (ins : List Char) : List (Char × Mark) :=
  p ++ ins.map (fun c => (c, if admits p d q then .added else .outside)) ++ q

lemma cons_in_append {α : Type*} {p q a c : List α} {x : α} (h : p ++ q = a ++ x :: c) :
    (∃ r, p = a ++ x :: r ∧ c = r ++ q) ∨ ∃ r, a = p ++ r ∧ q = r ++ x :: c := by
  rcases append_eq_append_iff.1 h with ⟨r, rfl, rfl⟩ | ⟨r, rfl, hr⟩
  · exact .inr ⟨r, rfl, rfl⟩
  · cases r with
    | nil => exact .inr ⟨[], by simp, hr.symm⟩
    | cons y r =>
      obtain ⟨rfl, rfl⟩ := cons.inj hr
      exact .inl ⟨r, rfl, rfl⟩

lemma width_map_pair (ins : List Char) (f : Char → Mark) :
    width markedLen (ins.map fun c => (c, f c)) = lenUtf16 ins := by
  rw [← lenUtf16_map_fst, map_map]
  exact congrArg lenUtf16 (map_id ins)

section

variable {t p d q : List (Char × Mark)} {start stop : ℕ}

/-- When a deletion covers the span, nothing is in it any more. -/
lemma Spans.gone (h : Spans t start stop) (ins : List Char) (hs : Boundary markedLen t start)
    (ht : t = p ++ d ++ q) (hcovered : width markedLen p ≤ start ∧
      stop ≤ width markedLen p + width markedLen d) :
    (spliceMarked p d q ins).any marked = false := by
  have hp : p.any marked = false := Bool.eq_false_iff.2 fun hany => by
    have := (h.any_iff hs (p := []) (d := p) (q := d ++ q) (by rw [ht]; simp)).1 hany
    simp only [nil_append, width_nil] at this
    omega
  have hq : q.any marked = false := Bool.eq_false_iff.2 fun hany => by
    have := (h.any_iff hs (p := p ++ d) (d := q) (q := []) (by rw [ht]; simp)).1 hany
    simp only [width_append] at this
    omega
  have hadmits : admits p d q = false := by
    unfold admits
    rw [hp, hq]
    split <;> rfl
  unfold spliceMarked
  rw [any_append, any_append, hp, hq, hadmits]
  simp [marked]

/-- What the offsets say of an insertion that takes the place of a part. -/
lemma Spans.admits_iff (h : Spans t start stop) (hs : Boundary markedLen t start)
    (hlt : start < stop) (hin : stop ≤ width markedLen t) (ht : t = p ++ d ++ q) :
    admits p d q = true ↔
      if start < width markedLen p + width markedLen d ∧ width markedLen p < stop ∧
          0 < width markedLen d then
        start < width markedLen p ∨ width markedLen p + width markedLen d < stop
      else start < width markedLen p ∧ width markedLen p + width markedLen d < stop := by
  have hp := h.any_iff hs (p := []) (d := p) (q := d ++ q) (by rw [ht]; simp)
  have hd := h.any_iff hs ht
  have hq := h.any_iff hs (p := p ++ d) (d := q) (q := []) (by rw [ht]; simp)
  rw [ht] at hin
  simp only [nil_append, width_nil, width_append] at hp hd hq hin
  have hpany : p.any marked = true ↔ start < width markedLen p := hp.trans (by omega)
  have hqany : q.any marked = true ↔ width markedLen p + width markedLen d < stop :=
    hq.trans (by omega)
  have hdany : d.any marked = true ↔ start < width markedLen p + width markedLen d ∧
      width markedLen p < stop ∧ 0 < width markedLen d := hd.trans (by omega)
  unfold admits
  by_cases hcut : d.any marked = true
  · rw [if_pos hcut, if_pos (hdany.1 hcut), Bool.or_eq_true, hpany, hqany]
  · rw [if_neg hcut, if_neg (mt hdany.2 hcut), Bool.and_eq_true, hpany, hqany]

/-- When a deletion does not cover the span, the span is carried along. -/
lemma Spans.splice (h : Spans t start stop) (ins : List Char) (hs : Boundary markedLen t start)
    (hlt : start < stop) (hin : stop ≤ width markedLen t) (ht : t = p ++ d ++ q)
    (hcovered : ¬ (width markedLen p ≤ start ∧ stop ≤ width markedLen p + width markedLen d)) :
    let s := carried start stop (width markedLen p) (width markedLen p + width markedLen d)
      (lenUtf16 ins)
    Spans (spliceMarked p d q ins) s.1 s.2 := by
  intro s a x c heq
  have hx := markedLen_pos x
  unfold spliceMarked at heq
  rcases cons_in_append heq with ⟨r, hfront, rfl⟩ | ⟨r, rfl, rfl⟩
  · rcases cons_in_append hfront with ⟨r', rfl, rfl⟩ | ⟨r', rfl, hmid⟩
    · rw [h a x (r' ++ d ++ q) (by rw [ht]; simp)]
      simp only [s, carried, afterDelete, width_append, width_cons] at hcovered ⊢
      split_ifs <;> simp only <;> omega
    · have hxmark : marked x = true ↔ admits p d q = true := by
        obtain ⟨y, hy, rfl⟩ := mem_map.1 (hmid ▸ mem_append_right r' mem_cons_self)
        unfold marked
        cases admits p d q <;> simp
      have hwidth := congrArg (width markedLen) hmid
      rw [width_map_pair, width_append, width_cons] at hwidth
      rw [hxmark, h.admits_iff hs hlt hin ht]
      simp only [s, carried, afterDelete, width_append]
      split_ifs <;> simp only <;> omega
  · rw [h (p ++ d ++ r) x c (by rw [ht]; simp)]
    simp only [s, carried, afterDelete, width_append, width_map_pair] at hcovered ⊢
    split_ifs <;> simp only <;> omega

end

lemma splitEdit_eq {adj : ℤ} (ht : t = p ++ d ++ q) (hpos : e.pos + adj = width markedLen p)
    (hdelete : width markedLen d = e.delete) : splitEdit t adj e = (p, d, q) := by
  have hef : (e.pos + adj).toNat = lenUtf16 (p.map Prod.fst) := by
    rw [lenUtf16_map_fst]
    omega
  have hfirst : floorAt charLenUtf16 (t.map Prod.fst) (lenUtf16 (p.map Prod.fst)) = p.length := by
    rw [ht, append_assoc, map_append, lenUtf16, floorAt_width charLenUtf16_pos, length_map]
  have hlast : ceilAt charLenUtf16 (t.map Prod.fst)
      (lenUtf16 (p.map Prod.fst) + e.delete) = (p ++ d).length := by
    rw [← hdelete, ← lenUtf16_map_fst, lenUtf16, lenUtf16, ← width_append, ← map_append, ht,
      map_append, ceilAt_width charLenUtf16_pos, length_map]
  unfold splitEdit
  simp only [hef, hfirst, hlast]
  rw [ht, take_left, drop_left, drop_left, append_assoc, take_left]

/-- The planner's anchor is where the marks are. -/
structure Tracks (t : List (Char × Mark)) (cur : List Char) (a : Anchor) : Prop where
  text : t.map Prod.fst = cur
  spans : a.attached = true → Spans t a.start a.stop
  gone : a.attached = false → t.any marked = false

section

variable {t p d q : List (Char × Mark)} {cur : List Char} {f : Followed}

lemma Tracks.follow (h : Tracks t cur f.planned.anchor)
    (hin : f.planned.anchor.attached = true → InText cur f.planned.anchor) (ht : t = p ++ d ++ q)
    (fragments : List FragmentRange) (index : ℕ) (ins : List Char) :
    Tracks (spliceMarked p d q ins) (p.map Prod.fst ++ ins ++ q.map Prod.fst)
      (followAnchor fragments cur index (width markedLen p)
        (width markedLen p + width markedLen d) (lenUtf16 ins) f).planned.anchor := by
  have htext : (spliceMarked p d q ins).map Prod.fst =
      p.map Prod.fst ++ ins ++ q.map Prod.fst := by
    unfold spliceMarked
    rw [map_append, map_append, map_map]
    exact congrArg (p.map Prod.fst ++ · ++ q.map Prod.fst) (map_id ins)
  by_cases hatt : f.planned.anchor.attached = true
  · have hbound := boundary_map_fst (h.text.symm ▸ (hin hatt).start)
    have hlt := (hin hatt).lt
    have hstop := (boundary_map_fst (h.text.symm ▸ (hin hatt).stop)).le
    by_cases hcovered : width markedLen p ≤ f.planned.anchor.start ∧
        f.planned.anchor.stop ≤ width markedLen p + width markedLen d
    · have hoff := followAnchor_covered fragments cur index (lenUtf16 ins) hlt hcovered
      refine ⟨htext, fun hon => ?_, fun _ => (h.spans hatt).gone ins hbound ht hcovered⟩
      cases hoff.symm.trans hon
    · obtain ⟨hon, hpair⟩ := followAnchor_attached fragments cur index (lenUtf16 ins)
        (Nat.le_add_right _ _) hlt hatt hcovered
      have hspans := (h.spans hatt).splice ins hbound hlt hstop ht hcovered
      rw [← hpair] at hspans
      refine ⟨htext, fun _ => hspans, fun hoff => ?_⟩
      cases hoff.symm.trans hon
  · have hdet := eq_false_of_ne_true hatt
    have hoff := followAnchor_detached fragments cur index (width markedLen p)
      (width markedLen p + width markedLen d) (lenUtf16 ins) hdet
    have hnone := h.gone hdet
    rw [ht, any_append, any_append, Bool.or_eq_false_iff, Bool.or_eq_false_iff] at hnone
    refine ⟨htext, fun hon => ?_, fun _ => ?_⟩
    · cases hoff.symm.trans hon
    · unfold spliceMarked admits
      rw [hnone.1.1, hnone.1.2, hnone.2, any_append, any_append, hnone.1.1, hnone.2]
      simp [marked]

end

/-- What a step does to one anchor. -/
lemma Following.step_anchor {p d q : List Char} (h : Splits s e p d q)
    (hf : s.anchors[i]? = some f) (fragments : List FragmentRange) (index : ℕ) :
    (s.step fragments (e, index)).cur = p ++ e.insert ++ q ∧
      (s.step fragments (e, index)).adj = s.adj + lenUtf16 e.insert - e.delete ∧
      ∃ g, (s.step fragments (e, index)).anchors[i]? = some g ∧
        g.planned = (followAnchor fragments s.cur index (lenUtf16 p) (lenUtf16 p + lenUtf16 d)
          (lenUtf16 e.insert) f).planned := by
  have hnil : ∀ l : List Char, 0 < lenUtf16 l ↔ l ≠ [] := fun l =>
    ⟨fun h hl => by rw [hl] at h; exact absurd h (by decide), lenUtf16_pos⟩
  have hlt : lenUtf16 p < lenUtf16 p + lenUtf16 d ↔ d ≠ [] :=
    ⟨fun h => (hnil d).1 (by omega), fun h => by have := lenUtf16_pos h; omega⟩
  rw [Following.step_eq h]
  unfold followAnchor
  simp only [hlt, hnil]
  by_cases hnone : d = [] ∧ e.insert = []
  · rw [if_pos hnone]
    obtain ⟨rfl, hins⟩ := hnone
    have hdelete : e.delete = 0 := h.delete.symm
    refine ⟨by rw [hins, h.cur], by rw [hins, hdelete]; simp, f, hf, ?_⟩
    simp [hins]
  · rw [if_neg hnone]
    refine ⟨rfl, rfl, ?_⟩
    by_cases hd : d = [] <;> by_cases hins : e.insert = [] <;>
      simp [hd, hins, getElem?_map, hf]

/-- An edit that leaves the span alone leaves its characters. -/
lemma filter_spliceMarked {ins : List Char} (hd : d.any marked = false)
    (hins : ins = [] ∨ admits p d q = false) :
    (spliceMarked p d q ins).filter marked = (p ++ d ++ q).filter marked := by
  have hcut : d.filter marked = [] := by
    rw [any_eq_false] at hd
    exact filter_eq_nil_iff.2 hd
  have hnew : (ins.map fun c => (c, if admits p d q then Mark.added else .outside)).filter
      marked = [] := by
    rcases hins with rfl | hout
    · rfl
    · refine filter_eq_nil_iff.2 fun x hx => ?_
      obtain ⟨c, -, rfl⟩ := mem_map.1 hx
      simp [marked, hout]
  unfold spliceMarked
  rw [filter_append, filter_append, filter_append, filter_append, hcut, hnew]

/-- An edit only takes the span's own characters away. -/
lemma filter_isOwn (p d q : List (Char × Mark)) (ins : List Char) :
    ((spliceMarked p d q ins).filter isOwn).Sublist ((p ++ d ++ q).filter isOwn) := by
  have hnew : (ins.map fun c => (c, if admits p d q then Mark.added else .outside)).filter
      isOwn = [] := by
    refine filter_eq_nil_iff.2 fun x hx => ?_
    obtain ⟨c, -, rfl⟩ := mem_map.1 hx
    cases admits p d q <;> simp [isOwn]
  unfold spliceMarked
  rw [filter_append, filter_append, hnew, append_nil, filter_append, filter_append]
  exact (sublist_append_left _ _).append_right _

/-- Follows an anchor over edits. -/
lemma Tracks.foldl (fragments : List FragmentRange) (edits : List Edit) (index : ℕ)
    (hfine : Fine s) (hfits : Fits s.cur s.adj edits) (hf : s.anchors[i]? = some f)
    (h : Tracks t s.cur f.planned.anchor) :
    let r := (edits.zipIdx index).foldl (Following.step fragments) s
    let u := track t s.adj edits
    ∃ g, r.anchors[i]? = some g ∧ Tracks u r.cur g.planned.anchor ∧
      (u.filter isOwn).Sublist (t.filter isOwn) ∧
      (Spared t s.adj edits → u.filter marked = t.filter marked) := by
  induction edits generalizing index s f t with
  | nil => exact ⟨f, hf, h, .refl _, fun _ => rfl⟩
  | cons e edits ih =>
    obtain ⟨p', d', q', hcur, hpos, hdelete, hrest⟩ := hfits
    have hs : Splits s e p' d' q' := ⟨hcur, hpos, hdelete⟩
    obtain ⟨front, q, rfl, hfront, rfl⟩ := map_eq_append_iff.1 (h.text.trans hcur)
    obtain ⟨p, d, rfl, rfl, rfl⟩ := map_eq_append_iff.1 hfront
    rw [lenUtf16_map_fst] at hpos hdelete
    have hsplit : splitEdit (p ++ d ++ q) s.adj e = (p, d, q) := splitEdit_eq rfl hpos hdelete
    obtain ⟨hcur', hadj', g, hg, hplanned⟩ := Following.step_anchor hs hf fragments index
    have hnext := h.follow (hfine.anchors f (mem_of_getElem? hf)) rfl fragments index e.insert
    rw [lenUtf16_map_fst, lenUtf16_map_fst] at hplanned
    rw [← hplanned, ← hcur'] at hnext
    have htrack : trackEdit (p ++ d ++ q) s.adj e = spliceMarked p d q e.insert := by
      unfold trackEdit
      rw [hsplit]
      rfl
    obtain ⟨r, hr, htracks, hown, hun⟩ := ih (index + 1) (hfine.step hs fragments index)
      (Fits.step hs hrest fragments index) hg hnext
    rw [hadj'] at htracks hown hun
    dsimp only
    rw [track, htrack]
    refine ⟨r, hr, htracks, hown.trans (filter_isOwn p d q e.insert), fun huntouched => ?_⟩
    unfold Spared at huntouched
    rw [hsplit] at huntouched
    obtain ⟨hd, hins, hlater⟩ := huntouched
    rw [htrack] at hlater
    exact (hun hlater).trans (filter_spliceMarked hd hins)

/-- The text of an anchor is the marked characters. -/
lemma Tracks.covers (h : Tracks t cur a) (hatt : a.attached = true) (hin : InText cur a) :
    covers cur a = (t.filter marked).map Prod.fst := by
  obtain ⟨x, y, z, rfl, hx, hy, hfilter⟩ := (h.spans hatt).filter
    (boundary_map_fst (h.text.symm ▸ hin.start)) (boundary_map_fst (h.text.symm ▸ hin.stop))
    hin.lt.le
  rw [hfilter, ← h.text, Anchors.covers, map_append, map_append, ← hx, ← hy,
    width_append, ← lenUtf16_map_fst, ← lenUtf16_map_fst]
  exact widened_between charLenUtf16_pos _ _ _

lemma Tracks.any (h : Tracks t cur a) (hatt : a.attached = true) (hin : InText cur a) :
    t.any marked = true := by
  have hstop := (boundary_map_fst (h.text.symm ▸ hin.stop)).le
  have hlt := hin.lt
  refine ((h.spans hatt).any_iff (boundary_map_fst (h.text.symm ▸ hin.start)) (p := []) (q := [])
    (append_nil t).symm).2 ?_
  rw [nil_append, width_nil]
  omega

/-- Before the edits the characters of the span are its own. -/
lemma filter_isOwn_paint (start stop u : ℕ) (text : List Char) :
    (paint start stop u text).filter isOwn = (paint start stop u text).filter marked := by
  induction text generalizing u with
  | nil => rfl
  | cons c text ih =>
    rw [paint, filter_cons, filter_cons, ih]
    by_cases hin : start ≤ u ∧ u < stop <;> simp [isOwn, marked, hin]

/-- An anchor follows its characters: while one of them, or of the text admitted among them,
is left, it is attached to the span of what is left, and its text is the marked characters in
order. When no edit reaches into it, its text is what it was. -/
theorem planFile_tracks {file : OperationFile} (h : WellFormed file) (memory : MoveMemory)
    {i : ℕ} {a : Anchor} (ha : file.anchors[i]? = some a) (hatt : a.attached = true) :
    let w := (planFile file memory).1
    let t := track (paint a.start a.stop 0 file.before) 0 file.edits
    t.map Prod.fst = w.after ∧
      ((t.filter isOwn).map Prod.fst).Sublist (covers file.before a) ∧
      ∃ p, w.anchors[i]? = some p ∧ p.anchor.id = a.id ∧
        (p.anchor.attached = true ↔ t.any marked = true) ∧
        (p.anchor.attached = true → InText w.after p.anchor ∧
          covers w.after p.anchor = (t.filter marked).map Prod.fst) ∧
        (Spared (paint a.start a.stop 0 file.before) 0 file.edits →
          p.anchor.attached = true ∧ covers w.after p.anchor = covers file.before a) := by
  intro w t
  have hin := h.anchors a (mem_of_getElem? ha) hatt
  have hfirst : Tracks (paint a.start a.stop 0 file.before) file.before a :=
    ⟨map_fst_paint _ _ _ _, fun _ => spans_paint _ _ _, fun hoff => by cases hoff.symm.trans hatt⟩
  have hstart : (Following.start file memory).anchors[i]? =
      some ⟨⟨a, .kept, false, none⟩, false, false⟩ := by
    simp [Following.start, getElem?_map, ha]
  have hfine : Fine (.start file memory) := by
    refine ⟨fun f hf hon => ?_, fun _ hno => by cases hno⟩
    obtain ⟨b, hb, rfl⟩ := mem_map.1 hf
    exact h.anchors b hb hon
  obtain ⟨g, hg, htracks, hown, hun⟩ :=
    Tracks.foldl file.fragments file.edits 0 hfine h.edits hstart hfirst
  have hend : g.planned.anchor.attached = true → InText w.after g.planned.anchor :=
    (h.fine memory).anchors g (mem_of_getElem? hg)
  have hbefore : covers file.before a =
      ((paint a.start a.stop 0 file.before).filter marked).map Prod.fst := hfirst.covers hatt hin
  have hleft : g.planned.anchor.attached = true ↔ t.any marked = true :=
    ⟨fun hon => htracks.any hon (hend hon), fun hany => by
      by_contra hoff
      cases hany.symm.trans (htracks.gone (eq_false_of_ne_true hoff))⟩
  have hpiece : w.anchors[i]? = some g.settle := by
    have hmap : w.anchors = (followEdits file memory).anchors.map Followed.settle := rfl
    rw [hmap, getElem?_map]
    exact congrArg (Option.map Followed.settle) hg
  have hid : g.settle.anchor.id = a.id := by
    have horigins := congrArg (·[i]?) (followEdits_spec file memory).1
    simp only [getElem?_map] at horigins
    rw [show (followEdits file memory).anchors[i]? = some g from hg, ha] at horigins
    rw [g.settle_anchor]
    exact congrArg Prod.fst (Option.some.inj horigins)
  have htext : g.planned.anchor.attached = true →
      covers w.after g.planned.anchor = (t.filter marked).map Prod.fst :=
    fun hon => htracks.covers hon (hend hon)
  refine ⟨htracks.text, ?_, g.settle, hpiece, hid, ?_⟩
  · rw [hbefore, ← filter_isOwn_paint]
    exact hown.map Prod.fst
  · rw [g.settle_anchor]
    refine ⟨hleft, fun hon => ⟨hend hon, htext hon⟩, fun huntouched => ?_⟩
    have hsame : t.filter marked = (paint a.start a.stop 0 file.before).filter marked :=
      hun huntouched
    have hany : t.any marked = true := by
      obtain ⟨x, hx, hm⟩ := any_eq_true.1 (hfirst.any hatt hin)
      have hmem : x ∈ t.filter marked := hsame ▸ mem_filter.2 ⟨hx, hm⟩
      exact any_eq_true.2 ⟨x, (mem_filter.1 hmem).1, hm⟩
    refine ⟨hleft.2 hany, ?_⟩
    rw [htext (hleft.2 hany), hsame, hbefore]

/-- A file whose edits cut into an anchor and insert into it. -/
def cutFile : OperationFile where
  fileId := 0
  before := ['a', 'b', 'c', 'd', 'e', 'f']
  anchors := [⟨7, 0, 1, 5, false, none, none, none, false, false⟩]
  edits := [⟨0, 2, ['X']⟩, ⟨3, 0, ['Y']⟩, ⟨5, 0, ['Z']⟩]
  fragments := []

lemma cutFile_wellFormed : WellFormed cutFile := by
  refine ⟨⟨[], ['a', 'b'], ['c', 'd', 'e', 'f'], rfl, by decide, by decide, ['X', 'c'], [],
    ['d', 'e', 'f'], rfl, by decide, by decide, ['X', 'c', 'Y', 'd', 'e'], [], ['f'], rfl,
    by decide, by decide, trivial⟩, fun a ha _ => ?_⟩
  obtain rfl := mem_singleton.1 ha
  exact ⟨⟨['a'], ['b', 'c', 'd', 'e', 'f'], rfl, rfl⟩,
    ⟨['a', 'b', 'c', 'd', 'e'], ['f'], rfl, rfl⟩, by decide⟩

/-- The anchor of `bcde` loses `b` to `X`, takes `Y`, and leaves `Z` behind its end. -/
theorem planFile_tracks_cut :
    ∃ p, (planFile cutFile ⟨1, []⟩).1.anchors[0]? = some p ∧ p.anchor.attached = true ∧
      covers (planFile cutFile ⟨1, []⟩).1.after p.anchor = ['X', 'c', 'Y', 'd', 'e'] := by
  obtain ⟨-, -, p, hp, -, hleft, htext, -⟩ :=
    planFile_tracks cutFile_wellFormed ⟨1, []⟩ (i := 0) (a := ⟨7, 0, 1, 5, false, none, none,
      none, false, false⟩) rfl rfl
  have hon := hleft.2 (by decide)
  refine ⟨p, hp, hon, ?_⟩
  rw [(htext hon).2]
  decide

end LibrePaper.Anchors
