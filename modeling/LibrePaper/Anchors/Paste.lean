import LibrePaper.Anchors.Exact

/-!
# Cut and paste

A deletion that takes the whole of an anchor is remembered with its words, and an insertion
that holds the deleted text exactly once attaches the anchor to them again, unless a newer
text has claimed a part of the insertion that they overlap.
-/
namespace LibrePaper.Anchors
open Library List

/-- A remembered text holds one piece of an anchor, the whole of it, where the piece says. -/
structure Cut (e : Entry) (h : Held) : Prop where
  mem : h ∈ e.held
  side : h.side = none
  ne : h.text ≠ []
  only : ∀ g ∈ e.held, g.id = h.id → g = h
  within : ∃ s t, e.text = s ++ h.text ++ t ∧ lenUtf16 s = h.offset

variable {ef et i j start : ℕ} {f : Followed} {h : Held} {m memory : MoveMemory} {text : List Char}
  {held : List Held} {s : Following} {e : Edit} {work : List Work} {q : PlannedAnchor} {w : Work}
  {post : List Edit} {files : List OperationFile} {entry : Entry} {plan : Plan}

lemma cutAnchor_held {fragments : List FragmentRange} {cur : List Char} {index : ℕ}
    (hh : (cutAnchor fragments cur index ef et f).2 = some h) : h.id = f.planned.anchor.id := by
  unfold cutAnchor at hh
  dsimp only at hh
  split_ifs at hh <;> cases hh <;> rfl

/-- A deletion that covers an attached anchor detaches it and holds its text. -/
lemma cutAnchor_covered (fragments : List FragmentRange) (cur : List Char) (index : ℕ)
    (ha : f.planned.anchor.attached = true)
    (hcovered : ef ≤ f.planned.anchor.start ∧ f.planned.anchor.stop ≤ et) :
    let r := cutAnchor fragments cur index ef et f
    r.1.planned.anchor.attached = false ∧
      r.1.planned.anchor.length = some (f.planned.anchor.stop - f.planned.anchor.start) ∧
      r.2 = some ⟨f.planned.anchor.id, f.planned.anchor.start - ef,
        covers cur f.planned.anchor, none⟩ := by
  unfold cutAnchor
  dsimp only
  rw [if_neg (by simp [ha]), if_pos hcovered]
  exact ⟨by simp [Anchor.attached], rfl, rfl⟩

lemma MoveMemory.remember_last (hlimit : 0 < m.limit) (ht : text ≠ []) (hh : held ≠ []) :
    (m.remember text held).entries.getLast? = some ⟨text, held⟩ := by
  unfold remember
  rw [if_neg (not_or.2 ⟨ht, hh⟩)]
  dsimp only
  rw [getLast?_drop, if_neg, getLast?_append, getLast?_singleton, Option.some_or]
  rw [length_append, length_singleton]
  omega

/-- An anchor that an edit of a file deletes whole. -/
structure Deletes (s : Following) (e : Edit) (p d q : List Char) (f : Followed) : Prop extends
    Splits s e p d q where
  fine : Fine s
  deleted : d ≠ []
  limit : 0 < s.memory.limit
  ids : (s.anchors.map (·.planned.anchor.id)).Nodup
  mem : f ∈ s.anchors
  attached : f.planned.anchor.attached = true
  start : lenUtf16 p ≤ f.planned.anchor.start
  stop : f.planned.anchor.stop ≤ lenUtf16 p + lenUtf16 d

lemma Deletes.remembered {p d q : List Char} (h : Deletes s e p d q f)
    (fragments : List FragmentRange) (index : ℕ) :
    ∃ held g, (s.step fragments (e, index)).memory.entries.getLast? = some ⟨d, held⟩ ∧
      Cut ⟨d, held⟩ g ∧ g.id = f.planned.anchor.id ∧ g.text = covers s.cur f.planned.anchor := by
  set cuts := s.anchors.map
    (cutAnchor fragments s.cur index (lenUtf16 p) (lenUtf16 p + lenUtf16 d)) with hcuts
  obtain ⟨-, -, hheld⟩ := cutAnchor_covered fragments s.cur index h.attached ⟨h.start, h.stop⟩
  set g : Held := ⟨f.planned.anchor.id, f.planned.anchor.start - lenUtf16 p,
    covers s.cur f.planned.anchor, none⟩ with hg
  have hmem : g ∈ cuts.filterMap (·.2) := mem_filterMap.2 ⟨_, mem_map_of_mem h.mem, hheld⟩
  obtain ⟨⟨u, v, huv, hu⟩, ⟨u', v', huv', hu'⟩, hlt⟩ := h.fine.anchors f h.mem h.attached
  obtain ⟨words, rfl, hv⟩ := append_split charLenUtf16_pos (huv.symm.trans huv')
    (by rw [hu, hu']; exact hlt.le)
  have hwords : covers s.cur f.planned.anchor = words := by
    unfold covers
    rw [← hu, ← hu', huv', width_append]
    exact widened_between charLenUtf16_pos u words v'
  have hne : words ≠ [] := by
    rintro rfl
    rw [append_nil] at hu'
    omega
  have hcur := h.cur
  rw [append_assoc] at hcur
  obtain ⟨d₁, rfl, hd⟩ := append_split charLenUtf16_pos (hcur.symm.trans huv)
    (by rw [hu]; exact h.start)
  rw [hv, ← append_assoc] at hd
  obtain ⟨d₂, hd₂, -⟩ := append_split charLenUtf16_pos hd.symm (by
    have := h.stop
    rw [← hu'] at this
    simp only [lenUtf16, width_append] at this ⊢
    omega)
  refine ⟨cuts.filterMap (·.2), g, ?_, ⟨hmem, rfl, ?_, ?_, d₁, d₂, ?_, ?_⟩, rfl, rfl⟩
  · rw [Following.step_eq h.toSplits, if_neg fun hnone => h.deleted hnone.1]
    dsimp only
    rw [if_neg h.deleted]
    exact MoveMemory.remember_last h.limit h.deleted (ne_nil_of_mem hmem)
  · rw [hg]
    dsimp only
    rw [hwords]
    exact hne
  · intro g' hg' hid
    obtain ⟨r, hr, hrg⟩ := mem_filterMap.1 hg'
    obtain ⟨f', hf', rfl⟩ := mem_map.1 hr
    have hsame : f' = f := inj_on_of_nodup_map h.ids hf' h.mem ((cutAnchor_held hrg).symm.trans hid)
    subst hsame
    exact Option.some.inj (hrg.symm.trans hheld)
  · rw [hg]
    dsimp only
    rw [hwords]
    exact hd₂
  · rw [hg]
    dsimp only
    simp only [lenUtf16, width_append] at hu ⊢
    omega

lemma sits_unique (hids : (anchorIds work).Nodup) {p : PlannedAnchor} (hp : Sits work i p)
    (hq : Sits work j q) (hid : p.anchor.id = q.anchor.id) : i = j ∧ p = q := by
  obtain ⟨w, hw, hp⟩ := hp
  obtain ⟨v, hv, hq⟩ := hq
  obtain ⟨hnodup, hdisjoint⟩ := List.nodup_flatMap.1 hids
  have hij : i = j := by
    obtain ⟨hi, rfl⟩ := List.getElem?_eq_some_iff.1 hw
    obtain ⟨hj, rfl⟩ := List.getElem?_eq_some_iff.1 hv
    have hpq : p.anchor.id ∈ work[j].anchors.map (·.anchor.id) := hid ▸ List.mem_map_of_mem hq
    rcases lt_trichotomy i j with hlt | heq | hlt
    · exact absurd hpq (List.pairwise_iff_getElem.1 hdisjoint i j hi hj hlt
        (List.mem_map_of_mem hp))
    · exact heq
    · exact absurd (List.mem_map_of_mem hp)
        (List.pairwise_iff_getElem.1 hdisjoint j i hj hi hlt hpq)
  subst hij
  obtain rfl := Option.some.inj (hw.symm.trans hv)
  exact ⟨rfl, List.inj_on_of_nodup_map (hnodup w (List.mem_of_getElem? hw)) hp hq hid⟩

lemma position_isSome {α : Type*} {p : α → Bool} {l : List α} {a : α} (ha : a ∈ l)
    (hp : p a = true) : ∃ r, position p l = some r := by
  induction l with
  | nil => cases ha
  | cons b l ih =>
    unfold position
    split_ifs with hb
    · exact ⟨_, rfl⟩
    · rcases mem_cons.1 ha with rfl | ha
      · exact absurd hp hb
      · obtain ⟨r, hr⟩ := ih ha
        exact ⟨_, by rw [hr]; rfl⟩

lemma locate_sits (hids : (anchorIds work).Nodup) (hq : Sits work j q) :
    ∃ index o, locate work q.anchor.id = some (j, index, q) ∧ work[j]? = some o ∧
      o.anchors[index]? = some q := by
  obtain ⟨v, hv, hmem⟩ := hq
  obtain ⟨⟨i, o⟩, ho⟩ := position_isSome
    (p := fun w : Work => w.anchors.any fun a => a.anchor.id = q.anchor.id)
    (mem_of_getElem? hv) (any_eq_true.2 ⟨q, hmem, decide_eq_true rfl⟩)
  obtain ⟨a, ha, hid⟩ := any_eq_true.1 (position_spec ho).2
  obtain ⟨⟨index, source⟩, hs⟩ := position_isSome
    (p := fun a : PlannedAnchor => a.anchor.id = q.anchor.id) ha hid
  have hloc : locate work q.anchor.id = some (i, index, source) := by
    unfold locate
    rw [ho, Option.bind_some, hs]
    rfl
  obtain ⟨o', ho', hsource, hsid⟩ := locate_spec hloc
  obtain ⟨rfl, rfl⟩ := sits_unique hids ⟨o', ho', mem_of_getElem? hsource⟩ ⟨v, hv, hmem⟩ hsid
  exact ⟨index, o', hloc, ho', hsource⟩

variable {wi pos : ℕ} {shift : ℤ} {work t : List Work} {g : Held} {j : ℕ} {q : PlannedAnchor}

/-- A detached anchor stays where it is while pieces of others come back, and pieces that are
not the whole of it. -/
lemma bringBack_waits (hq : Sits work j q)
    (hdet : q.anchor.attached = false) (hg : g.id = q.anchor.id → g.side ≠ none)
    (hb : bringBack wi pos shift work g = some t) : Sits t j q := by
  obtain ⟨-, oi, index, source, w, start, hloc, hw, -, hcase⟩ := bringBack_spec hb
  obtain ⟨o, ho, hsource, hid⟩ := locate_spec hloc
  have hsits : Sits work oi source := ⟨o, ho, mem_of_getElem? hsource⟩
  have hne : source ≠ q := by
    rintro rfl
    rcases hcase with ⟨side, p, -, -, hp, -⟩ | ⟨hside, -⟩
    · cases (rejoinPiece_spec hp).2.1.symm.trans hdet
    · exact hg hid.symm hside
  obtain ⟨v, hv, hmem⟩ := hq
  obtain ⟨n, hn⟩ := mem_iff_getElem?.mp hmem
  have hindex : oi = j → index ≠ n := by
    rintro rfl rfl
    obtain rfl := Option.some.inj (ho.symm.trans hv)
    exact hne (Option.some.inj (hsource.symm.trans hn))
  have hmodify : ∀ (l : List Work) (i : ℕ) (f : Work → Work), Sits l j q →
      (∀ x, i = j → l[j]? = some x → q ∈ x.anchors → q ∈ (f x).anchors) →
      Sits (l.modify i f) j q := by
    rintro l i f ⟨x, hx, hmem⟩ hf
    by_cases hij : i = j
    · subst hij
      exact ⟨f x, by rw [getElem?_modify_eq, hx]; rfl, hf x rfl hx hmem⟩
    · exact ⟨x, by rw [getElem?_modify_ne _ _ hij]; exact hx, hmem⟩
  rcases hcase with ⟨side, p, -, rfl, -, rfl⟩ | ⟨-, -, -, -, rfl⟩
  · refine hmodify _ _ _ ⟨v, hv, hmem⟩ fun x hj hx _ => ?_
    obtain rfl := Option.some.inj (hv.symm.trans hx)
    refine mem_iff_getElem?.mpr ⟨n, ?_⟩
    dsimp only
    rw [getElem?_set_ne (hindex hj)]
    exact hn
  · refine hmodify _ _ _ (hmodify _ _ _ ⟨v, hv, hmem⟩ fun x hj hx _ => ?_)
      fun _ _ _ => mem_append_left _
    obtain rfl := Option.some.inj (hv.symm.trans hx)
    exact mem_eraseIdx_iff_getElem?.mpr ⟨n, (hindex hj).symm, hn⟩

/-- A detached anchor is pinned when its words are where they land. -/
lemma bringBack_pins (hids : (anchorIds work).Nodup) (hq : Sits work j q)
    (hdet : q.anchor.attached = false) (hlen : q.anchor.length ≠ none) (hid : g.id = q.anchor.id)
    (hside : g.side = none) (hne : g.text ≠ []) (hw : work[wi]? = some w)
    (hland : landing pos shift g = some start)
    (hslice : slice16Widened w.after start (start + lenUtf16 g.text) = g.text) :
    ∃ t movedFrom, bringBack wi pos shift work g = some t ∧
      Sits t wi (pin q w.fileId start (start + lenUtf16 g.text) movedFrom) := by
  obtain ⟨index, o, hloc, ho, hindex⟩ := locate_sits hids hq
  unfold bringBack
  rw [if_neg hne, hid, hloc, hw, hland]
  dsimp only
  rw [hside]
  dsimp only
  rw [if_neg (not_or.2 ⟨by simp [hdet], hlen⟩), if_neg (not_not.2 hslice)]
  refine ⟨_, if j = wi then q.movedFrom else (work[j]?).map (·.fileId), rfl, ?_⟩
  have hlt : wi < (work.modify j fun o => { o with anchors := o.anchors.eraseIdx index }).length := by
    rw [List.length_modify]
    exact (List.getElem?_eq_some_iff.1 hw).1
  refine ⟨_, by rw [List.getElem?_modify_eq, List.getElem?_eq_getElem hlt]; rfl, ?_⟩
  exact List.mem_append_right _ (List.mem_singleton.2 rfl)

/-- The anchor waits while the pieces of a text come back that are not the whole of it. -/
lemma bringNexts_waits {s : List Work × Bool} (hq : Sits s.1 j q)
    (hdet : q.anchor.attached = false) (hheld : ∀ g ∈ held, g.id = q.anchor.id → g.side ≠ none) :
    Sits (held.foldl (bringNext wi pos shift) s).1 j q := by
  induction held generalizing s with
  | nil => exact hq
  | cons g held ih =>
    refine ih ?_ fun g' hg' => hheld g' (mem_cons_of_mem g hg')
    unfold bringNext
    split
    · rename_i work hb
      exact bringBack_waits hq hdet (hheld g mem_cons_self) hb
    · exact hq

lemma bringNexts_applied {s : List Work × Bool} (hs : s.2 = true) :
    (held.foldl (bringNext wi pos shift) s).2 = true := by
  induction held generalizing s with
  | nil => exact hs
  | cons g held ih =>
    refine ih ?_
    unfold bringNext
    split
    · rfl
    · exact hs

lemma matchRounds_claimed (text : List Char) (fuel below : ℕ) (plan : Plan)
    (claimed : List (ℕ × ℕ × ℕ)) {c : ℕ × ℕ × ℕ} (hc : c ∈ claimed) :
    c ∈ (matchRounds wi pos text fuel below plan claimed).2 := by
  induction fuel generalizing below plan claimed with
  | zero => exact hc
  | succ fuel ih =>
    unfold matchRounds
    split
    · exact hc
    · split
      · exact hc
      · dsimp only
        split_ifs
        · exact ih _ _ _ (mem_append_left _ hc)
        · exact ih _ _ _ hc

lemma not_free {claimed : List (ℕ × ℕ × ℕ)} {stop : ℕ} (h : free claimed start stop = false) :
    ∃ c ∈ claimed, start < c.2.2 ∧ c.2.1 < stop := by
  unfold free at h
  rw [Bool.not_eq_false', any_eq_true] at h
  obtain ⟨c, hc, hover⟩ := h
  rw [Bool.and_eq_true, decide_eq_true_eq, decide_eq_true_eq] at hover
  exact ⟨c, hc, hover⟩

/-- An insertion of a file that holds a remembered text, and an anchor that waits for it. -/
structure Pasted (first : List Work) (wi pos : ℕ) (text : List Char) (e : Entry) (h : Held)
    (hit : ℕ) (w : Work) (q : PlannedAnchor) : Prop where
  cut : Cut e h
  found : found text e.text = some (hit, 0)
  work : first[wi]? = some w
  inserts : (pos, text) ∈ w.inserts
  ids : (anchorIds first).Nodup
  id : h.id = q.anchor.id
  detached : q.anchor.attached = false
  length : q.anchor.length ≠ none
  slice : slice16Widened w.after (pos + hit + h.offset)
    (pos + hit + h.offset + lenUtf16 h.text) = h.text

/-- The plan while the anchor waits: no newer text holds the whole of it. -/
structure Waits (first : List Work) (m : MoveMemory) (k : ℕ) (e : Entry) (h : Held) (j : ℕ)
    (q : PlannedAnchor) (plan : Plan) : Prop where
  kept : Kept first m plan
  entry : plan.memory.entries[k]? = some e
  sits : Sits plan.work j q
  newer : ∀ i > k, ∀ x, plan.memory.entries[i]? = some x → ∀ g ∈ x.held, g.id = h.id →
    g.side ≠ none

/-- The anchor is attached to its words at some point of a run that goes on to `plan`. -/
def Attached (first : List Work) (m : MoveMemory) (wi : ℕ) (w : Work) (h : Held) (plan : Plan) :
    Prop :=
  ∃ t p, Sits t wi p ∧ p.anchor.id = h.id ∧ p.anchor.attached = true ∧
    covers w.after p.anchor = h.text ∧ (∃ memory, Kept first m ⟨t, memory⟩) ∧ Kept t m plan

section Round

variable {first : List Work} {m : MoveMemory} {text : List Char} {e : Entry} {h : Held}
  {hit k : ℕ} {w : Work} {plan : Plan}

/-- The turn of the text: the anchor is attached to its words. -/
lemma Pasted.turn (hp : Pasted first wi pos text e h hit w q)
    (hw : Waits first m k e h j q plan) :
    (bringAll wi (pos + hit) 0 plan.work e.held).2 = true ∧
      Attached first m wi w h ⟨(bringAll wi (pos + hit) 0 plan.work e.held).1, plan.memory⟩ := by
  obtain ⟨l₁, l₂, hheld, hnot⟩ := eq_append_cons_of_mem hp.cut.mem
  have hentry := hw.kept.entries e (mem_of_getElem? hw.entry)
  have hlands : ∀ {first : List Work} {x : Work}, first[wi]? = some x → x.inserts = w.inserts →
      ∀ g ∈ e.held, ∀ y start, first[wi]? = some y → g.text ≠ [] →
        landing (pos + hit) 0 g = some start → Lands y m g start := by
    intro first x hx hins g hg y start hy hne hland
    obtain rfl := Option.some.inj (hx.symm.trans hy)
    exact ⟨pos, text, e, hit, 0, hins ▸ hp.inserts, hentry, hp.found, hg, hne, hland⟩
  set s₁ := l₁.foldl (bringNext wi (pos + hit) 0) (plan.work, false) with hs₁
  have hbefore : ∀ g ∈ l₁, g.id = q.anchor.id → g.side ≠ none := by
    intro g hg hid _
    have hsame := hp.cut.only g (hheld ▸ mem_append_left _ hg) (hid.trans hp.id.symm)
    exact hnot (hsame ▸ hg)
  have hsits : Sits s₁.1 j q := bringNexts_waits hw.sits hp.detached hbefore
  have hkept : Kept first m ⟨s₁.1, plan.memory⟩ :=
    Kept.bringNexts (s := (plan.work, false)) hw.kept fun g hg =>
      hlands hp.work rfl g (hheld ▸ mem_append_left _ hg)
  have hids : (anchorIds s₁.1).Nodup := hkept.ids.nodup_iff.2 hp.ids
  obtain ⟨x, hx, -, hafter, -⟩ := fixed_getElem? hkept.fixed.symm hp.work
  have hland : landing (pos + hit) 0 h = some (pos + hit + h.offset) := by
    unfold landing
    rw [add_zero, if_pos (Int.natCast_nonneg _), Int.toNat_natCast]
  obtain ⟨t, movedFrom, hback, hpin⟩ := bringBack_pins hids hsits hp.detached hp.length hp.id
    hp.cut.side hp.cut.ne hx hland (hafter ▸ hp.slice)
  have hmem : h ∈ e.held := hp.cut.mem
  have hkept' : Kept first m ⟨t, plan.memory⟩ := hkept.bringBack (hlands hp.work rfl h hmem) hback
  obtain ⟨y, hy, -, -, hins⟩ := fixed_getElem? hkept'.fixed.symm hp.work
  have hnext : bringNext wi (pos + hit) 0 s₁ h = (t, true) := by
    unfold bringNext
    rw [hback]
  have hall : bringAll wi (pos + hit) 0 plan.work e.held =
      l₂.foldl (bringNext wi (pos + hit) 0) (t, true) := by
    unfold bringAll
    rw [hheld, foldl_append, foldl_cons, ← hs₁, hnext]
  rw [hall]
  refine ⟨bringNexts_applied rfl, t, _, hpin, hp.id.symm, rfl, ?_, ⟨_, hkept'⟩, ?_⟩
  · exact hp.slice
  · refine Kept.bringNexts (s := (t, true))
      ⟨rfl, .refl _, fun _ _ => .stays, hkept'.entries⟩ fun g hg => ?_
    exact hlands hy hins g (hheld ▸ mem_append_right _ (mem_cons_of_mem h hg))

/-- An insertion comes to the text, or a newer one has claimed a part of its span. -/
lemma Pasted.rounds (hp : Pasted first wi pos text e h hit w q) (fuel below : ℕ)
    (claimed : List (ℕ × ℕ × ℕ)) (hw : Waits first m k e h j q plan) (hk : k < below)
    (hfuel : below ≤ fuel) (hclaimed : ∀ c ∈ claimed, k < c.1) :
    (∃ c ∈ (matchRounds wi pos text fuel below plan claimed).2,
        k < c.1 ∧ hit < c.2.2 ∧ c.2.1 < hit + lenUtf16 e.text) ∨
      Attached first m wi w h (matchRounds wi pos text fuel below plan claimed).1 := by
  induction fuel generalizing below plan claimed with
  | zero => omega
  | succ fuel ih =>
    have hover : free claimed hit (hit + lenUtf16 e.text) = false →
        ∃ c ∈ (matchRounds wi pos text (fuel + 1) below plan claimed).2,
          k < c.1 ∧ hit < c.2.2 ∧ c.2.1 < hit + lenUtf16 e.text := by
      intro hfree
      obtain ⟨c, hc, hspan⟩ := not_free hfree
      exact ⟨c, matchRounds_claimed text _ _ _ _ hc, hclaimed c hc, hspan⟩
    cases hfind : plan.memory.find text (free claimed) below with
    | none => exact .inl (hover (MoveMemory.find_none hfind hk hw.entry hp.found))
    | some r =>
      obtain ⟨i, hit', shift'⟩ := r
      obtain ⟨hi, x, hx, hfound, -, hskip⟩ := MoveMemory.find_spec hfind
      rcases lt_trichotomy i k with hik | rfl | hik
      · exact .inl (hover (hskip k e hik hk hw.entry hit 0 hp.found))
      · obtain rfl := Option.some.inj (hx.symm.trans hw.entry)
        obtain ⟨rfl, rfl⟩ := Prod.mk.inj (Option.some.inj (hfound.symm.trans hp.found))
        obtain ⟨happlied, t, p, hsits, hid, hatt, hcovers, hfirst, hkept⟩ := hp.turn hw
        refine .inr ⟨t, p, hsits, hid, hatt, hcovers, hfirst, ?_⟩
        obtain ⟨memory, hfirst⟩ := hfirst
        obtain ⟨y, hy, -, -, hins⟩ := fixed_getElem? hfirst.fixed.symm hp.work
        unfold matchRounds
        rw [hfind]
        dsimp only
        rw [hx]
        dsimp only
        rw [if_pos happlied]
        refine Kept.matchRounds hy (hins ▸ hp.inserts) fuel i _
          ⟨hkept.fixed, hkept.ids, hkept.carried, fun e he => ?_⟩
        exact hkept.entries e (mem_of_mem_eraseIdx he)
      · have hwait : Sits (bringAll wi (pos + hit') shift' plan.work x.held).1 j q := by
          refine bringNexts_waits hw.sits hp.detached fun g hg hid => ?_
          exact hw.newer i hik x hx g hg (hid.trans hp.id.symm)
        have hkept : Kept first m
            ⟨(bringAll wi (pos + hit') shift' plan.work x.held).1, plan.memory⟩ := by
          refine Kept.bringNexts hw.kept fun g hg y start hy hne hland => ?_
          obtain rfl := Option.some.inj (hp.work.symm.trans hy)
          exact ⟨pos, text, x, hit', shift', hp.inserts,
            hw.kept.entries x (mem_of_getElem? hx), hfound, hg, hne, hland⟩
        unfold matchRounds
        rw [hfind]
        dsimp only
        rw [hx]
        dsimp only
        split_ifs
        · refine ih i _ ⟨⟨hkept.fixed, hkept.ids, hkept.carried, fun e he => ?_⟩, ?_, hwait, ?_⟩
            hik (by omega) ?_
          · exact hkept.entries e (mem_of_mem_eraseIdx he)
          · exact (getElem?_eraseIdx_of_lt hik).trans hw.entry
          · intro n hn y hy
            have hmem : ∃ l > k, plan.memory.entries[l]? = some y := by
              unfold MoveMemory.drop at hy
              dsimp only at hy
              rw [getElem?_eraseIdx] at hy
              split_ifs at hy
              · exact ⟨n, hn, hy⟩
              · exact ⟨n + 1, Nat.lt_succ_of_lt hn, hy⟩
            obtain ⟨l, hl, hy⟩ := hmem
            exact hw.newer l hl y hy
          · intro c hc
            rcases mem_append.1 hc with hc | hc
            · exact hclaimed c hc
            · exact mem_singleton.1 hc ▸ hik
        · exact ih i claimed ⟨hkept, hw.entry, hwait, hw.newer⟩ hik (by omega) hclaimed

end Round

/-- A file after the first of its edits. -/
def followed (file : OperationFile) (memory : MoveMemory) (edits : List Edit) : Following :=
  edits.zipIdx.foldl (Following.step file.fragments) (.start file memory)

lemma followed_snoc (file : OperationFile) (memory : MoveMemory) (pre : List Edit) (e : Edit) :
    followed file memory (pre ++ [e]) =
      (followed file memory pre).step file.fragments (e, pre.length) := by
  unfold followed
  rw [zipIdx_append, foldl_append]
  simp

/-- An edit of an operation deletes the text of an anchor whole. -/
structure CutAt (file : OperationFile) (memory : MoveMemory) (pre : List Edit) (e : Edit)
    (post : List Edit) (f : Followed) : Prop where
  wellFormed : WellFormed file
  ids : (file.anchors.map (·.id)).Nodup
  limit : 0 < memory.limit
  edits : file.edits = pre ++ e :: post
  mem : f ∈ (followed file memory pre).anchors
  attached : f.planned.anchor.attached = true
  start : (e.pos + (followed file memory pre).adj).toNat ≤ f.planned.anchor.start
  stop : f.planned.anchor.stop ≤ (e.pos + (followed file memory pre).adj).toNat + e.delete

lemma Following.step_limit (fragments : List FragmentRange) (s : Following) (item : Edit × ℕ) :
    (s.step fragments item).memory.limit = s.memory.limit := by
  unfold Following.step MoveMemory.remember
  dsimp only
  split_ifs <;> rfl

/-- Following the first edits leaves the others to follow. -/
lemma Fits.after (fragments : List FragmentRange) (pre : List Edit) (index : ℕ) (h : Fine s)
    (hfits : Fits s.cur s.adj (pre ++ e :: post)) :
    let t := (pre.zipIdx index).foldl (Following.step fragments) s
    Fine t ∧ (∃ p d q, Splits t e p d q) ∧
      t.anchors.map (·.planned.anchor.id) = s.anchors.map (·.planned.anchor.id) ∧
      t.memory.limit = s.memory.limit := by
  induction pre generalizing index s with
  | nil =>
    obtain ⟨p, d, q, hcur, hpos, hdelete, -⟩ := hfits
    exact ⟨h, ⟨p, d, q, hcur, hpos, hdelete⟩, rfl, rfl⟩
  | cons e' pre ih =>
    obtain ⟨p, d, q, hcur, hpos, hdelete, hrest⟩ := hfits
    have hs : Splits s e' p d q := ⟨hcur, hpos, hdelete⟩
    obtain ⟨hfine, hsplits, hids, hlimit⟩ := ih (index + 1) (h.step hs fragments index)
      (Fits.step hs hrest fragments index)
    refine ⟨hfine, hsplits, hids.trans ?_, hlimit.trans (s.step_limit fragments (e', index))⟩
    have horigin := congrArg (map Prod.fst) (s.step_origin fragments (e', index))
    rw [map_map, map_map] at horigin
    exact horigin

lemma CutAt.deletes {file : OperationFile} {pre : List Edit} (h : CutAt file memory pre e post f) :
    ∃ p d q, Deletes (followed file memory pre) e p d q f := by
  have hstart : Fine (.start file memory) := by
    refine ⟨fun f hf ha => ?_, nofun⟩
    obtain ⟨a, ha', rfl⟩ := mem_map.1 hf
    exact h.wellFormed.anchors a ha' ha
  obtain ⟨hfine, ⟨p, d, q, hs⟩, hids, hlimit⟩ :=
    Fits.after file.fragments pre 0 hstart (h.edits ▸ h.wellFormed.edits)
  have hef : (e.pos + (followed file memory pre).adj).toNat = lenUtf16 p := by
    have hpos : (e.pos : ℤ) + (followed file memory pre).adj = lenUtf16 p := hs.pos
    omega
  have hlow := h.start
  have hhigh := h.stop
  have hd := hs.delete
  have hlt := (hfine.anchors f h.mem h.attached).lt
  rw [hef] at hlow hhigh
  refine ⟨p, d, q, ⟨hs, hfine, ?_, hlimit.symm ▸ h.limit, ?_, h.mem, h.attached, hlow, ?_⟩⟩
  · rintro rfl
    simp only [lenUtf16, width_nil] at hd
    omega
  · refine Eq.subst hids.symm (motive := Nodup) ?_
    simpa [Following.start, Function.comp_def] using h.ids
  · omega

/-- An operation comes to an insertion, with the plan as the insertions before it left it:
a remembered text is in it exactly once, at character `i`, and an anchor is detached that no
newer text holds the whole of. -/
structure PasteAt (files : List OperationFile) (memory : MoveMemory) (entry : Entry) (id : ℕ)
    (pre : List (ℕ × ℕ × List Char)) (task : ℕ × ℕ × List Char)
    (post : List (ℕ × ℕ × List Char)) (plan : Plan) (k i : ℕ) : Prop where
  wellFormed : ∀ f ∈ files, WellFormed f
  ids : ((files.flatMap (·.anchors)).map (·.id)).Nodup
  todo : tasks (planFiles files memory).1 = pre ++ task :: post
  reached : plan = matchInsertions ⟨(planFiles files memory).1, (planFiles files memory).2⟩ pre
  remembered : plan.memory.entries[k]? = some entry
  occurs : OccursAt task.2.2 entry.text i
  once : ∀ j, OccursAt task.2.2 entry.text j → j = i
  waits : ∃ j q, Sits plan.work j q ∧ q.anchor.id = id ∧ q.anchor.attached = false ∧
    q.anchor.length ≠ none
  newer : ∀ n > k, ∀ x, plan.memory.entries[n]? = some x → ∀ g ∈ x.held, g.id = id →
    g.side ≠ none

/-- A newer text has claimed a span of the insertion that overlaps the remembered text. -/
def ClaimedOver (plan : Plan) (task : ℕ × ℕ × List Char) (k i : ℕ) (text : List Char) : Prop :=
  ∃ c ∈ (matchInsertion plan task).2, k < c.1 ∧ lenUtf16 (task.2.2.take i) < c.2.2 ∧
    c.2.1 < lenUtf16 (task.2.2.take i) + lenUtf16 text

lemma found_once {needle : List Char} (hne : needle ≠ []) (hat : OccursAt text needle i)
    (hone : ∀ j, OccursAt text needle j → j = i) :
    found text needle = some (lenUtf16 (text.take i), 0) := by
  unfold found once
  rw [uniqueOccurrence_eq hne hat hone]
  rfl

lemma solid_first (h : ∀ f ∈ files, WellFormed f) (memory : MoveMemory) :
    ∀ w ∈ (planFiles files memory).1, ∀ p ∈ w.anchors,
      p.anchor.attached = true → Solid w.after p.anchor :=
  fun w hw p hp ha => ((planFiles_ok h memory w hw).anchors p hp ha).solid

/-- Where the words of a piece are in the text of the file, when the insertion holds the
remembered text. -/
lemma Cut.slice (hcut : Cut entry h) {after : List Char} (hins : Inserted after (pos, text))
    (hat : OccursAt text entry.text i) :
    slice16Widened after (pos + lenUtf16 (text.take i) + h.offset)
      (pos + lenUtf16 (text.take i) + h.offset + lenUtf16 h.text) = h.text := by
  obtain ⟨s, t, hst, hs⟩ := hcut.within
  obtain ⟨x, y, hxy, hx⟩ := hins
  obtain ⟨rest, hrest⟩ : entry.text <+: text.drop i := hat
  have htext : text = text.take i ++ (s ++ h.text ++ t) ++ rest := by
    rw [append_assoc, ← hst, hrest, take_append_drop]
  have hafter : after = (x ++ text.take i ++ s) ++ h.text ++ (t ++ rest ++ y) := by
    rw [hxy]
    conv_lhs => rw [htext]
    simp
  have hwidth : lenUtf16 (x ++ text.take i ++ s) = pos + lenUtf16 (text.take i) + h.offset := by
    simp only [lenUtf16, width_append] at hx hs ⊢
    omega
  rw [hafter, ← hwidth]
  exact widened_between charLenUtf16_pos _ _ _

/-- An anchor that was attached to its words covers them when the run ends, with pieces
rejoined. -/
lemma Attached.ends {first : List Work} (ha : Attached first m wi w h plan)
    (hw : first[wi]? = some w) (hids : (anchorIds first).Nodup)
    (hsolid : ∀ w ∈ first, ∀ p ∈ w.anchors, p.anchor.attached = true → Solid w.after p.anchor) :
    ∃ v p, plan.work[wi]? = some v ∧ p ∈ v.anchors ∧ p.anchor.id = h.id ∧
      p.anchor.attached = true ∧ Regained m h.id h.text (covers v.after p.anchor) := by
  obtain ⟨t, r, hr, hrid, hratt, hrcovers, ⟨_, hsome⟩, hrest⟩ := ha
  obtain ⟨w', hw', -, hafter', -⟩ := fixed_getElem? hsome.fixed.symm hw
  have htids : (anchorIds t).Nodup := hsome.ids.nodup_iff.2 hids
  have hmem : r.anchor.id ∈ anchorIds plan.work := by
    obtain ⟨v, hv, hrv⟩ := hr
    refine hrest.ids.mem_iff.2 (mem_flatMap.2 ⟨v, mem_of_getElem? hv, ?_⟩)
    exact mem_map_of_mem hrv
  obtain ⟨v, hv, hvid⟩ := mem_flatMap.1 hmem
  obtain ⟨p, hpv, hpid⟩ := mem_map.1 hvid
  obtain ⟨n, hn⟩ := mem_iff_getElem?.mp hv
  have hcarried := hrest.carried n p ⟨v, hn, hpv⟩
  have hpatt : p.anchor.attached = true := by
    by_contra hno
    have hsits := hcarried.detached (eq_false_of_ne_true hno)
    obtain ⟨-, rfl⟩ := sits_unique htids hsits hr hpid
    exact hno hratt
  obtain ⟨u, hu, -, huafter, -⟩ := fixed_getElem? hrest.fixed hn
  have htsolid : ∀ x ∈ t, ∀ p ∈ x.anchors, p.anchor.attached = true → Solid x.after p.anchor := by
    intro x hx p hp' ha
    obtain ⟨l, hl⟩ := mem_iff_getElem?.mp hx
    obtain ⟨y, hy, -, hyafter, -⟩ := fixed_getElem? hsome.fixed hl
    rw [← hyafter]
    exact ((hsome.carried l p ⟨x, hl, hp'⟩).text hsolid ha hy).1
  obtain ⟨-, j, r', hsource⟩ := hcarried.text htsolid hpatt hu
  obtain ⟨rfl, rfl⟩ := sits_unique htids hsource.sits hr (hsource.id.trans hpid)
  obtain ⟨rfl, -, -, hregained⟩ := hsource.attached hratt
  obtain rfl := Option.some.inj (hu.symm.trans hw')
  refine ⟨v, p, hn, hpv, hpid.trans hrid, hpatt, ?_⟩
  rw [hafter', hrcovers, ← hafter', huafter, hpid.trans hrid] at hregained
  exact hregained

/-- The words of an anchor come back with the text that was cut. -/
lemma PasteAt.returns {pre post : List (ℕ × ℕ × List Char)} {task : ℕ × ℕ × List Char} {k : ℕ}
    (hp : PasteAt files memory entry h.id pre task post plan k i) (hcut : Cut entry h) :
    ClaimedOver plan task k i entry.text ∨ ∃ w p,
      (planOperation files memory).1[task.1]? = some w ∧ p ∈ w.anchors ∧ p.anchor.id = h.id ∧
        p.anchor.attached = true ∧
          Regained (planFiles files memory).2 h.id h.text (covers w.after p.anchor) := by
  have hids : (anchorIds (planFiles files memory).1).Nodup := by
    rw [(planned_ids (planFiles_planned files memory)).2]
    exact hp.ids
  have htasks : ∀ t ∈ pre ++ task :: post,
      ∃ w, (planFiles files memory).1[t.1]? = some w ∧ t.2 ∈ w.inserts :=
    fun t ht => mem_tasks (hp.todo ▸ ht)
  have hkept : Kept (planFiles files memory).1 (planFiles files memory).2 plan := by
    rw [hp.reached]
    exact (Kept.start _ _).matchInsertions fun t ht => htasks t (List.mem_append_left _ ht)
  obtain ⟨wi, pos, text⟩ := task
  obtain ⟨w, hw, hins⟩ := htasks (wi, pos, text) (List.mem_append_right _ List.mem_cons_self)
  obtain ⟨j, q, hq, hid, hdet, hlen⟩ := hp.waits
  have hne : entry.text ≠ [] := by
    obtain ⟨s, t, hst, -⟩ := hcut.within
    intro hnil
    rw [hnil] at hst
    exact hcut.ne (List.append_eq_nil_iff.1 (List.append_eq_nil_iff.1 hst.symm).1).2
  have hslice := hcut.slice
    ((planFiles_ok hp.wellFormed memory w (List.mem_of_getElem? hw)).inserts _ hins) hp.occurs
  have hpasted : Pasted _ wi pos text entry h (lenUtf16 (text.take i)) w q :=
    ⟨hcut, found_once hne hp.occurs hp.once, hw, hins, hids, hid.symm, hdet, hlen, hslice⟩
  have hlt : k < plan.memory.entries.length := (List.getElem?_eq_some_iff.1 hp.remembered).1
  refine (hpasted.rounds _ _ [] ⟨hkept, hp.remembered, hq, hp.newer⟩ hlt le_rfl nofun).imp_right
    fun hattached => ?_
  have hlast : Attached (planFiles files memory).1 (planFiles files memory).2 wi w h
      (matchInsertions ⟨(planFiles files memory).1, (planFiles files memory).2⟩
        (tasks (planFiles files memory).1)) := by
    obtain ⟨t, r, hr, hrid, hratt, hrcovers, ⟨_, hsome⟩, hrest⟩ := hattached
    refine ⟨t, r, hr, hrid, hratt, hrcovers, ⟨_, hsome⟩, ?_⟩
    have hsplit : matchInsertions ⟨(planFiles files memory).1, (planFiles files memory).2⟩
        (pre ++ (wi, pos, text) :: post) =
          matchInsertions (matchInsertion plan (wi, pos, text)).1 post := by
      rw [hp.reached]
      unfold matchInsertions
      rw [List.foldl_append, List.foldl_cons]
    rw [hp.todo, hsplit]
    refine hrest.matchInsertions fun u hu => ?_
    obtain ⟨v, hv, hvins⟩ := htasks u (List.mem_append_right _ (List.mem_cons_of_mem _ hu))
    obtain ⟨v', hv', -, -, hins'⟩ := fixed_getElem? hsome.fixed.symm hv
    exact ⟨v', hv', hins' ▸ hvins⟩
  obtain ⟨v, p, hv, hpv, hpid, hpatt, hregained⟩ :=
    hlast.ends hw hids (solid_first hp.wellFormed memory)
  refine ⟨v.planned, p, ?_, hpv, hpid, hpatt, hregained⟩
  rw [planOperation_files, List.getElem?_map, hv]
  rfl

/-- What an operation makes of every anchor, from what following the edits left of it: one
that is still attached stays in its file and covers what it did, one that is attached again
covers words that were held of it, both with pieces rejoined, and one that is not attached is
left alone. -/
def EndsExact (files : List OperationFile) (memory : MoveMemory) : Prop :=
  ∀ (i : ℕ) (f : PlannedFile) (p : PlannedAnchor),
    (planOperation files memory).1[i]? = some f → p ∈ f.anchors →
      ∃ (j : ℕ) (v : Work) (q : PlannedAnchor), (planFiles files memory).1[j]? = some v ∧
        q ∈ v.anchors ∧ q.anchor.id = p.anchor.id ∧
        (p.anchor.attached = false → j = i ∧ p = q) ∧
        (q.anchor.attached = true → j = i ∧ p.anchor.attached = true ∧
          p.anchor.start ≤ q.anchor.start ∧ q.anchor.stop ≤ p.anchor.stop ∧
          Regained (planFiles files memory).2 p.anchor.id (covers f.after q.anchor)
            (covers f.after p.anchor)) ∧
        (q.anchor.attached = false → p.anchor.attached = true →
          ∃ words, HeldWhole (planFiles files memory).2 p.anchor.id words ∧
            Regained (planFiles files memory).2 p.anchor.id words (covers f.after p.anchor))

lemma endsExact (h : ∀ f ∈ files, WellFormed f) (memory : MoveMemory) :
    EndsExact files memory := by
  intro i f p hf hp
  have hkept := planOperation_kept files memory
  rw [planOperation_files, getElem?_map] at hf
  obtain ⟨w, hw, rfl⟩ := Option.map_eq_some_iff.1 hf
  have hcarried := hkept.carried i p ⟨w, hw, hp⟩
  obtain ⟨x, hx, -, hafter, -⟩ := fixed_getElem? hkept.fixed hw
  cases ha : p.anchor.attached with
  | false =>
    obtain ⟨v, hv, hpv⟩ := hcarried.detached ha
    refine ⟨i, v, p, hv, hpv, rfl, fun _ => ⟨rfl, rfl⟩, fun hq => ?_, nofun⟩
    cases hq.symm.trans ha
  | true =>
    obtain ⟨-, j, q, ⟨v, hv, hq⟩, hid, hstill, hagain⟩ := hcarried.text (solid_first h memory) ha hx
    rw [hafter] at hstill hagain
    refine ⟨j, v, q, hv, hq, hid, nofun, fun hqa => ?_, fun hqd _ => hagain hqd⟩
    obtain ⟨hj, hs, ht, hregained⟩ := hstill hqa
    exact ⟨hj, rfl, hs, ht, hregained⟩

/-- In every operation, with any memory, what is attached again covers words that were held
of it and what was attached stays, with pieces rejoined. A deletion that takes the whole of
an anchor is remembered with the words of the anchor; and when an operation comes to an
insertion that holds the deleted text exactly once, with the text still remembered and the
anchor still detached, the anchor ends on these words, with pieces rejoined, unless a newer
text has claimed a part of the insertion that the deleted text overlaps. -/
theorem repinned_exact :
    (∀ files memory, (∀ f ∈ files, WellFormed f) → EndsExact files memory) ∧
      ∀ file memory pre e post f, CutAt file memory pre e post f →
        ∃ entry h, (followed file memory (pre ++ [e])).memory.entries.getLast? = some entry ∧
          entry.text = slice16Widened (followed file memory pre).cur
            (e.pos + (followed file memory pre).adj).toNat
            ((e.pos + (followed file memory pre).adj).toNat + e.delete) ∧
          h ∈ entry.held ∧ h.id = f.planned.anchor.id ∧
          h.text = covers (followed file memory pre).cur f.planned.anchor ∧
          ∀ files later before task after plan k i,
            PasteAt files later entry h.id before task after plan k i →
              ClaimedOver plan task k i entry.text ∨ ∃ w p,
                (planOperation files later).1[task.1]? = some w ∧ p ∈ w.anchors ∧
                  p.anchor.id = h.id ∧ p.anchor.attached = true ∧
                    Regained (planFiles files later).2 h.id h.text (covers w.after p.anchor) := by
  refine ⟨fun files memory h => endsExact h memory, fun file memory pre e post f h => ?_⟩
  obtain ⟨p, d, q, hdel⟩ := h.deletes
  obtain ⟨held, g, hlast, hcut, hid, htext⟩ := hdel.remembered file.fragments pre.length
  refine ⟨⟨d, held⟩, g, ?_, ?_, hcut.mem, hid, htext,
    fun files later before task after plan k i hp => hp.returns hcut⟩
  · rw [followed_snoc]
    exact hlast
  · have hef : (e.pos + (followed file memory pre).adj).toNat = lenUtf16 p := by
      have hpos : (e.pos : ℤ) + (followed file memory pre).adj = lenUtf16 p := hdel.pos
      omega
    rw [hef, ← hdel.delete, hdel.cur]
    exact (widened_between charLenUtf16_pos p d q).symm

/-- An anchor attached to a span. -/
def spanned (id file start stop : ℕ) : Anchor where
  id := id
  file := file
  start := start
  stop := stop
  detached := false
  fragment := none
  offset := none
  length := none
  collapsed := false
  unresolved := false

/-- A passage is cut from the first file, then one letter of it from the second. -/
def cutTwo : List PlannedFile × MoveMemory :=
  planOperation
    [⟨1, ['x', ' ', 'a', 'b', 'c'], [spanned 1 1 2 5], [⟨2, 3, []⟩], []⟩,
      ⟨2, ['b'], [spanned 2 2 0 1], [⟨0, 1, []⟩], []⟩] ⟨32, []⟩

/-- The passage is pasted where it was. -/
def pasteBack : List PlannedFile × MoveMemory :=
  planOperation (cutTwo.1.map fun f =>
    ⟨f.fileId, f.after, f.anchors.map (·.anchor),
      if f.fileId = 1 then [⟨2, 0, ['a', 'b', 'c']⟩] else [], []⟩) cutTwo.2

/-- A passage is remembered and pasted exactly once, and its anchor stays detached: a newer
text has claimed a letter of it. -/
theorem paste_not_returned :
    cutTwo.2.entries[0]? = some ⟨['a', 'b', 'c'], [⟨1, 0, ['a', 'b', 'c'], none⟩]⟩ ∧
      uniqueOccurrence ['a', 'b', 'c'] ['a', 'b', 'c'] = .one 0 3 ∧
      pasteBack.1.map (·.after) = [['x', ' ', 'a', 'b', 'c'], []] ∧
      (pasteBack.1.flatMap (·.anchors)).map (fun p => (p.anchor.id, p.anchor.attached)) =
        [(1, false), (2, true)] := by
  refine ⟨?_, ?_, ?_, ?_⟩ <;> decide

/-- A passage and the comment on it. -/
def passage : OperationFile :=
  ⟨1, ['a', 'b', ' ', 'c'], [spanned 1 1 0 2], [⟨0, 2, []⟩], []⟩

/-- The passage is pasted behind the rest. -/
def pasted : List OperationFile :=
  [⟨1, [' ', 'c'], (planFile passage ⟨32, []⟩).1.anchors.map (·.anchor),
    [⟨2, 0, ['a', 'b']⟩], []⟩]

/-- The comment on a passage that is cut and pasted. -/
theorem repinned_exact_pasted :
    ∃ w p, (planOperation pasted (planFile passage ⟨32, []⟩).2).1[0]? = some w ∧
      p ∈ w.anchors ∧ p.anchor.id = 1 ∧ p.anchor.attached = true ∧
        Regained (planFiles pasted (planFile passage ⟨32, []⟩).2).2 1 ['a', 'b']
          (covers w.after p.anchor) := by
  have hpassage : WellFormed passage :=
    ⟨⟨[], ['a', 'b'], [' ', 'c'], rfl, rfl, rfl, trivial⟩, by
      intro a ha _
      obtain rfl := mem_singleton.1 ha
      exact ⟨⟨[], _, rfl, rfl⟩, ⟨['a', 'b'], _, rfl, rfl⟩, by decide⟩⟩
  have hpasted : ∀ f ∈ pasted, WellFormed f := by
    intro f hf
    obtain rfl := mem_singleton.1 hf
    refine ⟨⟨[' ', 'c'], [], [], rfl, rfl, rfl, trivial⟩, fun a ha hatt => ?_⟩
    have hdet : ∀ a ∈ (planFile passage ⟨32, []⟩).1.anchors.map (·.anchor),
        ¬ a.attached = true := by decide
    exact absurd hatt (hdet a ha)
  have hcut : CutAt passage ⟨32, []⟩ [] ⟨0, 2, []⟩ []
      ⟨⟨spanned 1 1 0 2, .kept, false, none⟩, false, false⟩ :=
    ⟨hpassage, by decide, by decide, rfl, by decide, rfl, by decide, by decide⟩
  obtain ⟨entry, h, hlast, -, hmem, hid, -, hreturns⟩ := repinned_exact.2 _ _ _ _ _ _ hcut
  have hentry : (followed passage ⟨32, []⟩ ([] ++ [⟨0, 2, []⟩])).memory.entries.getLast? =
      some ⟨['a', 'b'], [⟨1, 0, ['a', 'b'], none⟩]⟩ := by decide
  obtain rfl := Option.some.inj (hlast.symm.trans hentry)
  obtain rfl := mem_singleton.1 hmem
  have hpaste : PasteAt pasted (planFile passage ⟨32, []⟩).2
      ⟨['a', 'b'], [⟨1, 0, ['a', 'b'], none⟩]⟩ 1 [] (0, 2, ['a', 'b']) []
      ⟨(planFiles pasted (planFile passage ⟨32, []⟩).2).1,
        (planFiles pasted (planFile passage ⟨32, []⟩).2).2⟩ 0 0 := by
    refine ⟨hpasted, by decide, by decide, rfl, by decide, prefix_refl _, fun j hj => ?_, ?_, ?_⟩
    · have hone : uniqueOccurrence ['a', 'b'] ['a', 'b'] = .one 0 2 := by decide
      exact (uniqueOccurrence_one hone).2.2 j hj
    · exact ⟨0, _, ⟨_, rfl, mem_cons_self⟩, by decide, by decide, by decide⟩
    · intro n hn x hx
      cases n with
      | zero => exact absurd hn (lt_irrefl 0)
      | succ n => cases hx
  rcases hreturns _ _ _ _ _ _ _ _ hpaste with hclaimed | hback
  · obtain ⟨c, hc, hlt, -⟩ := hclaimed
    have hnone : ∀ c ∈ (matchInsertion
        ⟨(planFiles pasted (planFile passage ⟨32, []⟩).2).1,
          (planFiles pasted (planFile passage ⟨32, []⟩).2).2⟩ (0, 2, ['a', 'b'])).2, ¬ 0 < c.1 := by decide
    exact absurd hlt (hnone c hc)
  · exact hback

end LibrePaper.Anchors
