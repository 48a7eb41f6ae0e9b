import LibrePaper.Anchors.Conserve

/-!
# Following the edits

When every edit is within the text as it stands, on character boundaries, the attached
anchors stay on boundaries, and every insertion that is kept is in the text where it is said
to be.
-/
namespace LibrePaper.Anchors
open Library List

/-- Every edit, after those before it, is within the text on character boundaries. -/
def Fits : List Char → ℤ → List Edit → Prop
  | _, _, [] => True
  | cur, adj, e :: edits => ∃ p d q, cur = p ++ d ++ q ∧ e.pos + adj = lenUtf16 p ∧
      lenUtf16 d = e.delete ∧
      Fits (p ++ e.insert ++ q) (adj + lenUtf16 e.insert - e.delete) edits

/-- Edits in offsets of one text, on its character boundaries, ascending from an offset and
not overlapping. -/
def Ascending (before : List Char) : ℕ → List Edit → Prop
  | _, [] => True
  | u, e :: edits => u ≤ e.pos ∧ Boundary charLenUtf16 before e.pos ∧
      Boundary charLenUtf16 before (e.pos + e.delete) ∧ Ascending before (e.pos + e.delete) edits

variable {edits : List Edit} {s : Following} {e : Edit} {p d q : List Char}

lemma Ascending.fits {before : List Char} (h : Ascending before 0 edits) :
    Fits before 0 edits := by
  have hrun : ∀ (edits : List Edit) (front back rest : List Char) (adj : ℤ),
      before = back ++ rest → (lenUtf16 back : ℤ) + adj = lenUtf16 front →
      Ascending before (lenUtf16 back) edits → Fits (front ++ rest) adj edits := by
    intro edits
    induction edits with
    | nil => intros; trivial
    | cons e edits ih =>
      intro front back rest adj hbefore hadj hasc
      obtain ⟨hle, ⟨s, t, hst, hs⟩, ⟨u, v, huv, hu⟩, hasc⟩ := hasc
      obtain ⟨keep, rfl, hrest⟩ := append_split charLenUtf16_pos (hbefore.symm.trans hst)
        (hle.trans hs.ge)
      obtain ⟨d, rfl, ht⟩ := append_split charLenUtf16_pos (hst.symm.trans huv) (by omega)
      subst hrest ht
      simp only [lenUtf16, width_append] at hs hu hadj
      have hd : lenUtf16 d = e.delete := by
        rw [lenUtf16]
        omega
      refine ⟨front ++ keep, d, v, by simp, ?_, hd, ?_⟩
      · simp only [lenUtf16, width_append]
        omega
      · refine ih (front ++ keep ++ e.insert) (back ++ keep ++ d) v _ huv ?_ ?_
        · simp only [lenUtf16, width_append] at hd ⊢
          omega
        · have hwidth : lenUtf16 (back ++ keep ++ d) = e.pos + e.delete := by
            simp only [lenUtf16, width_append]
            omega
          rw [hwidth]
          exact hasc
  exact hrun edits [] [] before 0 rfl rfl h

/-- An anchor is on character boundaries, and covers something. -/
structure InText (text : List Char) (a : Anchor) : Prop where
  start : Boundary charLenUtf16 text a.start
  stop : Boundary charLenUtf16 text a.stop
  lt : a.start < a.stop

/-- An operation on a file as its callers give it. -/
structure WellFormed (file : OperationFile) : Prop where
  edits : Fits file.before 0 file.edits
  anchors : ∀ a ∈ file.anchors, a.attached = true → InText file.before a

/-- An insertion is in the text where it is said to be. -/
def Inserted (text : List Char) (i : ℕ × List Char) : Prop :=
  ∃ s t, text = s ++ i.2 ++ t ∧ lenUtf16 s = i.1

structure Fine (s : Following) : Prop where
  anchors : ∀ f ∈ s.anchors, f.planned.anchor.attached = true → InText s.cur f.planned.anchor
  inserts : ∀ i ∈ s.inserts, Inserted s.cur i

section Edit

variable {p d q ins : List Char}

variable {u : ℕ} {f g : Followed}

lemma boundary_afterDelete (h : Boundary charLenUtf16 (p ++ d ++ q) u) :
    Boundary charLenUtf16 (p ++ q) (afterDelete u (lenUtf16 p) (lenUtf16 p + lenUtf16 d)) := by
  unfold afterDelete
  split_ifs with hlt hge
  · rw [append_assoc] at h
    obtain ⟨s, t, rfl, rfl⟩ := h.of_le charLenUtf16_pos hlt.le
    exact ⟨s, t ++ q, by simp, rfl⟩
  · obtain ⟨v, rfl⟩ := Nat.exists_eq_add_of_le hge
    rw [← width_append] at h ⊢
    obtain ⟨s, t, rfl, rfl⟩ := h.of_ge charLenUtf16_pos
    refine ⟨p ++ s, t, by simp, ?_⟩
    simp only [lenUtf16, width_append]
    omega
  · exact .left p q

lemma afterDelete_lt {a b ef et : ℕ} (hle : ef ≤ et) (hlt : a < b) (hout : ¬ (ef ≤ a ∧ b ≤ et)) :
    afterDelete a ef et < afterDelete b ef et := by
  unfold afterDelete
  split_ifs <;> omega

lemma boundary_before (h : Boundary charLenUtf16 (p ++ q) u) (hu : u ≤ lenUtf16 p) :
    Boundary charLenUtf16 (p ++ ins ++ q) u := by
  obtain ⟨s, t, rfl, rfl⟩ := h.of_le charLenUtf16_pos hu
  exact ⟨s, t ++ ins ++ q, by simp, rfl⟩

lemma boundary_behind (h : Boundary charLenUtf16 (p ++ q) u) (hu : lenUtf16 p ≤ u) :
    Boundary charLenUtf16 (p ++ ins ++ q) (u + lenUtf16 ins) := by
  obtain ⟨v, rfl⟩ := Nat.exists_eq_add_of_le hu
  obtain ⟨s, t, rfl, rfl⟩ := h.of_ge charLenUtf16_pos
  refine ⟨p ++ ins ++ s, t, by simp, ?_⟩
  simp only [lenUtf16, width_append]
  omega

/-- A deletion leaves the attached anchors in the text, and an overlapped one around the
place of the deletion. -/
lemma cutAnchor_inText {fragments : List FragmentRange} {index : ℕ}
    (h : f.planned.anchor.attached = true → InText (p ++ d ++ q) f.planned.anchor)
    (hg : g = (cutAnchor fragments (p ++ d ++ q) index (lenUtf16 p)
      (lenUtf16 p + lenUtf16 d) f).1) (ha : g.planned.anchor.attached = true) :
    InText (p ++ q) g.planned.anchor ∧ (g.overlapped = true →
      g.planned.anchor.start ≤ lenUtf16 p ∧ lenUtf16 p ≤ g.planned.anchor.stop) := by
  unfold cutAnchor at hg
  dsimp only at hg
  by_cases hatt : f.planned.anchor.attached = false
  · rw [if_pos hatt] at hg
    subst hg
    exact absurd ha (by simp [hatt])
  rw [if_neg hatt] at hg
  by_cases hcovered :
      lenUtf16 p ≤ f.planned.anchor.start ∧ f.planned.anchor.stop ≤ lenUtf16 p + lenUtf16 d
  · rw [if_pos hcovered] at hg
    subst hg
    simp [Anchor.attached] at ha
  · rw [if_neg hcovered] at hg
    obtain ⟨hstart, hstop, hlt⟩ := h (eq_true_of_ne_false hatt)
    subst hg
    refine ⟨⟨boundary_afterDelete hstart, boundary_afterDelete hstop,
      afterDelete_lt (Nat.le_add_right _ _) hlt hcovered⟩, fun hover => ?_⟩
    obtain ⟨hs, ht⟩ := of_decide_eq_true hover
    dsimp only
    unfold afterDelete
    constructor <;> split_ifs <;> omega

/-- An insertion leaves the attached anchors in the text. -/
lemma insertAnchor_inText
    (h : f.planned.anchor.attached = true → InText (p ++ q) f.planned.anchor ∧
      (f.overlapped = true →
        f.planned.anchor.start ≤ lenUtf16 p ∧ lenUtf16 p ≤ f.planned.anchor.stop))
    (hg : g = insertAnchor (lenUtf16 p) (lenUtf16 ins) f) (ha : g.planned.anchor.attached = true) :
    InText (p ++ ins ++ q) g.planned.anchor := by
  unfold insertAnchor at hg
  dsimp only at hg
  split_ifs at hg with hatt hover hbefore hinside
  · subst hg
    exact absurd ha (by simp [hatt])
  · obtain ⟨⟨hstart, hstop, hlt⟩, haround⟩ := h (eq_true_of_ne_false hatt)
    obtain ⟨hs, ht⟩ := haround hover
    subst hg
    exact ⟨boundary_before hstart hs, boundary_behind hstop ht, Nat.lt_add_right _ hlt⟩
  · obtain ⟨⟨hstart, hstop, hlt⟩, -⟩ := h (eq_true_of_ne_false hatt)
    subst hg
    exact ⟨boundary_behind hstart hbefore, boundary_behind hstop (hbefore.trans hlt.le),
      Nat.add_lt_add_right hlt _⟩
  · obtain ⟨⟨hstart, hstop, hlt⟩, -⟩ := h (eq_true_of_ne_false hatt)
    subst hg
    exact ⟨boundary_before hstart (Nat.le_of_not_le hbefore), boundary_behind hstop hinside.le,
      Nat.lt_add_right _ hlt⟩
  · obtain ⟨⟨hstart, hstop, hlt⟩, -⟩ := h (eq_true_of_ne_false hatt)
    subst hg
    have hle := Nat.le_of_not_lt hinside
    exact ⟨boundary_before hstart (hlt.le.trans hle), boundary_before hstop hle, hlt⟩

/-- An insertion that is kept past an edit is in the text. -/
lemma followEdit_inserted {i j : ℕ × List Char} (h : Inserted (p ++ d ++ q) i)
    (hj : followEdit (lenUtf16 p) (lenUtf16 p + lenUtf16 d) (lenUtf16 ins) i = some j) :
    Inserted (p ++ ins ++ q) j := by
  obtain ⟨s, t, heq, hs⟩ := h
  unfold followEdit at hj
  split_ifs at hj with hbefore hbehind
  · cases hj
    rw [append_assoc s] at heq
    obtain ⟨r, rfl, rfl⟩ := append_split charLenUtf16_pos heq
      (by rw [width_append]; exact hbefore.trans hs.ge)
    refine ⟨p ++ ins ++ r, t, by simp, ?_⟩
    simp only [lenUtf16, width_append] at hs ⊢
    omega
  · cases hj
    rw [append_assoc p] at heq
    obtain ⟨r, rfl, rfl⟩ := append_split charLenUtf16_pos heq.symm
      (by rw [width_append]; exact (Nat.add_le_add_right hs.le _).trans hbehind)
    exact ⟨s, r ++ ins ++ q, by simp, hs⟩

end Edit

/-- The edit of a step, in the text as it stands. -/
structure Splits (s : Following) (e : Edit) (p d q : List Char) : Prop where
  cur : s.cur = p ++ d ++ q
  pos : e.pos + s.adj = lenUtf16 p
  delete : lenUtf16 d = e.delete

/-- What a step does, when its edit is on character boundaries. -/
lemma Following.step_eq (h : Splits s e p d q) (fragments : List FragmentRange) (index : ℕ) :
    s.step fragments (e, index) =
      if d = [] ∧ e.insert = [] then s
      else
        let cuts := s.anchors.map
          (cutAnchor fragments s.cur index (lenUtf16 p) (lenUtf16 p + lenUtf16 d))
        let anchors := if d = [] then s.anchors.map fun f => { f with overlapped := false }
          else cuts.map (·.1)
        { cur := p ++ e.insert ++ q
          adj := s.adj + lenUtf16 e.insert - e.delete
          anchors := if e.insert = [] then anchors
            else anchors.map (insertAnchor (lenUtf16 p) (lenUtf16 e.insert))
          inserts := s.inserts.filterMap
              (followEdit (lenUtf16 p) (lenUtf16 p + lenUtf16 d) (lenUtf16 e.insert)) ++
            if e.insert = [] then [] else [(lenUtf16 p, e.insert)]
          memory := if d = [] then s.memory
            else s.memory.remember d (cuts.filterMap (·.2)) } := by
  obtain ⟨hcur, hpos, hdelete⟩ := h
  have hef : (e.pos + s.adj).toNat = lenUtf16 p := by omega
  have hnil : ∀ l : List Char, lenUtf16 l = 0 ↔ l = [] := fun l =>
    ⟨width_eq_zero charLenUtf16_pos, fun h => h ▸ rfl⟩
  have hfirst : floorAt charLenUtf16 s.cur (lenUtf16 p) = p.length := by
    rw [hcur, append_assoc, floorAt_width charLenUtf16_pos]
  have hlast : ceilAt charLenUtf16 s.cur (lenUtf16 p + lenUtf16 d) = (p ++ d).length := by
    rw [hcur, ← width_append, ceilAt_width charLenUtf16_pos]
  have hdeleted : (s.cur.take (p ++ d).length).drop p.length = d := by
    rw [hcur, take_left, drop_left]
  have hnext : s.cur.take p.length ++ e.insert ++ s.cur.drop (p ++ d).length =
      p ++ e.insert ++ q := by
    rw [hcur, drop_left, append_assoc p d q, take_left]
  have hzero : lenUtf16 p = lenUtf16 p + lenUtf16 d ↔ d = [] := by
    rw [← hnil]
    omega
  have hpos' : lenUtf16 p < lenUtf16 p + lenUtf16 d ↔ d ≠ [] := by
    rw [Ne, ← hnil]
    omega
  have hins : 0 < lenUtf16 e.insert ↔ e.insert ≠ [] := by
    rw [Ne, ← hnil]
    omega
  have hsub : ((lenUtf16 p + lenUtf16 d - lenUtf16 p : ℕ) : ℤ) = e.delete := by omega
  unfold Following.step
  simp only [hef, ← hdelete] at hsub ⊢
  simp only [hzero, hpos', hins, hnil, hfirst, hlast, hdeleted, hnext, ite_not,
    Nat.add_sub_cancel_left]

lemma Fine.step (h : Fine s) (hs : Splits s e p d q) (fragments : List FragmentRange) (index : ℕ) :
    Fine (s.step fragments (e, index)) := by
  rw [Following.step_eq hs]
  by_cases hnone : d = [] ∧ e.insert = []
  · rw [if_pos hnone]
    exact h
  rw [if_neg hnone]
  obtain ⟨hanchors, hinserts⟩ := h
  rw [hs.cur] at hanchors hinserts
  refine ⟨?_, fun i hi => ?_⟩
  · have hcut : ∀ f ∈ (if d = [] then s.anchors.map fun f => { f with overlapped := false }
        else (s.anchors.map (cutAnchor fragments s.cur index (lenUtf16 p)
          (lenUtf16 p + lenUtf16 d))).map (·.1)),
        f.planned.anchor.attached = true → InText (p ++ q) f.planned.anchor ∧
          (f.overlapped = true →
            f.planned.anchor.start ≤ lenUtf16 p ∧ lenUtf16 p ≤ f.planned.anchor.stop) := by
      intro f hf ha
      split_ifs at hf with hd
      · obtain ⟨g, hg, rfl⟩ := mem_map.1 hf
        have hin := hanchors g hg ha
        rw [hd, append_nil] at hin
        exact ⟨hin, nofun⟩
      · obtain ⟨r, hr, rfl⟩ := mem_map.1 hf
        obtain ⟨g, hg, rfl⟩ := mem_map.1 hr
        exact cutAnchor_inText (hanchors g hg) (by rw [hs.cur]) ha
    intro f hf ha
    dsimp only at hf ⊢
    by_cases hins : e.insert = []
    · rw [if_pos hins] at hf
      rw [hins, append_nil]
      exact (hcut f hf ha).1
    · rw [if_neg hins] at hf
      obtain ⟨g, hg, rfl⟩ := mem_map.1 hf
      exact insertAnchor_inText (hcut g hg) rfl ha
  · rcases mem_append.1 hi with hi | hi
    · obtain ⟨j, hj, hfollow⟩ := mem_filterMap.1 hi
      exact followEdit_inserted (hinserts j hj) hfollow
    · split_ifs at hi
      · cases hi
      · obtain rfl := mem_singleton.1 hi
        exact ⟨p, q, rfl, rfl⟩

/-- The edits that are still to be followed. -/
lemma Fits.step (hs : Splits s e p d q)
    (h : Fits (p ++ e.insert ++ q) (s.adj + lenUtf16 e.insert - e.delete) edits)
    (fragments : List FragmentRange) (index : ℕ) :
    Fits (s.step fragments (e, index)).cur (s.step fragments (e, index)).adj edits := by
  rw [Following.step_eq hs]
  by_cases hnone : d = [] ∧ e.insert = []
  · rw [if_pos hnone]
    obtain ⟨rfl, hins⟩ := hnone
    have hadj : s.adj + lenUtf16 e.insert - e.delete = s.adj := by
      rw [hins, ← hs.delete]
      simp
    rw [hadj, hins] at h
    exact hs.cur ▸ h
  · rw [if_neg hnone]
    exact h

lemma Fine.foldl {fragments : List FragmentRange} (edits : List Edit) (index : ℕ) (h : Fine s)
    (hfits : Fits s.cur s.adj edits) :
    Fine ((edits.zipIdx index).foldl (Following.step fragments) s) := by
  induction edits generalizing index s with
  | nil => exact h
  | cons e edits ih =>
    obtain ⟨p, d, q, hcur, hpos, hdelete, hrest⟩ := hfits
    have hs : Splits s e p d q := ⟨hcur, hpos, hdelete⟩
    exact ih (index + 1) (h.step hs fragments index) (Fits.step hs hrest fragments index)

lemma WellFormed.fine {file : OperationFile} (h : WellFormed file) (memory : MoveMemory) :
    Fine (followEdits file memory) := by
  refine Fine.foldl file.edits 0 ⟨fun f hf ha => ?_, nofun⟩ h.edits
  obtain ⟨a, ha', rfl⟩ := mem_map.1 hf
  exact h.anchors a ha' ha

/-- What the first phase leaves of a file. -/
structure Work.Ok (w : Work) : Prop where
  anchors : ∀ p ∈ w.anchors, p.anchor.attached = true → InText w.after p.anchor
  inserts : ∀ i ∈ w.inserts, Inserted w.after i

lemma Followed.settle_anchor (f : Followed) : f.settle.anchor = f.planned.anchor := by
  unfold Followed.settle
  split_ifs <;> rfl

lemma planFiles_ok {files : List OperationFile} (h : ∀ f ∈ files, WellFormed f)
    (memory : MoveMemory) : ∀ w ∈ (planFiles files memory).1, w.Ok := by
  induction files generalizing memory with
  | nil => exact nofun
  | cons file files ih =>
    intro w hw
    rcases mem_cons.1 hw with rfl | hw
    · have hfine := (h file mem_cons_self).fine memory
      refine ⟨fun p hp ha => ?_, hfine.inserts⟩
      obtain ⟨f, hf, rfl⟩ := mem_map.1 hp
      rw [f.settle_anchor] at ha ⊢
      exact hfine.anchors f hf ha
    · exact ih (fun f hf => h f (mem_cons_of_mem file hf)) _ w hw

end LibrePaper.Anchors
