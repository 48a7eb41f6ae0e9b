import LibrePaper.Anchors.Units

/-!
# The two planners agree

As long as no edit and no attached anchor ends inside a surrogate pair, and every held piece
lies in its remembered text, the browser plans what the anchor planner plans.
-/
namespace LibrePaper.Anchors
open Library List
open Browser (Units utf16 slice)

def Held.inUnits (h : Held) : Browser.Held := ⟨h.id, h.offset, utf16 h.text, h.side⟩

def Entry.inUnits (e : Entry) : Browser.Entry := ⟨utf16 e.text, e.held.map Held.inUnits⟩

def MoveMemory.inUnits (m : MoveMemory) : Browser.MoveMemory :=
  ⟨m.limit, m.entries.map Entry.inUnits⟩

def Edit.inUnits (e : Edit) : Browser.Edit := ⟨e.pos, e.pos + e.delete, utf16 e.insert⟩

def OperationFile.inUnits (f : OperationFile) : Browser.OperationFile :=
  ⟨f.fileId, utf16 f.before, f.anchors, f.edits.map Edit.inUnits, f.fragments⟩

def PlannedFile.inUnits (f : PlannedFile) : Browser.PlannedFile :=
  ⟨f.fileId, utf16 f.after, f.anchors⟩

def insertInUnits (i : ℕ × List Char) : ℕ × Units := (i.1, utf16 i.2)

def Following.inUnits (s : Following) : Browser.Following :=
  ⟨utf16 s.cur, s.adj, s.anchors, s.inserts.map insertInUnits, s.memory.inUnits⟩

def Work.inUnits (w : Work) : Browser.Work :=
  ⟨w.fileId, w.anchors, utf16 w.after, w.inserts.map insertInUnits⟩

def Plan.inUnits (p : Plan) : Browser.Plan := ⟨p.work.map Work.inUnits, p.memory.inUnits⟩

lemma remember_inUnits (m : MoveMemory) (text : List Char) (held : List Held) :
    m.inUnits.remember (utf16 text) (held.map Held.inUnits) = (m.remember text held).inUnits := by
  unfold Browser.MoveMemory.remember MoveMemory.remember
  simp only [utf16_eq_nil, map_eq_nil_iff]
  split_ifs
  · rfl
  · have hentry : (⟨utf16 text, held.map Held.inUnits⟩ : Browser.Entry) =
        Entry.inUnits ⟨text, held⟩ := rfl
    unfold MoveMemory.inUnits
    simp only [hentry, ← map_singleton, ← map_append, length_map, map_drop]

lemma find_inUnits (m : MoveMemory) (inserted : List Char) (free : ℕ → ℕ → Bool) (below : ℕ) :
    m.inUnits.find (utf16 inserted) free below = m.find inserted free below := by
  induction below with
  | zero => rfl
  | succ i ih =>
    unfold Browser.MoveMemory.find MoveMemory.find
    have hentry : m.inUnits.entries[i]? = (m.entries[i]?).map Entry.inUnits := getElem?_map
    rw [hentry]
    cases m.entries[i]? with
    | none => exact ih
    | some e =>
      have hfound : (Browser.once (utf16 inserted) e.inUnits.text 0).or
          (Browser.movedNewline (utf16 inserted) e.inUnits.text) = found inserted e.text :=
        found_utf16 inserted e.text
      have hlength : e.inUnits.text.length = lenUtf16 e.text := length_utf16 e.text
      rw [Option.map_some]
      dsimp only
      rw [hfound, hlength]
      cases found inserted e.text with
      | none => exact ih
      | some r =>
        dsimp only
        rw [ih]

lemma drop_inUnits (m : MoveMemory) (index : ℕ) :
    m.inUnits.drop index = (m.drop index).inUnits := by
  unfold Browser.MoveMemory.drop MoveMemory.drop MoveMemory.inUnits
  dsimp only
  rw [eraseIdx_map]

/-- A held piece lies in its remembered text where it says. -/
def Held.Within (text : List Char) (h : Held) : Prop :=
  h.text ≠ [] → ∃ s t, text = s ++ h.text ++ t ∧ lenUtf16 s = h.offset

def MoveMemory.Sound (m : MoveMemory) : Prop :=
  ∀ e ∈ m.entries, ∀ h ∈ e.held, h.Within e.text

/-- A text lands at a boundary, or begins with a newline. -/
def Readable (after text : List Char) (start : ℕ) : Prop :=
  Boundary charLenUtf16 after start ∨ text.head? = some '\n'

variable {after text p d q : List Char} {h : Held} {pos start wi : ℕ} {shift : ℤ} {work : List Work}
  {held : List Held} {m memory : MoveMemory} {s : Following} {e : Edit} {files : List OperationFile}

/-- A piece of a text that an insertion holds lands where it can be read. -/
lemma landing_readable {inserted : List Char} {hit : ℕ} (hins : Inserted after (pos, inserted))
    (hfound : found inserted text = some (hit, shift)) (hwithin : h.Within text) (hne : h.text ≠ [])
    (hland : landing (pos + hit) shift h = some start) : Readable after h.text start := by
  obtain ⟨x, y, rfl, hx⟩ := hins
  obtain ⟨s, t, rfl, hs⟩ := hwithin hne
  dsimp only at hx
  unfold landing at hland
  split_ifs at hland with hpos
  cases hland
  unfold found at hfound
  rcases Option.or_eq_some_iff.1 hfound with hone | ⟨-, hmoved⟩
  · obtain ⟨-, p, q, rfl, ⟨r, rfl⟩, -, heq⟩ := once_eq_some.1 hone
    cases heq
    refine .inl ⟨x ++ p ++ s, h.text ++ t ++ r ++ y, by simp, ?_⟩
    simp only [lenUtf16, width_append] at hs hx ⊢
    omega
  · unfold movedNewline at hmoved
    split_ifs at hmoved with hshort hlast hhead
    · obtain ⟨-, p, q, rfl, ⟨r, rfl⟩, -, heq⟩ := once_eq_some.1 hmoved
      cases heq
      have hbody : ∃ u, (s ++ h.text ++ t).dropLast = s ++ u := by
        rw [append_assoc, dropLast_append_of_ne_nil (by simp [hne])]
        exact ⟨_, rfl⟩
      obtain ⟨u, hu⟩ := hbody
      rw [hu]
      have hone : charLenUtf16 '\n' = 1 := by decide
      refine .inl ⟨x ++ p ++ '\n' :: s, u ++ r ++ y, by simp, ?_⟩
      simp only [lenUtf16, width_append, width_cons, hone] at hs hx ⊢
      omega
    · obtain ⟨-, p, q, rfl, ⟨r, rfl⟩, -, heq⟩ := once_eq_some.1 hmoved
      cases heq
      cases s with
      | nil =>
        right
        obtain ⟨c, rest, htext⟩ := exists_cons_of_ne_nil hne
        rw [htext] at hhead ⊢
        exact hhead
      | cons c s =>
        obtain rfl : c = '\n' := Option.some.inj hhead
        have hone : charLenUtf16 '\n' = 1 := by decide
        refine .inl ⟨x ++ p ++ s, h.text ++ t ++ ['\n'] ++ r ++ y, by simp, ?_⟩
        simp only [lenUtf16, width_append, width_cons, hone] at hs hx hpos ⊢
        omega

lemma position_map {α β : Type*} (f : α → β) (p : β → Bool) (l : List α) :
    position p (l.map f) = (position (fun a => p (f a)) l).map fun r => (r.1, f r.2) := by
  induction l with
  | nil => rfl
  | cons a l ih =>
    rw [map_cons]
    unfold position
    split_ifs
    · rfl
    · rw [ih, Option.map_map, Option.map_map]
      rfl

lemma owner_inUnits (work : List Work) (id : ℕ) :
    Browser.owner (work.map Work.inUnits) id = locate work id := by
  unfold Browser.owner locate
  rw [position_map, Option.bind_map]
  rfl

lemma modify_inUnits (work : List Work) (i : ℕ) (f : Work → Work)
    (g : Browser.Work → Browser.Work) (h : ∀ w, g w.inUnits = (f w).inUnits) :
    (work.map Work.inUnits).modify i g = (work.modify i f).map Work.inUnits := by
  induction work generalizing i with
  | nil => simp
  | cons w work ih =>
    cases i with
    | zero => simp [h]
    | succ i => simp [ih]

/-- When a cut piece goes back, and what becomes of its anchor. -/
lemma rejoinPiece_eq (after : List Char) (planned : PlannedAnchor) (side : Side) (start : ℕ)
    (text : List Char) : rejoinPiece after planned side start text =
      if planned.anchor.attached = true ∧
          Browser.edge side start (start + lenUtf16 text) planned.anchor = true ∧
          slice16Widened after start (start + lenUtf16 text) = text then
        some (Browser.rejoined planned side start (start + lenUtf16 text))
      else none := by
  unfold rejoinPiece Browser.edge Browser.rejoined
  by_cases hslice : slice16Widened after start (start + lenUtf16 text) = text
  · by_cases ha : planned.anchor.attached = true
    · cases side with
      | head => simp [hslice, ha]
      | tail => simp [hslice, ha]
    · rw [if_neg (not_not.2 hslice), if_pos (Bool.eq_false_iff.2 ha), if_neg fun h => ha h.1]
  · rw [if_pos hslice, if_neg fun h => hslice h.2.2]

/-- A piece goes back in the browser exactly when it does in the anchor planner, and leaves
the same files. -/
lemma bringBack_inUnits
    (hread : ∀ w start, work[wi]? = some w → h.text ≠ [] → landing pos shift h = some start →
      Readable w.after h.text start) :
    Browser.bringBack wi pos shift (work.map Work.inUnits) h.inUnits =
      (bringBack wi pos shift work h).map (map Work.inUnits) := by
  unfold Browser.bringBack bringBack
  have htext : h.inUnits.text = [] ↔ h.text = [] := utf16_eq_nil
  by_cases hne : h.text = []
  · rw [if_pos hne, if_pos (htext.2 hne)]
    rfl
  rw [if_neg hne, if_neg (fun hu => hne (htext.1 hu))]
  have howner : Browser.owner (work.map Work.inUnits) h.inUnits.id = locate work h.id :=
    owner_inUnits work h.id
  rw [howner, getElem?_map]
  cases hloc : locate work h.id with
  | none => rfl
  | some owned =>
    cases hw : work[wi]? with
    | none => rfl
    | some w =>
      have hland : (pos : ℤ) + shift + h.inUnits.offset = (pos + h.offset : ℕ) + shift := by
        have hoffset : h.inUnits.offset = h.offset := rfl
        rw [hoffset]
        push_cast
        omega
      rw [Option.map_some]
      dsimp only
      rw [hland]
      by_cases hpos : 0 ≤ (pos + h.offset : ℕ) + shift
      · have hsome : landing pos shift h = some ((pos + h.offset : ℕ) + shift).toNat := if_pos hpos
        rw [hsome, if_neg (by omega)]
        have hreads := hread w _ hw hne hsome
        generalize ((pos + h.offset : ℕ) + shift).toNat = start at hreads
        obtain ⟨oi, index, source⟩ := owned
        have hagree := slices_agree hne hreads
        have hlength : h.inUnits.text.length = lenUtf16 h.text := length_utf16 h.text
        have hattached : Browser.attached source.anchor = source.anchor.attached := rfl
        have hside : h.inUnits.side = h.side := rfl
        have hwork : (work.map Work.inUnits)[oi]?.map (·.fileId) = work[oi]?.map (·.fileId) := by
          rw [getElem?_map, Option.map_map]
          rfl
        have hafter : w.inUnits.after = utf16 w.after := rfl
        have hunits : h.inUnits.text = utf16 h.text := rfl
        unfold Browser.bringTo
        dsimp only
        rw [hlength, hattached, hside, hafter, hunits, hwork]
        simp only [ne_eq, hagree]
        cases h.side with
        | some side =>
          dsimp only
          rw [rejoinPiece_eq]
          by_cases hok : source.anchor.attached = true ∧ oi = wi ∧
              Browser.edge side start (start + lenUtf16 h.text) source.anchor = true ∧
              slice16Widened w.after start (start + lenUtf16 h.text) = h.text
          · obtain ⟨ha, rfl, hedge, hslice⟩ := hok
            rw [if_neg (by simp [ha, hedge, hslice]), if_pos rfl, if_pos ⟨ha, hedge, hslice⟩]
            rw [Option.map_some, Option.map_some]
            congr 1
            exact modify_inUnits _ _ _ _ fun _ => rfl
          · rw [if_pos]
            · by_cases hi : oi = wi
              · rw [if_pos hi, if_neg fun hall => hok ⟨hall.1, hi, hall.2⟩]
                rfl
              · rw [if_neg hi]
                rfl
            · by_contra hall
              simp only [not_or, not_not, Bool.not_eq_true', Bool.not_eq_false] at hall
              exact hok hall
        | none =>
          dsimp only
          by_cases hkeep : source.anchor.attached = true ∨ source.anchor.length = none
          · rw [if_pos hkeep, if_pos hkeep]
            rfl
          rw [if_neg hkeep, if_neg hkeep]
          by_cases hslice : slice16Widened w.after start (start + lenUtf16 h.text) = h.text
          · rw [if_neg (not_not.2 hslice), if_neg (not_not.2 hslice), Option.map_some]
            congr 1
            rw [modify_inUnits work oi (fun o => { o with anchors := o.anchors.eraseIdx index }) _
              fun _ => rfl]
            refine modify_inUnits _ _ _ _ fun o => ?_
            rw [ite_not]
            rfl
          · rw [if_pos hslice, if_pos hslice]
            rfl
      · have hnone : landing pos shift h = none := if_neg hpos
        rw [hnone, if_pos (by omega)]
        obtain ⟨oi, index, source⟩ := owned
        rfl

/-- The file has this text. -/
def HasText (work : List Work) (wi : ℕ) (after : List Char) : Prop :=
  ∀ w, work[wi]? = some w → w.after = after

lemma HasText.of_fixed {t : List Work} (h : HasText work wi after)
    (hfixed : t.map Work.fixed = work.map Work.fixed) : HasText t wi after := by
  intro w hw
  obtain ⟨v, hv, -, hafter, -⟩ := fixed_getElem? hfixed hw
  rw [← hafter]
  exact h v hv

lemma bringNexts_fixed (held : List Held) (s : List Work × Bool) :
    (held.foldl (bringNext wi pos shift) s).1.map Work.fixed = s.1.map Work.fixed := by
  induction held generalizing s with
  | nil => rfl
  | cons h held ih =>
    rw [foldl_cons, ih]
    unfold bringNext
    cases hb : bringBack wi pos shift s.1 h with
    | none => rfl
    | some t => exact bringBack_fixed hb

lemma bringNexts_inUnits {s : List Work × Bool} (htext : HasText s.1 wi after)
    (hread : ∀ h ∈ held, ∀ start, h.text ≠ [] → landing pos shift h = some start →
      Readable after h.text start) :
    (held.map Held.inUnits).foldl (Browser.bringNext wi pos shift) (s.1.map Work.inUnits, s.2) =
      ((held.foldl (bringNext wi pos shift) s).1.map Work.inUnits,
        (held.foldl (bringNext wi pos shift) s).2) := by
  induction held generalizing s with
  | nil => rfl
  | cons h held ih =>
    have hback : Browser.bringBack wi pos shift (s.1.map Work.inUnits) h.inUnits =
        (bringBack wi pos shift s.1 h).map (map Work.inUnits) := by
      apply bringBack_inUnits
      intro w start hw hne hland
      rw [htext w hw]
      exact hread h mem_cons_self start hne hland
    have hrest := fun t ht => @ih t ht fun g hg => hread g (mem_cons_of_mem h hg)
    rw [map_cons, foldl_cons, foldl_cons]
    unfold Browser.bringNext bringNext
    dsimp only
    rw [hback]
    cases hb : bringBack wi pos shift s.1 h with
    | none => exact hrest s htext
    | some t => exact hrest (t, true) (htext.of_fixed (bringBack_fixed hb))

lemma free_inUnits (claimed : List (ℕ × ℕ × ℕ)) :
    Browser.free (claimed.map Prod.snd) = free claimed := by
  funext start stop
  unfold Browser.free free
  rw [any_map]
  rfl

lemma matchHits_inUnits (hins : Inserted after (pos, text)) (fuel below : ℕ) (plan : Plan)
    (claimed : List (ℕ × ℕ × ℕ)) (htext : HasText plan.work wi after) (hsound : plan.memory.Sound) :
    Browser.matchHits wi pos (utf16 text) fuel below plan.inUnits (claimed.map Prod.snd) =
      (matchRounds wi pos text fuel below plan claimed).1.inUnits := by
  induction fuel generalizing below plan claimed with
  | zero => rfl
  | succ fuel ih =>
    unfold Browser.matchHits matchRounds
    have hmemory : plan.inUnits.memory = plan.memory.inUnits := rfl
    rw [hmemory, find_inUnits, free_inUnits]
    cases hfind : plan.memory.find text (free claimed) below with
    | none => rfl
    | some r =>
      obtain ⟨i, hit, shift⟩ := r
      obtain ⟨-, e, he, hfound, -⟩ := MoveMemory.find_spec hfind
      have hentry : plan.memory.inUnits.entries[i]? = some e.inUnits := by
        unfold MoveMemory.inUnits
        dsimp only
        rw [getElem?_map, he, Option.map_some]
      have hmem : e ∈ plan.memory.entries := mem_of_getElem? he
      dsimp only
      rw [he, hentry]
      dsimp only
      have hall : Browser.bringAll wi (pos + hit) shift plan.inUnits.work e.inUnits.held =
          ((bringAll wi (pos + hit) shift plan.work e.held).1.map Work.inUnits,
            (bringAll wi (pos + hit) shift plan.work e.held).2) :=
        bringNexts_inUnits (s := (plan.work, false)) htext fun h hh start hne hland =>
          landing_readable hins hfound (hsound e hmem h hh) hne hland
      rw [hall]
      have htext' : HasText (bringAll wi (pos + hit) shift plan.work e.held).1 wi after :=
        htext.of_fixed (bringNexts_fixed e.held (plan.work, false))
      rcases hrun : bringAll wi (pos + hit) shift plan.work e.held with ⟨work, applied⟩
      rw [hrun] at htext'
      have hlength : e.inUnits.text.length = lenUtf16 e.text := length_utf16 e.text
      dsimp only
      rw [hlength, drop_inUnits]
      split_ifs
      · have hclaimed : claimed.map Prod.snd ++ [(hit, hit + lenUtf16 e.text)] =
            (claimed ++ [(i, hit, hit + lenUtf16 e.text)]).map Prod.snd := by
          rw [map_append]
          rfl
        rw [hclaimed]
        refine ih i ⟨work, plan.memory.drop i⟩ _ htext' fun e he => ?_
        exact hsound e (mem_of_mem_eraseIdx he)
      · exact ih i ⟨work, plan.memory⟩ _ htext' hsound

lemma tasks_inUnits (work : List Work) : Browser.tasks (work.map Work.inUnits) =
    (tasks work).map fun t => (t.1, t.2.1, utf16 t.2.2) := by
  unfold Browser.tasks tasks
  rw [zipIdx_map, flatMap_map, map_flatMap]
  apply flatMap_congr
  rintro ⟨w, i⟩ -
  show (w.inserts.map insertInUnits).map _ = _
  rw [map_map, map_map]
  rfl

/-- The insertions are matched in the browser as in the anchor planner, with the files in the
texts they had at first. -/
lemma matchInsertions_inUnits {first : List Work} {plan : Plan} {todo : List (ℕ × ℕ × List Char)}
    (hk : Kept first m plan) (hsound : m.Sound) (hok : ∀ w ∈ first, w.Ok)
    (htodo : ∀ task ∈ todo, ∃ w, first[task.1]? = some w ∧ task.2 ∈ w.inserts) :
    (todo.map fun t => (t.1, t.2.1, utf16 t.2.2)).foldl Browser.matchInsertion plan.inUnits =
      (matchInsertions plan todo).inUnits := by
  induction todo generalizing plan with
  | nil => rfl
  | cons task todo ih =>
    obtain ⟨w, hw, hins⟩ := htodo task mem_cons_self
    have hinserted : Inserted w.after task.2 := (hok w (mem_of_getElem? hw)).inserts _ hins
    have htext : HasText plan.work task.1 w.after := by
      intro v hv
      obtain ⟨u, hu, -, hafter, -⟩ := fixed_getElem? hk.fixed hv
      rw [← hafter, Option.some.inj (hu.symm.trans hw)]
    have hmemory : plan.memory.Sound := fun e he => hsound e (hk.entries e he)
    have hlength : plan.inUnits.memory.entries.length = plan.memory.entries.length := length_map _
    have hone : Browser.matchInsertion plan.inUnits (task.1, task.2.1, utf16 task.2.2) =
        (matchInsertion plan task).1.inUnits := by
      unfold Browser.matchInsertion matchInsertion
      dsimp only
      rw [hlength]
      exact matchHits_inUnits hinserted _ _ plan [] htext hmemory
    rw [map_cons, foldl_cons, hone]
    exact ih (hk.matchRounds hw hins _ _ _) fun task' h => htodo task' (mem_cons_of_mem _ h)

section Edit

variable {p d q : List Char}

lemma boundary_stop : Boundary charLenUtf16 (p ++ d ++ q) (lenUtf16 p + lenUtf16 d) :=
  ⟨p ++ d, q, rfl, width_append charLenUtf16 p d⟩

lemma boundary_start : Boundary charLenUtf16 (p ++ d ++ q) (lenUtf16 p) :=
  ⟨p, d ++ q, append_assoc p d q, rfl⟩

variable {f : Followed}

/-- A deletion does the same to an anchor in the browser, and holds the same text. -/
lemma cutAnchor_inUnits (fragments : List FragmentRange) (index : ℕ)
    (h : f.planned.anchor.attached = true → InText (p ++ d ++ q) f.planned.anchor) :
    Browser.cutAnchor fragments (utf16 (p ++ d ++ q)) index (lenUtf16 p) (lenUtf16 p + lenUtf16 d) f =
      ((cutAnchor fragments (p ++ d ++ q) index (lenUtf16 p) (lenUtf16 p + lenUtf16 d) f).1,
        (cutAnchor fragments (p ++ d ++ q) index (lenUtf16 p)
          (lenUtf16 p + lenUtf16 d) f).2.map Held.inUnits) := by
  unfold Browser.cutAnchor cutAnchor
  dsimp only
  have hattached : Browser.attached f.planned.anchor = f.planned.anchor.attached := rfl
  have hafterDelete : Browser.afterDelete = afterDelete := rfl
  rw [hattached, hafterDelete]
  by_cases ha : f.planned.anchor.attached = true
  · obtain ⟨hstart, hstop, hlt⟩ := h ha
    have hskip : ¬(!f.planned.anchor.attached) = true := by simp [ha]
    have hskip' : ¬f.planned.anchor.attached = false := by simp [ha]
    rw [if_neg hskip, if_neg hskip']
    by_cases hcovered :
        lenUtf16 p ≤ f.planned.anchor.start ∧ f.planned.anchor.stop ≤ lenUtf16 p + lenUtf16 d
    · rw [if_pos hcovered, if_pos hcovered, slice_boundaries hstart hstop hlt.le]
      rfl
    · rw [if_neg hcovered, if_neg hcovered]
      congr 1
      by_cases hover :
          f.planned.anchor.start < lenUtf16 p + lenUtf16 d ∧ lenUtf16 p < f.planned.anchor.stop
      · have hdecide : ¬decide (f.planned.anchor.start < lenUtf16 p + lenUtf16 d ∧
            lenUtf16 p < f.planned.anchor.stop) = false := by simp [hover]
        rw [if_neg hdecide, if_neg hdecide]
        by_cases hhead : lenUtf16 p ≤ f.planned.anchor.start
        · rw [if_pos hhead, if_pos ⟨hhead, by omega⟩,
            slice_boundaries hstart boundary_stop hover.1.le]
          rfl
        · have hhead' : ¬(lenUtf16 p ≤ f.planned.anchor.start ∧
              lenUtf16 p + lenUtf16 d < f.planned.anchor.stop) := fun hboth => hhead hboth.1
          rw [if_neg hhead, if_neg hhead']
          by_cases htail : f.planned.anchor.stop ≤ lenUtf16 p + lenUtf16 d
          · rw [if_pos htail, if_pos ⟨by omega, htail⟩,
              slice_boundaries boundary_start hstop hover.2.le]
            rfl
          · have htail' : ¬(f.planned.anchor.start < lenUtf16 p ∧
                f.planned.anchor.stop ≤ lenUtf16 p + lenUtf16 d) := fun hboth => htail hboth.2
            rw [if_neg htail, if_neg htail']
            rfl
      · have hdecide : decide (f.planned.anchor.start < lenUtf16 p + lenUtf16 d ∧
            lenUtf16 p < f.planned.anchor.stop) = false := decide_eq_false hover
        rw [if_pos hdecide, if_pos hdecide]
        rfl
  · have hskip : f.planned.anchor.attached = false := Bool.eq_false_iff.2 ha
    have hskip' : (!f.planned.anchor.attached) = true := by rw [hskip, Bool.not_false]
    rw [if_pos hskip', if_pos hskip]
    rfl

/-- What lies between two boundaries inside a deletion is in the deleted text. -/
lemma slice_within {stop : ℕ} (hstart : Boundary charLenUtf16 (p ++ d ++ q) start)
    (hstop : Boundary charLenUtf16 (p ++ d ++ q) stop) (hle : start ≤ stop)
    (hin : lenUtf16 p ≤ start) (hout : stop ≤ lenUtf16 p + lenUtf16 d) :
    ∃ s t, d = s ++ slice16Widened (p ++ d ++ q) start stop ++ t ∧
      lenUtf16 s = start - lenUtf16 p := by
  obtain ⟨u, rfl⟩ := Nat.exists_eq_add_of_le hin
  obtain ⟨v, rfl⟩ := Nat.exists_eq_add_of_le (hin.trans hle)
  rw [append_assoc] at hstart hstop
  have hu : u ≤ width charLenUtf16 d := Nat.le_of_add_le_add_left (hle.trans hout)
  have hv : v ≤ width charLenUtf16 d := Nat.le_of_add_le_add_left hout
  have huv : u ≤ v := Nat.le_of_add_le_add_left hle
  obtain ⟨s, y, hy, rfl⟩ := (hstart.of_ge charLenUtf16_pos).of_le charLenUtf16_pos hu
  obtain ⟨z, t, hz, rfl⟩ := (hstop.of_ge charLenUtf16_pos).of_le charLenUtf16_pos hv
  obtain ⟨m, rfl, rfl⟩ := append_split charLenUtf16_pos (hy.symm.trans hz) huv
  refine ⟨s, t, ?_, (Nat.add_sub_cancel_left _ _).symm⟩
  have hcur : p ++ d ++ q = (p ++ s) ++ m ++ (t ++ q) := by
    rw [hz]
    simp
  rw [hcur, width_append charLenUtf16 s m, ← Nat.add_assoc, ← width_append charLenUtf16 p s,
    slice16Widened, widened_between charLenUtf16_pos]
  exact hz

/-- What is held of an anchor lies in the deleted text. -/
lemma cutAnchor_within {fragments : List FragmentRange} {index : ℕ} {g : Held}
    (h : f.planned.anchor.attached = true → InText (p ++ d ++ q) f.planned.anchor)
    (hg : (cutAnchor fragments (p ++ d ++ q) index (lenUtf16 p)
      (lenUtf16 p + lenUtf16 d) f).2 = some g) : g.Within d := by
  unfold cutAnchor at hg
  dsimp only at hg
  by_cases ha : f.planned.anchor.attached = true
  · obtain ⟨hstart, hstop, hlt⟩ := h ha
    split_ifs at hg with hskip hcovered hover hhead htail
    · cases hg
      exact fun _ => slice_within hstart hstop hlt.le hcovered.1 hcovered.2
    · cases hg
      have hover' := of_decide_eq_true (Bool.not_eq_false _ ▸ hover)
      exact fun _ => slice_within hstart boundary_stop hover'.1.le hhead.1 le_rfl
    · cases hg
      have hover' := of_decide_eq_true (Bool.not_eq_false _ ▸ hover)
      obtain ⟨s, t, hst, hs⟩ := slice_within boundary_start hstop hover'.2.le le_rfl htail.2
      exact fun _ => ⟨s, t, hst, hs.trans (Nat.sub_self _)⟩
  · rw [if_pos (Bool.eq_false_iff.2 ha)] at hg
    cases hg

end Edit

lemma takeInsert_eq : Browser.takeInsert = insertAnchor := by
  funext ef n f
  unfold Browser.takeInsert insertAnchor
  dsimp only
  have hattached : Browser.attached f.planned.anchor = f.planned.anchor.attached := rfl
  rw [hattached]
  cases f.planned.anchor.attached
  all_goals rfl

lemma followInserts_inUnits (inserts : List (ℕ × List Char)) (ef et n : ℕ) :
    Browser.followInserts (inserts.map insertInUnits) ef et n =
      (inserts.filterMap (followEdit ef et n)).map insertInUnits := by
  unfold Browser.followInserts
  rw [filterMap_map, map_filterMap]
  congr 1
  funext i
  have hlength : (insertInUnits i).2.length = lenUtf16 i.2 := length_utf16 i.2
  rw [Function.comp_apply]
  unfold Browser.followInsert followEdit
  rw [hlength]
  have hpos : (insertInUnits i).1 = i.1 := rfl
  rw [hpos]
  split_ifs
  all_goals rfl

/-- The deletion of an edit does the same to every anchor, and holds the same texts. -/
lemma cuts_inUnits (h : Fine s) (hs : Splits s e p d q) (fragments : List FragmentRange)
    (index : ℕ) :
    s.anchors.map (Browser.cutAnchor fragments (utf16 s.cur) index (lenUtf16 p)
        (lenUtf16 p + lenUtf16 d)) =
      (s.anchors.map (cutAnchor fragments s.cur index (lenUtf16 p)
        (lenUtf16 p + lenUtf16 d))).map fun r => (r.1, r.2.map Held.inUnits) := by
  rw [map_map]
  refine map_congr_left fun f hf => ?_
  rw [hs.cur]
  refine cutAnchor_inUnits fragments index fun ha => ?_
  rw [← hs.cur]
  exact h.anchors f hf ha

lemma step_inUnits (h : Fine s) (hs : Splits s e p d q) (fragments : List FragmentRange)
    (index : ℕ) :
    s.inUnits.step fragments (e.inUnits, index) = (s.step fragments (e, index)).inUnits := by
  rw [Following.step_eq hs]
  have hef : ((e.inUnits.start : ℤ) + s.inUnits.adj).toNat = lenUtf16 p := by
    have hpos := hs.pos
    show ((e.pos : ℤ) + s.adj).toNat = _
    omega
  have het : ((e.inUnits.stop : ℤ) + s.inUnits.adj).toNat = lenUtf16 p + lenUtf16 d := by
    have hpos := hs.pos
    have hdelete := hs.delete
    show (((e.pos + e.delete : ℕ) : ℤ) + s.adj).toNat = _
    omega
  have hn : e.inUnits.insert.length = lenUtf16 e.insert := length_utf16 e.insert
  have hnil : ∀ l : List Char, lenUtf16 l = 0 ↔ l = [] := fun l =>
    ⟨width_eq_zero charLenUtf16_pos, fun h => h ▸ rfl⟩
  have hzero : lenUtf16 p = lenUtf16 p + lenUtf16 d ↔ d = [] := by
    rw [← hnil]
    omega
  have hpos : lenUtf16 p < lenUtf16 p + lenUtf16 d ↔ d ≠ [] := by
    rw [Ne, ← hnil]
    omega
  have hins : 0 < lenUtf16 e.insert ↔ e.insert ≠ [] := by
    rw [Ne, ← hnil]
    omega
  unfold Browser.Following.step
  dsimp only
  rw [hef, het, hn]
  by_cases hnone : d = [] ∧ e.insert = []
  · rw [if_pos hnone, if_pos ⟨hzero.2 hnone.1, (hnil _).2 hnone.2⟩]
  · rw [if_neg hnone, if_neg fun hboth => hnone ⟨hzero.1 hboth.1, (hnil _).1 hboth.2⟩]
    have hcuts := cuts_inUnits h hs fragments index
    have hfst : (s.anchors.map (Browser.cutAnchor fragments (utf16 s.cur) index (lenUtf16 p)
        (lenUtf16 p + lenUtf16 d))).map (·.1) = (s.anchors.map (cutAnchor fragments s.cur index
          (lenUtf16 p) (lenUtf16 p + lenUtf16 d))).map (·.1) := by
      rw [hcuts, map_map]
      rfl
    have hheld : (s.anchors.map (Browser.cutAnchor fragments (utf16 s.cur) index (lenUtf16 p)
        (lenUtf16 p + lenUtf16 d))).filterMap (·.2) = ((s.anchors.map (cutAnchor fragments s.cur
          index (lenUtf16 p) (lenUtf16 p + lenUtf16 d))).filterMap (·.2)).map Held.inUnits := by
      rw [hcuts, filterMap_map, map_filterMap]
      rfl
    have hcur : slice (utf16 s.cur) 0 (lenUtf16 p) ++ utf16 e.insert ++
        (utf16 s.cur).drop (lenUtf16 p + lenUtf16 d) = utf16 (p ++ e.insert ++ q) := by
      unfold slice
      rw [hs.cur, drop_zero, ← width_append, drop_utf16, append_assoc p d q, take_utf16,
        utf16_append, utf16_append]
    have hdeleted : slice (utf16 s.cur) (lenUtf16 p) (lenUtf16 p + lenUtf16 d) = utf16 d := by
      rw [hs.cur, slice_utf16]
    have hsub : ((lenUtf16 p + lenUtf16 d - lenUtf16 p : ℕ) : ℤ) = e.delete := by
      have hdelete := hs.delete
      omega
    have hinserts := followInserts_inUnits s.inserts (lenUtf16 p) (lenUtf16 p + lenUtf16 d)
      (lenUtf16 e.insert)
    unfold Following.inUnits
    dsimp only
    simp only [hpos, hins, hsub, takeInsert_eq, ne_eq, ite_not]
    have hinsert : e.inUnits.insert = utf16 e.insert := rfl
    rw [hinsert, hcur, hfst, hheld, hdeleted, hinserts]
    generalize (s.anchors.map (cutAnchor fragments s.cur index (lenUtf16 p)
      (lenUtf16 p + lenUtf16 d))).filterMap (·.2) = held
    congr 1
    · by_cases hempty : e.insert = []
      · rw [if_pos hempty, if_pos hempty, append_nil, append_nil]
      · rw [if_neg hempty, if_neg hempty, map_append]
        rfl
    · by_cases hkept : d = []
      · rw [if_pos hkept, if_neg fun hboth => hboth.1 hkept]
      · rw [if_neg hkept, ← remember_inUnits]
        cases held with
        | nil =>
          rw [if_neg (by simp)]
          exact (if_pos (.inr rfl)).symm
        | cons g held => rw [if_pos ⟨hkept, Nat.zero_lt_succ _⟩]

lemma remember_sound (h : m.Sound) (hheld : ∀ g ∈ held, g.Within text) :
    (m.remember text held).Sound := by
  unfold MoveMemory.remember
  split_ifs
  · exact h
  · intro e he
    rcases mem_append.1 (mem_of_mem_drop he) with he | he
    · exact h e he
    · rw [mem_singleton.1 he]
      exact hheld

/-- An edit keeps what is remembered sound. -/
lemma step_sound (h : Fine s) (hs : Splits s e p d q) (hsound : s.memory.Sound)
    (fragments : List FragmentRange) (index : ℕ) : (s.step fragments (e, index)).memory.Sound := by
  rw [Following.step_eq hs]
  by_cases hnone : d = [] ∧ e.insert = []
  · rw [if_pos hnone]
    exact hsound
  · rw [if_neg hnone]
    dsimp only
    by_cases hd : d = []
    · rw [if_pos hd]
      exact hsound
    · rw [if_neg hd]
      refine remember_sound hsound fun g hg => ?_
      obtain ⟨r, hr, hheld⟩ := mem_filterMap.1 hg
      obtain ⟨f, hf, rfl⟩ := mem_map.1 hr
      rw [hs.cur] at hheld
      refine cutAnchor_within (fun ha => ?_) hheld
      rw [← hs.cur]
      exact h.anchors f hf ha

lemma foldl_inUnits (fragments : List FragmentRange) (edits : List Edit) (index : ℕ) (h : Fine s)
    (hfits : Fits s.cur s.adj edits) (hsound : s.memory.Sound) :
    ((edits.map Edit.inUnits).zipIdx index).foldl (Browser.Following.step fragments) s.inUnits =
        ((edits.zipIdx index).foldl (Following.step fragments) s).inUnits ∧
      ((edits.zipIdx index).foldl (Following.step fragments) s).memory.Sound := by
  induction edits generalizing index s with
  | nil => exact ⟨rfl, hsound⟩
  | cons e edits ih =>
    obtain ⟨p, d, q, hcur, hpos, hdelete, hrest⟩ := hfits
    have hs : Splits s e p d q := ⟨hcur, hpos, hdelete⟩
    rw [map_cons, zipIdx_cons, zipIdx_cons, foldl_cons, foldl_cons, step_inUnits h hs]
    exact ih (index + 1) (h.step hs fragments index) (Fits.step hs hrest fragments index)
      (step_sound h hs hsound fragments index)

/-- The first phase of a file is the same in the browser, and keeps what is remembered sound. -/
lemma planFile_inUnits {file : OperationFile} (h : WellFormed file) (hsound : memory.Sound) :
    Browser.planFile file.inUnits memory.inUnits =
        ((planFile file memory).1.inUnits, (planFile file memory).2.inUnits) ∧
      (planFile file memory).2.Sound := by
  have hfine : Fine (Following.start file memory) := by
    refine ⟨fun f hf ha => ?_, nofun⟩
    obtain ⟨a, ha', rfl⟩ := mem_map.1 hf
    exact h.anchors a ha' ha
  obtain ⟨hrun, hend⟩ := foldl_inUnits file.fragments file.edits 0 hfine h.edits hsound
  refine ⟨?_, hend⟩
  have hfollow : Browser.followEdits file.inUnits memory.inUnits =
      (followEdits file memory).inUnits := hrun
  unfold Browser.planFile planFile
  rw [hfollow]
  have hsettle : Browser.settle = Followed.settle := rfl
  rw [hsettle]
  rfl

lemma planFiles_inUnits (h : ∀ f ∈ files, WellFormed f) (hsound : memory.Sound) :
    Browser.planFiles (files.map OperationFile.inUnits) memory.inUnits =
        ((planFiles files memory).1.map Work.inUnits, (planFiles files memory).2.inUnits) ∧
      (planFiles files memory).2.Sound := by
  induction files generalizing memory with
  | nil => exact ⟨rfl, hsound⟩
  | cons file files ih =>
    obtain ⟨hfile, hnext⟩ := planFile_inUnits (h file mem_cons_self) hsound
    obtain ⟨hfiles, hend⟩ := ih (fun f hf => h f (mem_cons_of_mem file hf)) hnext
    refine ⟨?_, hend⟩
    rw [map_cons]
    unfold Browser.planFiles planFiles
    rw [hfile]
    dsimp only
    rw [hfiles]
    rfl

lemma planOperation_sound (h : ∀ f ∈ files, WellFormed f) (hsound : memory.Sound) :
    (planOperation files memory).2.Sound := by
  intro e he
  exact (planFiles_inUnits h hsound).2 e ((planOperation_kept files memory).entries e he)

/-- The browser and the anchor planner plan the same, when no edit and no attached anchor ends
outside the text or inside a character, and the held pieces lie in what is remembered; and
then they lie in what is remembered afterwards. -/
theorem planners_agree {files : List OperationFile} (h : ∀ f ∈ files, WellFormed f)
    {memory : MoveMemory} (hsound : memory.Sound) :
    Browser.planOperation (files.map OperationFile.inUnits) memory.inUnits =
        ((planOperation files memory).1.map PlannedFile.inUnits,
          (planOperation files memory).2.inUnits) ∧
      (planOperation files memory).2.Sound := by
  obtain ⟨hfirst, hsound'⟩ := planFiles_inUnits h hsound
  refine ⟨?_, planOperation_sound h hsound⟩
  have hsecond := matchInsertions_inUnits (Kept.start _ _) hsound' (planFiles_ok h memory)
    fun _ => mem_tasks
  unfold Browser.planOperation planOperation
  rw [hfirst]
  dsimp only
  rw [tasks_inUnits]
  have hplan : (⟨(planFiles files memory).1.map Work.inUnits,
      (planFiles files memory).2.inUnits⟩ : Browser.Plan) =
      Plan.inUnits ⟨(planFiles files memory).1, (planFiles files memory).2⟩ := rfl
  rw [hplan, hsecond]
  unfold Plan.inUnits
  dsimp only
  rw [map_map, map_map]
  rfl

/-- A word behind an emoji is moved to the end, with the comment on it. -/
def moved : OperationFile :=
  ⟨1, ['😀', 'a', 'b', ' ', 'c'], [⟨1, 1, 2, 4, false, none, none, none, false, false⟩],
    [⟨2, 2, []⟩, ⟨6, 0, ['a', 'b']⟩], []⟩

/-- The comment moves with the word in both. -/
theorem planners_agree_moved :
    ((planOperation [moved] ⟨32, []⟩).1.flatMap (·.anchors)).map
        (fun a => (a.anchor.start, a.anchor.stop)) = [(4, 6)] ∧
      Browser.planOperation ([moved].map OperationFile.inUnits) (MoveMemory.inUnits ⟨32, []⟩) =
        ((planOperation [moved] ⟨32, []⟩).1.map PlannedFile.inUnits,
          (planOperation [moved] ⟨32, []⟩).2.inUnits) := by
  refine ⟨by decide, (planners_agree ?_ fun e he => by cases he).1⟩
  intro f hf
  obtain rfl := mem_singleton.1 hf
  constructor
  · exact ⟨['😀'], ['a', 'b'], [' ', 'c'], rfl, rfl, rfl, ['😀', ' ', 'c'], [], [], rfl, rfl, rfl,
      trivial⟩
  · intro a ha _
    obtain rfl := mem_singleton.1 ha
    exact ⟨⟨['😀'], _, rfl, rfl⟩, ⟨['😀', 'a', 'b'], _, rfl, rfl⟩, by decide⟩

/-- Whether the browser plans what the anchor planner plans. -/
def plannedAlike (files : List OperationFile) (memory : MoveMemory) : Bool :=
  Browser.planOperation (files.map OperationFile.inUnits) memory.inUnits =
    ((planOperation files memory).1.map PlannedFile.inUnits, (planOperation files memory).2.inUnits)

/-- One half of an emoji is deleted. -/
def halved : OperationFile := ⟨1, ['😀'], [], [⟨1, 1, []⟩], []⟩

/-- A comment that starts inside an emoji is deleted with it. -/
def straddling : OperationFile :=
  ⟨1, ['😀', 'a'], [⟨1, 1, 1, 3, false, none, none, none, false, false⟩], [⟨0, 3, []⟩], []⟩

/-- A letter is pasted, in a file with a detached comment. -/
def lettered : OperationFile :=
  ⟨1, ['😀'], [⟨1, 1, 0, 0, true, none, none, some 2, false, false⟩], [⟨0, 0, ['x']⟩], []⟩

/-- The planners differ on an edit and on an anchor that ends inside a surrogate pair, and on
a held piece that is not in its remembered text. -/
theorem planners_differ :
    (Browser.planOperation ([halved].map OperationFile.inUnits) (MoveMemory.inUnits ⟨32, []⟩)).1.map
        (·.after) = [[0xd83d]] ∧
      (planOperation [halved] ⟨32, []⟩).1.map (·.after) = [[]] ∧
      plannedAlike [halved] ⟨32, []⟩ = false ∧
      plannedAlike [straddling] ⟨32, []⟩ = false ∧
      plannedAlike [lettered] ⟨32, [⟨['x'], [⟨1, 2, ['😀'], none⟩]⟩]⟩ = false := by
  refine ⟨?_, ?_, ?_, ?_, ?_⟩
  all_goals decide

end LibrePaper.Anchors
