import LibrePaper.Anchors.Planner

/-!
# Anchors are conserved

Every anchor that goes into an operation comes out of it once, in its own file or in one
that an insertion brought its text to.
-/
namespace LibrePaper.Anchors
open Library List

/-- What following the edits leaves of an anchor. -/
def PlannedAnchor.origin (p : PlannedAnchor) : ℕ × ℕ × Option ℕ :=
  (p.anchor.id, p.anchor.file, p.movedFrom)

lemma cutAnchor_origin (fragments : List FragmentRange) (cur : List Char) (index ef et : ℕ)
    (f : Followed) :
    (cutAnchor fragments cur index ef et f).1.planned.origin = f.planned.origin := by
  unfold cutAnchor
  dsimp only
  split_ifs <;> rfl

lemma insertAnchor_origin (ef n : ℕ) (f : Followed) :
    (insertAnchor ef n f).planned.origin = f.planned.origin := by
  unfold insertAnchor
  dsimp only
  split_ifs <;> rfl

lemma Followed.settle_origin (f : Followed) : f.settle.origin = f.planned.origin := by
  unfold Followed.settle
  split_ifs <;> rfl

lemma Following.step_origin (fragments : List FragmentRange) (s : Following)
    (item : Edit × ℕ) : (s.step fragments item).anchors.map (·.planned.origin) =
      s.anchors.map (·.planned.origin) := by
  unfold Following.step
  dsimp only
  split_ifs <;>
    simp [Function.comp_def, insertAnchor_origin, cutAnchor_origin]

/-- Every insertion is one of the edits'. -/
lemma Following.step_inserts (fragments : List FragmentRange) (s : Following)
    (item : Edit × ℕ) {i : ℕ × List Char} (hi : i ∈ (s.step fragments item).inserts) :
    i.2 = item.1.insert ∨ ∃ j ∈ s.inserts, j.2 = i.2 := by
  unfold Following.step at hi
  dsimp only at hi
  split_ifs at hi
  · exact .inr ⟨i, hi, rfl⟩
  all_goals
    rcases mem_append.1 hi with hi | hi
    · obtain ⟨j, hj, hfollow⟩ := mem_filterMap.1 hi
      refine .inr ⟨j, hj, ?_⟩
      unfold followEdit at hfollow
      split_ifs at hfollow <;> cases hfollow <;> rfl
    · first
        | exact .inl (congrArg Prod.snd (mem_singleton.1 hi))
        | cases hi

lemma followEdits_spec (file : OperationFile) (memory : MoveMemory) :
    (followEdits file memory).anchors.map (·.planned.origin) =
        file.anchors.map (fun a => (a.id, a.file, none)) ∧
      ∀ i ∈ (followEdits file memory).inserts, ∃ edit ∈ file.edits, edit.insert = i.2 := by
  have hrun : ∀ (items : List (Edit × ℕ)) (s : Following), (∀ x ∈ items, x.1 ∈ file.edits) →
      (∀ i ∈ s.inserts, ∃ edit ∈ file.edits, edit.insert = i.2) →
      (items.foldl (Following.step file.fragments) s).anchors.map (·.planned.origin) =
          s.anchors.map (·.planned.origin) ∧
        ∀ i ∈ (items.foldl (Following.step file.fragments) s).inserts,
          ∃ edit ∈ file.edits, edit.insert = i.2 := by
    intro items
    induction items with
    | nil => exact fun s _ hs => ⟨rfl, hs⟩
    | cons item items ih =>
      intro s hitems hs
      have hitem := hitems item mem_cons_self
      obtain ⟨horigin, hinserts⟩ := ih (s.step file.fragments item)
        (fun x hx => hitems x (mem_cons_of_mem _ hx)) fun i hi => by
          rcases s.step_inserts file.fragments item hi with heq | ⟨j, hj, heq⟩
          · exact ⟨item.1, hitem, heq.symm⟩
          · exact heq ▸ hs j hj
      exact ⟨horigin.trans (s.step_origin file.fragments item), hinserts⟩
  obtain ⟨horigin, hinserts⟩ := hrun file.edits.zipIdx (.start file memory)
    (fun x hx => (mem_zipIdx hx).2.2 ▸ getElem_mem _) nofun
  refine ⟨horigin.trans ?_, hinserts⟩
  simp [Following.start, Function.comp_def, PlannedAnchor.origin]

/-- What the first phase makes of each file. -/
structure Planned (file : OperationFile) (work : Work) : Prop where
  fileId : work.fileId = file.fileId
  anchors : work.anchors.map (·.origin) = file.anchors.map fun a => (a.id, a.file, none)
  inserts : ∀ i ∈ work.inserts, ∃ edit ∈ file.edits, edit.insert = i.2

lemma planFiles_planned (files : List OperationFile) (memory : MoveMemory) :
    Forall₂ Planned files (planFiles files memory).1 := by
  induction files generalizing memory with
  | nil => exact .nil
  | cons file files ih =>
    obtain ⟨horigin, hinserts⟩ := followEdits_spec file memory
    refine .cons ⟨rfl, ?_, hinserts⟩ (ih _)
    refine Eq.trans ?_ horigin
    simp [Function.comp_def, Followed.settle_origin]

/-- An anchor is in a file. -/
def Sits (work : List Work) (i : ℕ) (p : PlannedAnchor) : Prop :=
  ∃ w, work[i]? = some w ∧ p ∈ w.anchors

lemma position_spec {α : Type*} {p : α → Bool} {l : List α} {i : ℕ} {a : α}
    (h : position p l = some (i, a)) : l[i]? = some a ∧ p a = true := by
  induction l generalizing i with
  | nil => cases h
  | cons b l ih =>
    unfold position at h
    split_ifs at h with hb
    · cases h
      exact ⟨rfl, hb⟩
    · obtain ⟨⟨j, c⟩, hj, heq⟩ := Option.map_eq_some_iff.1 h
      cases heq
      exact ih hj

lemma locate_spec {work : List Work} {id oi index : ℕ} {source : PlannedAnchor}
    (h : locate work id = some (oi, index, source)) :
    ∃ o, work[oi]? = some o ∧ o.anchors[index]? = some source ∧ source.anchor.id = id := by
  obtain ⟨⟨i, o⟩, ho, hmap⟩ := Option.bind_eq_some_iff.1 h
  obtain ⟨⟨j, a⟩, ha, heq⟩ := Option.map_eq_some_iff.1 hmap
  cases heq
  obtain ⟨hsource, hid⟩ := position_spec ha
  exact ⟨o, (position_spec ho).1, hsource, of_decide_eq_true hid⟩

lemma rejoinPiece_spec {after : List Char} {p q : PlannedAnchor} {side : Side} {start : ℕ}
    {text : List Char} (h : rejoinPiece after p side start text = some q) :
    slice16Widened after start (start + lenUtf16 text) = text ∧ p.anchor.attached = true ∧
      q.origin = p.origin ∧ q.anchor.attached = true ∧
      (side = .head ∧ start + lenUtf16 text = p.anchor.start ∧ q.anchor.start = start ∧
          q.anchor.stop = p.anchor.stop ∨
        side = .tail ∧ start = p.anchor.stop ∧ q.anchor.start = p.anchor.start ∧
          q.anchor.stop = start + lenUtf16 text) := by
  unfold rejoinPiece at h
  cases side with
  | head =>
    dsimp only at h
    split_ifs at h with hslice hattached hedge
    cases h
    have hatt := eq_true_of_ne_false hattached
    exact ⟨not_not.1 hslice, hatt, rfl, hatt, .inl ⟨rfl, hedge, rfl, rfl⟩⟩
  | tail =>
    dsimp only at h
    split_ifs at h with hslice hattached hedge
    cases h
    have hatt := eq_true_of_ne_false hattached
    exact ⟨not_not.1 hslice, hatt, rfl, hatt, .inr ⟨rfl, hedge, rfl, rfl⟩⟩

/-- What bringing a piece back does: it rejoins an anchor of the file, or pins one that was
detached, from any file. -/
lemma bringBack_spec {wi pos : ℕ} {shift : ℤ} {work t : List Work} {h : Held}
    (hb : bringBack wi pos shift work h = some t) : h.text ≠ [] ∧
      ∃ oi index source w start, locate work h.id = some (oi, index, source) ∧
        work[wi]? = some w ∧ landing pos shift h = some start ∧
        ((∃ side p, h.side = some side ∧ oi = wi ∧
            rejoinPiece w.after source side start h.text = some p ∧
            t = work.modify wi fun w => { w with anchors := w.anchors.set index p }) ∨
          h.side = none ∧ source.anchor.attached = false ∧ source.anchor.length ≠ none ∧
            slice16Widened w.after start (start + lenUtf16 h.text) = h.text ∧
            t = (work.modify oi fun o => { o with anchors := o.anchors.eraseIdx index }).modify wi
              fun o => { o with anchors := o.anchors ++ [pin source w.fileId start
                (start + lenUtf16 h.text)
                (if oi = wi then source.movedFrom else (work[oi]?).map (·.fileId))] }) := by
  unfold bringBack at hb
  split_ifs at hb with hempty
  refine ⟨hempty, ?_⟩
  split at hb
  · rename_i oi index source w start hloc hw hland
    refine ⟨oi, index, source, w, start, hloc, hw, hland, ?_⟩
    split at hb
    · rename_i side hside
      split_ifs at hb with hoi
      obtain ⟨p, hp, rfl⟩ := Option.map_eq_some_iff.1 hb
      exact .inl ⟨side, p, hside, hoi, hp, rfl⟩
    · rename_i hside
      dsimp only at hb
      split_ifs at hb with hstuck hslice hoi
      · obtain ⟨hatt, hlen⟩ := not_or.1 hstuck
        exact .inr ⟨hside, eq_false_of_ne_true hatt, hlen, not_not.1 hslice,
          by rw [if_pos hoi]; exact (Option.some.inj hb).symm⟩
      · obtain ⟨hatt, hlen⟩ := not_or.1 hstuck
        exact .inr ⟨hside, eq_false_of_ne_true hatt, hlen, not_not.1 hslice,
          by rw [if_neg hoi]; exact (Option.some.inj hb).symm⟩
  · cases hb

/-- The part of a file that the second phase leaves alone. -/
def Work.fixed (w : Work) : ℕ × List Char × List (ℕ × List Char) := (w.fileId, w.after, w.inserts)

/-- The ids of all anchors. -/
def anchorIds (work : List Work) : List ℕ := work.flatMap fun w => w.anchors.map (·.anchor.id)

lemma getElem?_split {α : Type*} {l : List α} {i : ℕ} {a : α} (h : l[i]? = some a) :
    ∃ p q, l = p ++ a :: q ∧ p.length = i := by
  obtain ⟨hlt, rfl⟩ := List.getElem?_eq_some_iff.1 h
  exact ⟨l.take i, l.drop (i + 1), by simp, by simp [hlt.le]⟩

lemma modify_append {α : Type*} (p q : List α) (a : α) (f : α → α) :
    (p ++ a :: q).modify p.length f = p ++ f a :: q := by
  induction p with
  | nil => rfl
  | cons b p ih => rw [cons_append, length_cons, modify_succ_cons, ih, cons_append]

/-- Changing one file so that a function of it stays. -/
lemma map_modify_eq {α β : Type*} {f : α → α} {g : α → β} (h : ∀ a, g (f a) = g a) (l : List α)
    (i : ℕ) : (l.modify i f).map g = l.map g := by
  induction l generalizing i with
  | nil => simp
  | cons a l ih =>
    cases i with
    | zero => simp [h]
    | succ i => simp [ih]

variable {wi pos : ℕ} {shift : ℤ} {work t : List Work} {h : Held}

lemma bringBack_fixed (hb : bringBack wi pos shift work h = some t) :
    t.map Work.fixed = work.map Work.fixed := by
  obtain ⟨-, oi, index, source, w, start, -, -, -, hcase⟩ := bringBack_spec hb
  rcases hcase with ⟨side, p, -, -, -, rfl⟩ | ⟨-, -, -, -, rfl⟩
  · refine map_modify_eq ?_ _ _
    exact fun _ => rfl
  · refine (map_modify_eq ?_ _ _).trans (map_modify_eq ?_ _ _)
    · exact fun _ => rfl
    · exact fun _ => rfl

lemma bringBack_ids (hb : bringBack wi pos shift work h = some t) :
    (anchorIds t).Perm (anchorIds work) := by
  obtain ⟨-, oi, index, source, w, start, hloc, hw, -, hcase⟩ := bringBack_spec hb
  obtain ⟨o, ho, hsource, -⟩ := locate_spec hloc
  obtain ⟨A, B, rfl, rfl⟩ := getElem?_split ho
  obtain ⟨P, Q, hPQ, rfl⟩ := getElem?_split hsource
  rcases hcase with ⟨side, p, -, rfl, hp, rfl⟩ | ⟨-, -, -, -, rfl⟩
  · have hid : p.anchor.id = source.anchor.id := congrArg Prod.fst (rejoinPiece_spec hp).2.2.1
    rw [modify_append]
    simp [anchorIds, hPQ, hid]
  · rw [modify_append]
    have hfewer : (anchorIds (A ++ o :: B)).Perm (source.anchor.id ::
        anchorIds (A ++ { o with anchors := o.anchors.eraseIdx P.length } :: B)) := by
      simp only [anchorIds, hPQ, List.flatMap_append, List.flatMap_cons, List.map_append,
        List.map_cons, List.eraseIdx_append_of_length_le le_rfl, Nat.sub_self,
        List.eraseIdx_cons_zero, List.append_assoc, List.cons_append]
      exact (List.perm_middle.append_left _).trans List.perm_middle
    have hmore : ∀ (l : List Work) (q : PlannedAnchor), wi < l.length →
        (anchorIds (l.modify wi fun w => { w with anchors := w.anchors ++ [q] })).Perm
          (q.anchor.id :: anchorIds l) := by
      intro l q hlt
      obtain ⟨C, D, hl, hC⟩ := getElem?_split (List.getElem?_eq_getElem hlt)
      generalize l[wi] = x at hl
      rw [hl, ← hC, modify_append]
      simp only [anchorIds, List.flatMap_append, List.flatMap_cons, List.map_append, List.map_cons,
        List.map_nil, List.append_assoc, List.cons_append, List.nil_append]
      exact (List.perm_middle.append_left _).trans List.perm_middle
    have hlt : wi < (A ++ { o with anchors := o.anchors.eraseIdx P.length } :: B).length := by
      simpa using (List.getElem?_eq_some_iff.1 hw).1
    refine (hmore _ _ hlt).trans ?_
    exact hfewer.symm

/-- A held piece comes back with an insertion of a file. -/
def Lands (w : Work) (m : MoveMemory) (h : Held) (start : ℕ) : Prop :=
  ∃ pos text e hit shift, (pos, text) ∈ w.inserts ∧ e ∈ m.entries ∧
    found text e.text = some (hit, shift) ∧ h ∈ e.held ∧ h.text ≠ [] ∧
      landing (pos + hit) shift h = some start

/-- What the second phase does with an anchor, from the files it begins with: it leaves it
where it is, pins it to held words, or gives it a piece back. -/
inductive Carried (first : List Work) (m : MoveMemory) : ℕ → PlannedAnchor → Prop
  | stays {i p} : Sits first i p → Carried first m i p
  | pinned {i j p w h start} (movedFrom : Option ℕ) : Carried first m j p →
      p.anchor.attached = false → first[i]? = some w → Lands w m h start →
      h.id = p.anchor.id → h.side = none →
      slice16Widened w.after start (start + lenUtf16 h.text) = h.text →
      movedFrom = (if j = i then p.movedFrom else (first[j]?).map (·.fileId)) →
      Carried first m i (pin p w.fileId start (start + lenUtf16 h.text) movedFrom)
  | rejoined {i p q w h start side} : Carried first m i p → first[i]? = some w →
      Lands w m h start → h.id = p.anchor.id → h.side = some side →
      rejoinPiece w.after p side start h.text = some q → Carried first m i q

lemma sits_modify {work : List Work} {i j : ℕ} {p : PlannedAnchor} {f : Work → Work}
    (h : Sits (work.modify j f) i p) :
    Sits work i p ∨ i = j ∧ ∃ w, work[i]? = some w ∧ p ∈ (f w).anchors := by
  obtain ⟨w, hw, hp⟩ := h
  by_cases hij : j = i
  · subst hij
    rw [getElem?_modify_eq] at hw
    obtain ⟨v, hv, rfl⟩ := Option.map_eq_some_iff.1 hw
    exact .inr ⟨rfl, v, hv, hp⟩
  · rw [getElem?_modify_ne _ _ hij] at hw
    exact .inl ⟨w, hw, hp⟩

/-- Files that agree but for their anchors. -/
lemma fixed_getElem? {first : List Work} (hfixed : work.map Work.fixed = first.map Work.fixed)
    {i : ℕ} {w : Work} (hw : work[i]? = some w) :
    ∃ v, first[i]? = some v ∧ v.fileId = w.fileId ∧ v.after = w.after ∧ v.inserts = w.inserts := by
  have hmap : (first.map Work.fixed)[i]? = some w.fixed := by
    rw [← hfixed, getElem?_map, hw]
    rfl
  rw [getElem?_map] at hmap
  obtain ⟨v, hv, heq⟩ := Option.map_eq_some_iff.1 hmap
  obtain ⟨hid, hrest⟩ := Prod.mk.inj heq
  obtain ⟨hafter, hinserts⟩ := Prod.mk.inj hrest
  exact ⟨v, hv, hid, hafter, hinserts⟩

lemma bringBack_carried {first : List Work} {m : MoveMemory}
    (hfixed : work.map Work.fixed = first.map Work.fixed)
    (hwork : ∀ i p, Sits work i p → Carried first m i p)
    (hlands : ∀ w start, first[wi]? = some w → h.text ≠ [] → landing pos shift h = some start →
      Lands w m h start)
    (hb : bringBack wi pos shift work h = some t) {i : ℕ} {p : PlannedAnchor} (hp : Sits t i p) :
    Carried first m i p := by
  obtain ⟨hne, oi, index, source, w, start, hloc, hw, hland, hcase⟩ := bringBack_spec hb
  obtain ⟨o, ho, hsource, hid⟩ := locate_spec hloc
  obtain ⟨v, hv, hfile, hafter, -⟩ := fixed_getElem? hfixed hw
  have hland' := hlands v start
  have hcarried := hwork oi source ⟨o, ho, mem_of_getElem? hsource⟩
  rcases hcase with ⟨side, q, hside, rfl, hq, rfl⟩ | ⟨hside, hatt, -, hslice, rfl⟩
  · rcases sits_modify hp with hp | ⟨rfl, x, hx, hp⟩
    · exact hwork i p hp
    · rcases mem_or_eq_of_mem_set hp with hp | rfl
      · exact hwork i p ⟨x, hx, hp⟩
      · exact .rejoined hcarried hv (hland' hv hne hland) hid.symm hside (hafter ▸ hq)
  · have herased : ∀ j q, Sits (work.modify oi fun o =>
        { o with anchors := o.anchors.eraseIdx index }) j q → Sits work j q := by
      intro j q hq
      rcases sits_modify hq with hq | ⟨rfl, x, hx, hq⟩
      · exact hq
      · exact ⟨x, hx, mem_of_mem_eraseIdx hq⟩
    rcases sits_modify hp with hp | ⟨rfl, x, hx, hp⟩
    · exact hwork i p (herased i p hp)
    · rcases mem_append.1 hp with hp | hp
      · exact hwork i p (herased i p ⟨x, hx, hp⟩)
      · obtain rfl := mem_singleton.1 hp
        obtain ⟨u, hu, hufile, -, -⟩ := fixed_getElem? hfixed ho
        rw [← hfile]
        refine .pinned _ hcarried hatt hv (hland' hv hne hland) hid.symm hside (hafter ▸ hslice) ?_
        rw [ho, hu, Option.map_some, Option.map_some, hufile]

/-- What the second phase keeps, from the files it begins with and what is remembered. -/
structure Kept (first : List Work) (m : MoveMemory) (plan : Plan) : Prop where
  fixed : plan.work.map Work.fixed = first.map Work.fixed
  ids : (anchorIds plan.work).Perm (anchorIds first)
  carried : ∀ i p, Sits plan.work i p → Carried first m i p
  entries : ∀ e ∈ plan.memory.entries, e ∈ m.entries

lemma Kept.start (work : List Work) (m : MoveMemory) : Kept work m ⟨work, m⟩ :=
  ⟨rfl, .refl _, fun _ _ => .stays, fun _ he => he⟩

section Runs

variable {first : List Work} {m : MoveMemory} {plan : Plan}

lemma Kept.bringBack (hk : Kept first m plan)
    (hlands : ∀ w start, first[wi]? = some w → h.text ≠ [] → landing pos shift h = some start →
      Lands w m h start)
    (hb : bringBack wi pos shift plan.work h = some t) : Kept first m ⟨t, plan.memory⟩ :=
  ⟨(bringBack_fixed hb).trans hk.fixed, (bringBack_ids hb).trans hk.ids,
    fun _ _ => bringBack_carried hk.fixed hk.carried hlands hb, hk.entries⟩

lemma Kept.bringNexts {held : List Held} {s : List Work × Bool}
    (hs : Kept first m ⟨s.1, plan.memory⟩)
    (hlands : ∀ h ∈ held, ∀ w start, first[wi]? = some w → h.text ≠ [] →
      landing pos shift h = some start → Lands w m h start) :
    Kept first m ⟨(held.foldl (bringNext wi pos shift) s).1, plan.memory⟩ := by
  induction held generalizing s with
  | nil => exact hs
  | cons h held ih =>
    refine ih ?_ fun g hg => hlands g (mem_cons_of_mem h hg)
    unfold bringNext
    split
    · rename_i work hb
      exact hs.bringBack (hlands h mem_cons_self) hb
    · exact hs

lemma Kept.matchRounds {text : List Char} {w : Work} (hw : first[wi]? = some w)
    (hmem : (pos, text) ∈ w.inserts) (fuel below : ℕ) (claimed : List (ℕ × ℕ × ℕ))
    (hk : Kept first m plan) :
    Kept first m (matchRounds wi pos text fuel below plan claimed).1 := by
  induction fuel generalizing below plan claimed with
  | zero => exact hk
  | succ fuel ih =>
    unfold Anchors.matchRounds
    split
    · exact hk
    · rename_i i hit shift hfind
      obtain ⟨-, e, he, hfound, -⟩ := MoveMemory.find_spec hfind
      rw [he]
      have hentry := hk.entries e (mem_of_getElem? he)
      have hall : Kept first m
          ⟨(bringAll wi (pos + hit) shift plan.work e.held).1, plan.memory⟩ := by
        refine Kept.bringNexts hk fun h hh x start hx hne hland => ?_
        obtain rfl := Option.some.inj (hw.symm.trans hx)
        exact ⟨pos, text, e, hit, shift, hmem, hentry, hfound, hh, hne, hland⟩
      dsimp only
      split_ifs
      · refine ih _ _ ⟨hall.fixed, hall.ids, hall.carried, fun e he => ?_⟩
        exact hall.entries e (mem_of_mem_eraseIdx he)
      · exact ih _ _ hall

lemma mem_tasks {work : List Work} {task : ℕ × ℕ × List Char} (h : task ∈ tasks work) :
    ∃ w, work[task.1]? = some w ∧ task.2 ∈ w.inserts := by
  obtain ⟨⟨w, i⟩, hw, hmem⟩ := mem_flatMap.1 h
  obtain ⟨insertion, hins, rfl⟩ := mem_map.1 hmem
  obtain ⟨hlt, heq⟩ := mem_zipIdx' hw
  exact ⟨w, (getElem?_eq_getElem hlt).trans (congrArg some heq.symm), hins⟩

lemma Kept.matchInsertions {todo : List (ℕ × ℕ × List Char)} (hk : Kept first m plan)
    (htodo : ∀ task ∈ todo, ∃ w, first[task.1]? = some w ∧ task.2 ∈ w.inserts) :
    Kept first m (matchInsertions plan todo) := by
  induction todo generalizing plan with
  | nil => exact hk
  | cons task todo ih =>
    obtain ⟨w, hw, hins⟩ := htodo task mem_cons_self
    exact ih (hk.matchRounds hw hins _ _ _) fun task' h => htodo task' (mem_cons_of_mem _ h)

end Runs

lemma planOperation_kept (files : List OperationFile) (memory : MoveMemory) :
    Kept (planFiles files memory).1 (planFiles files memory).2
      (matchInsertions ⟨(planFiles files memory).1, (planFiles files memory).2⟩
        (tasks (planFiles files memory).1)) :=
  (Kept.start _ _).matchInsertions fun _ => mem_tasks

/-- A held piece of an anchor was found in an insertion that an edit of the file makes. -/
def Matches (file : OperationFile) (m : MoveMemory) (id : ℕ) : Prop :=
  ∃ edit ∈ file.edits, ∃ e ∈ m.entries, found edit.insert e.text ≠ none ∧
    ∃ h ∈ e.held, h.id = id ∧ h.side = none

section

variable {first : List Work} {m : MoveMemory} {i : ℕ} {p : PlannedAnchor}

lemma Carried.detached (h : Carried first m i p) (hp : p.anchor.attached = false) :
    Sits first i p := by
  cases h with
  | stays h => exact h
  | pinned => cases hp
  | rejoined _ _ _ _ _ hq => cases hp.symm.trans (rejoinPiece_spec hq).2.2.2.1

/-- Where an anchor came from. -/
lemma Carried.came (h : Carried first m i p) : ∃ j q, Sits first j q ∧
    q.anchor.id = p.anchor.id ∧
      (j = i ∧ p.origin = q.origin ∨
        ∃ w g start, first[i]? = some w ∧ Lands w m g start ∧ g.id = p.anchor.id ∧
          g.side = none ∧ p.anchor.file = w.fileId ∧
          p.movedFrom = if j = i then q.movedFrom else (first[j]?).map (·.fileId)) := by
  induction h with
  | stays h => exact ⟨_, _, h, rfl, .inl ⟨rfl, rfl⟩⟩
  | pinned movedFrom hc hatt hw hlands hid hside _ hmoved _ =>
    exact ⟨_, _, hc.detached hatt, rfl, .inr ⟨_, _, _, hw, hlands, hid, hside, rfl, hmoved⟩⟩
  | rejoined hc _ _ _ _ hq ih =>
    have horigin := (rejoinPiece_spec hq).2.2.1
    obtain ⟨j, q, hsits, hid, hcase⟩ := ih
    have hsame := congrArg Prod.fst horigin
    have hfile := congrArg (·.2.1) horigin
    have hfrom := congrArg (·.2.2) horigin
    refine ⟨j, q, hsits, hid.trans hsame.symm, ?_⟩
    rcases hcase with ⟨hj, heq⟩ | ⟨w, g, start, hw, hlands, hg, hside, hf, hm⟩
    · exact .inl ⟨hj, horigin.trans heq⟩
    · exact .inr ⟨w, g, start, hw, hlands, hg.trans hsame.symm, hside, hfile.trans hf,
        hfrom.trans hm⟩

end

lemma forall₂_getElem? {α β : Type*} {R : α → β → Prop} {l : List α} {k : List β}
    (h : Forall₂ R l k) {i : ℕ} {b : β} (hb : k[i]? = some b) :
    ∃ a, l[i]? = some a ∧ R a b := by
  induction h generalizing i with
  | nil => cases hb
  | cons hab _ ih =>
    cases i with
    | zero =>
      cases hb
      exact ⟨_, rfl, hab⟩
    | succ i => exact ih hb

lemma planned_ids {files : List OperationFile} {work : List Work}
    (h : Forall₂ Planned files work) : work.map (·.fileId) = files.map (·.fileId) ∧
      anchorIds work = (files.flatMap (·.anchors)).map (·.id) := by
  induction h with
  | nil => exact ⟨rfl, rfl⟩
  | cons hf _ ih =>
    have hids := congrArg (map Prod.fst) hf.anchors
    rw [map_map, map_map] at hids
    refine ⟨by rw [map_cons, map_cons, ih.1, hf.fileId], ?_⟩
    rw [flatMap_cons, map_append, ← ih.2]
    exact congrArg (· ++ _) hids

/-- Every operation, with any files, anchors, edits and memory, keeps the files, and every
anchor id occurs as often after it as before. An anchor that comes out is an anchor that
went in, in its own file, or in a file into which an insertion brought a text that was held
of it. -/
theorem plan_conserves (files : List OperationFile) (memory : MoveMemory) :
    let planned := (planOperation files memory).1
    planned.map (·.fileId) = files.map (·.fileId) ∧
      ((planned.flatMap (·.anchors)).map (·.anchor.id)).Perm
        ((files.flatMap (·.anchors)).map (·.id)) ∧
      ∀ (i : ℕ) (f : PlannedFile) (p : PlannedAnchor), planned[i]? = some f → p ∈ f.anchors →
        ∃ (j : ℕ) (g : OperationFile) (a : Anchor), files[j]? = some g ∧ a ∈ g.anchors ∧ a.id = p.anchor.id ∧
          (j = i ∧ p.anchor.file = a.file ∧ p.movedFrom = none ∨
            p.anchor.file = f.fileId ∧
              p.movedFrom = (if j = i then none else some g.fileId) ∧
              ∃ into, files[i]? = some into ∧
                Matches into (planFiles files memory).2 p.anchor.id) := by
  have hkept := planOperation_kept files memory
  have hplanned := planFiles_planned files memory
  obtain ⟨hnames, hids⟩ := planned_ids hplanned
  set first := (planFiles files memory).1 with hfirst
  set m := (planFiles files memory).2 with hm
  set plan := matchInsertions ⟨first, m⟩ (tasks first) with hplan
  have hout : (planOperation files memory).1 = plan.work.map Work.planned :=
    planOperation_files files memory
  refine ⟨?_, ?_, fun i f p hf hp => ?_⟩
  · have hfixed := congrArg (map Prod.fst) hkept.fixed
    rw [map_map, map_map] at hfixed
    rw [hout, map_map]
    exact hfixed.trans hnames
  · have hflat : ((plan.work.map Work.planned).flatMap (·.anchors)).map (·.anchor.id) =
        anchorIds plan.work := by
      simp [anchorIds, map_flatMap, flatMap_map, Work.planned]
    rw [hout, ← hids, hflat]
    exact hkept.ids
  · rw [hout, getElem?_map] at hf
    obtain ⟨w, hw, rfl⟩ := Option.map_eq_some_iff.1 hf
    obtain ⟨j, q, ⟨v, hv, hq⟩, hid, hcase⟩ := (hkept.carried i p ⟨w, hw, hp⟩).came
    obtain ⟨g, hg, hgv⟩ := forall₂_getElem? hplanned hv
    have hmem : q.origin ∈ v.anchors.map (·.origin) := mem_map_of_mem hq
    rw [hgv.anchors] at hmem
    obtain ⟨a, ha, horigin⟩ := mem_map.1 hmem
    obtain ⟨haid, hrest⟩ := Prod.mk.inj horigin
    obtain ⟨hafile, hafrom⟩ := Prod.mk.inj hrest
    refine ⟨j, g, a, hg, ha, haid.trans hid, ?_⟩
    rcases hcase with ⟨rfl, hsame⟩ | ⟨x, h, start, hx, hlands, hheld, hside, hfile, hfrom⟩
    · obtain ⟨-, hpq⟩ := Prod.mk.inj hsame
      obtain ⟨hpfile, hpfrom⟩ := Prod.mk.inj hpq
      exact .inl ⟨rfl, hpfile.trans hafile.symm, hpfrom.trans hafrom.symm⟩
    · obtain ⟨y, hy, hyfile, -, -⟩ := fixed_getElem? hkept.fixed hw
      obtain rfl := Option.some.inj (hx.symm.trans hy)
      obtain ⟨into, hinto, hix⟩ := forall₂_getElem? hplanned hx
      obtain ⟨pos, text, e, hit, shift, hins, he, hfound, hh, -, -⟩ := hlands
      obtain ⟨edit, hedit, heq⟩ := hix.inserts _ hins
      refine .inr ⟨hfile.trans hyfile, ?_, into, hinto, edit, hedit, e, he, ?_, h, hh, hheld, hside⟩
      · rw [hfrom, ← hafrom, hv, Option.map_some, hgv.fileId]
      · rw [heq, hfound]
        exact Option.some_ne_none _

end LibrePaper.Anchors
