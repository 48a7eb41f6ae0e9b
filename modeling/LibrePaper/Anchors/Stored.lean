import LibrePaper.Anchors.Alike
import LibrePaper.Anchors.Travel

/-!
# Reading a plan back

Once the edits of an operation are applied and its anchors are written, each anchor is read
back as it was planned, unless it is left alone and an edit slips on one of its cursors.
-/
namespace LibrePaper.Anchors
open Library List

section Cursors

variable {t : Strand Char}

lemma nodup_before {a b : List (Elem Char)} {e : Elem Char} (h : t.elems = a ++ e :: b) :
    e.id ∉ ids a := by
  have hnodup := t.nodup
  rw [h, ids_append, ids_cons, nodup_middle, nodup_cons, mem_append, not_or] at hnodup
  exact hnodup.1.1

lemma widthAt_seek {id u : ℕ} {e : Elem Char}
    (h : seek charLenUtf16 id t.elems = some (u, e)) (hlive : e.live = true) :
    widthAt (body t) u = charLenUtf16 e.value := by
  obtain ⟨p, q, hsplit, -, -, rfl⟩ := seek_eq_some h
  unfold widthAt body
  rw [hsplit, standing_append, standing_live hlive, ceilAt_width charLenUtf16_pos, drop_left]

lemma seek_boundary {id u : ℕ} {e : Elem Char}
    (h : seek charLenUtf16 id t.elems = some (u, e)) : Boundary charLenUtf16 (body t) u := by
  obtain ⟨p, q, hsplit, -, -, rfl⟩ := seek_eq_some h
  unfold body
  rw [hsplit, standing_append]
  exact Boundary.left _ _

lemma spanStop_boundary {id : ℕ} {r : ℕ × Elem Char}
    (h : seek charLenUtf16 id t.elems = some r) : Boundary charLenUtf16 (body t) (spanStop r) := by
  obtain ⟨p, q, hsplit, -, -, hu⟩ := seek_eq_some h
  refine ⟨standing p ++ standing [r.2], standing q, ?_, ?_⟩
  · unfold body
    rw [hsplit, ← standing_append, ← standing_append, append_assoc]
    rfl
  · unfold spanStop
    rw [width_append, hu, width_standing_cons]
    rfl

/-- A place whose cursors are on two characters of its file. -/
structure OnChars (place : Place) (file first last : ℕ) : Prop where
  here : place.file = file
  start : place.start = some ⟨file, first⟩
  stop : place.stop = some ⟨file, last⟩
  detached : place.detached = false

/-- The span of two cursors. -/
lemma spanOf_eq {file first last : ℕ} {place : Place} (h : OnChars place file first last)
    {r : ℕ × ℕ} : spanOf file t place = some r ↔ ∃ s e, seek charLenUtf16 first t.elems = some s ∧
      seek charLenUtf16 last t.elems = some e ∧ r = (s.1, max (spanStop e) s.1) := by
  have hpos : ∀ id, cursorPos file t ⟨file, id⟩ =
      (seek charLenUtf16 id t.elems).map fun r => (r.1, !r.2.live) := fun id =>
    if_neg (not_not.2 rfl)
  unfold spanOf
  rw [h.start, h.stop, Option.bind_some, Option.bind_some, hpos, hpos]
  cases hs : seek charLenUtf16 first t.elems with
  | none => simp
  | some s =>
    cases he : seek charLenUtf16 last t.elems with
    | none => simp
    | some e =>
      have hstop : (if (!e.2.live) = true then e.1 else e.1 + widthAt (body t) e.1) =
          spanStop e := by
        unfold spanStop Elem.width
        cases hlive : e.2.live with
        | true =>
          rw [widthAt_seek he hlive]
          rfl
        | false => rfl
      simp only [Option.map_some, Option.some.injEq, hstop]
      constructor
      · rintro rfl
        exact ⟨s, e, rfl, rfl, rfl⟩
      · rintro ⟨s, e, rfl, rfl, rfl⟩
        rfl

end Cursors

/-- An anchor is read with the span of another. -/
def Reads (a b : Anchor) : Prop := b.attached = true ∧ b.start = a.start ∧ b.stop = a.stop

/-- A record is read with the span of an anchor exactly when its cursors are in place. -/
lemma reads_iff {S : Store} {t : Strand Char} {id file first last : ℕ} {place : Place}
    (h : OnChars place file first last) (ht : S.texts file = some t) {a : Anchor}
    (hlt : a.start < a.stop) : Reads a (recordAnchor S (id, place)) ↔ InSync t first last a := by
  have hspan : (S.texts place.file).bind (fun t => spanOf place.file t place) =
      spanOf file t place := by
    rw [h.here, ht, Option.bind_some]
  unfold recordAnchor Reads
  dsimp only
  rw [if_neg (by simp [h.detached]), hspan]
  constructor
  · cases hr : spanOf file t place with
    | none => exact fun hread => by cases hread.1
    | some r =>
      obtain ⟨s, e, hs, he, rfl⟩ := (spanOf_eq h).1 hr
      rintro ⟨-, hstart, hstop⟩
      dsimp only at hstart hstop
      exact ⟨s, e, hs, he, hstart.symm, by omega⟩
  · rintro ⟨s, e, hs, he, hstart, hstop⟩
    rw [(spanOf_eq h).2 ⟨s, e, hs, he, rfl⟩]
    have hmax : max (spanStop e) s.1 = spanStop e := max_eq_left (by omega)
    have hopen : decide (max (spanStop e) s.1 ≤ s.1) = false := decide_eq_false (by omega)
    refine ⟨?_, hstart.symm, hmax.trans hstop.symm⟩
    unfold Anchor.attached
    dsimp only
    rw [hopen]
    rfl

/-- What is read of an attached anchor: its cursors are in place, and it is in the text. -/
lemma recordAnchor_attached {S : Store} {id : ℕ} {place : Place}
    (ha : (recordAnchor S (id, place)).attached = true) : ∃ t first last,
      S.texts place.file = some t ∧ OnChars place place.file first last ∧
        InSync t first last (recordAnchor S (id, place)) ∧
        InText (body t) (recordAnchor S (id, place)) := by
  have hdetached : place.detached = false := by
    by_contra hd
    unfold recordAnchor at ha
    dsimp only at ha
    rw [if_pos (eq_true_of_ne_false hd)] at ha
    cases ha
  cases hspan : (S.texts place.file).bind fun t => spanOf place.file t place with
  | none =>
    unfold recordAnchor at ha
    dsimp only at ha
    rw [if_neg (by simp [hdetached]), hspan] at ha
    cases ha
  | some r =>
    obtain ⟨t, ht, hr⟩ := Option.bind_eq_some_iff.1 hspan
    obtain ⟨first, last, hchars⟩ : ∃ first last, OnChars place place.file first last := by
      unfold spanOf at hr
      split at hr
      · rename_i s e hs he
        obtain ⟨⟨home, first⟩, hstart, hs⟩ := Option.bind_eq_some_iff.1 hs
        obtain ⟨⟨home', last⟩, hstop, he⟩ := Option.bind_eq_some_iff.1 he
        have hhome : ∀ {c : Cursor} {r : ℕ × Bool}, cursorPos place.file t c = some r →
            c.container = place.file := by
          intro c r h
          by_contra hne
          unfold cursorPos at h
          rw [if_pos hne] at h
          cases h
        obtain rfl : home = place.file := hhome hs
        obtain rfl : home' = place.file := hhome he
        exact ⟨first, last, rfl, hstart, hstop, hdetached⟩
      · cases hr
    obtain ⟨s, e, hs, he, rfl⟩ := (spanOf_eq hchars).1 hr
    have heq : recordAnchor S (id, place) = ⟨id, place.file, s.1, max (spanStop e) s.1, false,
        place.fragment, place.offset, place.length, decide (max (spanStop e) s.1 ≤ s.1), false⟩ := by
      unfold recordAnchor
      dsimp only
      rw [if_neg (by simp [hdetached]), hspan]
    rw [heq] at ha ⊢
    have hlt : s.1 < spanStop e := by
      unfold Anchor.attached at ha
      simp at ha
      omega
    have hmax : max (spanStop e) s.1 = spanStop e := max_eq_left hlt.le
    rw [hmax]
    exact ⟨t, first, last, ht, hchars, ⟨s, e, hs, he, rfl, rfl⟩,
      ⟨seek_boundary hs, spanStop_boundary he, hlt⟩⟩

lemma lastCharStart_eq {p q : List Char} {c : Char} (start units : ℕ) :
    lastCharStart (units + lenUtf16 p + charLenUtf16 c) start units (p ++ c :: q) =
      units + lenUtf16 p := by
  have hpos := charLenUtf16_pos c
  induction p generalizing start units with
  | nil =>
    have hzero : lenUtf16 [] = 0 := rfl
    rw [hzero, nil_append, Nat.add_zero]
    unfold lastCharStart
    rw [if_neg (by omega)]
    cases q with
    | nil => rfl
    | cons d q => exact if_pos le_rfl
  | cons d p ih =>
    have hcons : lenUtf16 (d :: p) = charLenUtf16 d + lenUtf16 p := rfl
    have hassoc : units + (charLenUtf16 d + lenUtf16 p) = units + charLenUtf16 d + lenUtf16 p := by
      omega
    rw [cons_append, hcons, hassoc]
    unfold lastCharStart
    rw [if_neg (by omega), ih]

/-- A cursor on a character of the text. -/
lemma cursorAt_eq (file : ℕ) {t : Strand Char} {p q : List Char} {c : Char}
    (h : body t = p ++ c :: q) : ∃ e, cursorAt file t (lenUtf16 p) = some ⟨file, e.id⟩ ∧
      e.live = true ∧ e.value = c ∧
      seek charLenUtf16 e.id t.elems = some (lenUtf16 p, e) := by
  obtain ⟨e, a, b, hat, hlive, hvalue, hsplit, ha⟩ := live_at h
  refine ⟨e, ?_, hlive, hvalue, ?_⟩
  · unfold cursorAt lenUtf16
    rw [h, boundaryAt_width charLenUtf16_pos, Option.bind_some, hat, Option.map_some]
  · have hseek := seek_at (w := charLenUtf16) (q := b) rfl (nodup_before hsplit)
    rw [← hsplit, ha] at hseek
    exact hseek

/-- The cursors that a span gets are in place. -/
lemma fresh_cursors (file : ℕ) {t : Strand Char} {a : Anchor} (h : InText (body t) a) :
    ∃ first last, cursorAt file t a.start = some ⟨file, first⟩ ∧
      cursorAt file t (lastCharStart a.stop 0 0 (body t)) = some ⟨file, last⟩ ∧
      InSync t first last a := by
  obtain ⟨⟨p, q, hpq, hp⟩, ⟨x, y, hxy, hx⟩, hlt⟩ := h
  have hpx := append_split charLenUtf16_pos (hpq.symm.trans hxy) (by omega)
  obtain ⟨d, rfl, rfl⟩ := hpx
  rw [width_append] at hx
  have hd : d ≠ [] := by
    rintro rfl
    rw [width_nil] at hx
    omega
  obtain ⟨c, d', hcons⟩ := exists_cons_of_ne_nil hd
  obtain ⟨z, l, hlast⟩ : ∃ z l, d = z ++ [l] := ⟨_, _, (dropLast_append_getLast hd).symm⟩
  rw [hcons, cons_append] at hpq
  rw [hlast, ← append_assoc, append_assoc (p ++ z), singleton_append] at hxy
  obtain ⟨s, hs, -, -, hseek⟩ := cursorAt_eq file hpq
  obtain ⟨e, he, hlive, hvalue, hseek'⟩ := cursorAt_eq file hxy
  have hstop : a.stop = 0 + lenUtf16 (p ++ z) + charLenUtf16 l := by
    rw [hlast, width_append, width_cons, width_nil] at hx
    unfold lenUtf16
    rw [width_append]
    omega
  refine ⟨s.id, e.id, ?_, ?_, (_, s), (_, e), hseek, hseek', hp.symm, ?_⟩
  · rw [← hp]
    exact hs
  · rw [hxy, hstop, lastCharStart_eq, Nat.zero_add]
    exact he
  · unfold spanStop Elem.width
    rw [hstop, hlive, hvalue, Nat.zero_add]
    rfl

lemma place_eq_some {S : Store} {id : ℕ} {place : Place} :
    S.place id = some place ↔ (id, place) ∈ S.records := by
  unfold Store.place
  constructor
  · intro h
    obtain ⟨r, hr, rfl⟩ := Option.map_eq_some_iff.1 h
    have hid : r.1 = id := by simpa using find?_some hr
    rw [← hid]
    exact mem_of_find?_eq_some hr
  · intro h
    cases hf : S.records.find? fun r => r.1 = id with
    | none =>
      have hno := find?_eq_none.1 hf _ h
      simp at hno
    | some r =>
      have hr := mem_of_find?_eq_some hf
      have hid : r.1 = id := by simpa using find?_some hf
      obtain rfl := inj_on_of_nodup_map S.nodup hr h hid
      rfl

lemma mem_resolveAnchors {S : Store} {file : ℕ} {a : Anchor} : a ∈ resolveAnchors S file ↔
    ∃ place, S.place a.id = some place ∧ place.file = file ∧ a = recordAnchor S (a.id, place) := by
  have hid : ∀ r, (recordAnchor S r).id = r.1 := by
    intro r
    unfold recordAnchor
    dsimp only
    split_ifs
    · rfl
    · split
      all_goals rfl
  unfold resolveAnchors
  constructor
  · intro h
    obtain ⟨⟨id, place⟩, hr, rfl⟩ := mem_map.1 h
    obtain ⟨hmem, hfile⟩ := mem_filter.1 hr
    rw [hid]
    exact ⟨place, place_eq_some.2 hmem, of_decide_eq_true hfile, rfl⟩
  · rintro ⟨place, hplace, hfile, heq⟩
    rw [heq]
    exact mem_map_of_mem (mem_filter.2 ⟨place_eq_some.1 hplace, decide_eq_true hfile⟩)

lemma putPlace_other {S : Store} {r : ℕ × Place} {id : ℕ} (h : r.1 ≠ id) :
    (S.putPlace r).place id = S.place id := by
  apply Option.ext
  intro place
  rw [place_eq_some, place_eq_some]
  show (id, place) ∈ S.records.map _ ↔ _
  rw [mem_map]
  constructor
  · rintro ⟨s, hs, heq⟩
    split_ifs at heq with hid
    · exact absurd (congrArg Prod.fst heq) h
    · exact heq ▸ hs
  · intro hmem
    exact ⟨_, hmem, if_neg fun hid => h hid.symm⟩

lemma putPlace_same {S : Store} {r : ℕ × Place} (h : S.place r.1 ≠ none) :
    (S.putPlace r).place r.1 = some r.2 := by
  obtain ⟨place, hplace⟩ := Option.ne_none_iff_exists'.1 h
  rw [place_eq_some]
  exact mem_map.2 ⟨_, place_eq_some.1 hplace, if_pos rfl⟩

lemma foldl_putPlace_other {l : List (ℕ × Place)} {S : Store} {id : ℕ}
    (h : ∀ r ∈ l, r.1 ≠ id) : (l.foldl Store.putPlace S).place id = S.place id := by
  induction l generalizing S with
  | nil => rfl
  | cons r l ih =>
    rw [foldl_cons, ih fun s hs => h s (mem_cons_of_mem r hs), putPlace_other (h r mem_cons_self)]

/-- A place that is stored once is the one that is found. -/
lemma foldl_putPlace_mem {l : List (ℕ × Place)} {S : Store} (hnodup : (l.map Prod.fst).Nodup)
    {r : ℕ × Place} (hr : r ∈ l) (h : S.place r.1 ≠ none) :
    (l.foldl Store.putPlace S).place r.1 = some r.2 := by
  induction l generalizing S with
  | nil => cases hr
  | cons s l ih =>
    rw [map_cons, nodup_cons] at hnodup
    rw [foldl_cons]
    rcases mem_cons.1 hr with rfl | hr
    · have hother : ∀ s ∈ l, s.1 ≠ r.1 := fun s hs heq => hnodup.1 (heq ▸ mem_map_of_mem hs)
      rw [foldl_putPlace_other hother]
      exact putPlace_same h
    · refine ih hnodup.2 hr ?_
      rw [putPlace_other fun heq => hnodup.1 (heq ▸ mem_map_of_mem hr)]
      exact h

lemma foldl_putPlace_texts (l : List (ℕ × Place)) (S : Store) :
    (l.foldl Store.putPlace S).texts = S.texts := by
  induction l generalizing S with
  | nil => rfl
  | cons r l ih =>
    rw [foldl_cons, ih]
    rfl

lemma pendingPlace_id {S : Store} {file : PlannedFile} {p : PlannedAnchor} {r : ℕ × Place}
    (h : pendingPlace S file p = some r) : r.1 = p.anchor.id ∧ S.place p.anchor.id ≠ none := by
  unfold pendingPlace at h
  dsimp only at h
  by_cases hskip : p.state ≠ .set ∨ p.anchor.detached = false ∧ p.touched = false
  · rw [if_pos hskip] at h
    cases h
  rw [if_neg hskip] at h
  cases hstored : S.place p.anchor.id with
  | none =>
    rw [hstored] at h
    cases h
  | some stored =>
    rw [hstored] at h
    dsimp only at h
    refine ⟨?_, Option.some_ne_none _⟩
    by_cases hd : p.anchor.detached = true
    · rw [if_pos hd] at h
      cases h
      rfl
    rw [if_neg hd] at h
    cases ht : S.texts file.fileId with
    | none =>
      rw [ht] at h
      cases h
    | some t =>
      rw [ht] at h
      dsimp only at h
      by_cases hle : p.anchor.stop ≤ p.anchor.start
      · rw [if_pos hle] at h
        cases h
      rw [if_neg hle] at h
      split at h
      · cases h
        rfl
      · cases h

lemma pendingPlace_detached {S : Store} {p : PlannedAnchor} {stored : Place}
    (hset : p.state = .set) (hd : p.anchor.detached = true)
    (hstored : S.place p.anchor.id = some stored) (file : PlannedFile) : pendingPlace S file p =
      some (p.anchor.id, ⟨file.fileId, stored.start, stored.stop, true, p.anchor.length,
        p.anchor.fragment, p.anchor.offset⟩) := by
  unfold pendingPlace
  dsimp only
  rw [if_neg (by simp [hset, hd]), hstored]
  dsimp only
  rw [if_pos hd]

lemma detached_of_attached {a : Anchor} (h : a.attached = true) : a.detached = false := by
  unfold Anchor.attached at h
  simp only [Bool.and_eq_true, Bool.not_eq_true'] at h
  exact h.1.1

/-- An attached anchor that was touched gets cursors that are in place. -/
lemma pendingPlace_attached {S : Store} {file : PlannedFile} {p : PlannedAnchor}
    {t : Strand Char} (hset : p.state = .set) (htouched : p.touched = true)
    (ha : p.anchor.attached = true) (hstored : S.place p.anchor.id ≠ none)
    (ht : S.texts file.fileId = some t) (hin : InText (body t) p.anchor) :
    ∃ first last, pendingPlace S file p = some (p.anchor.id,
        .attached file.fileId ⟨file.fileId, first⟩ ⟨file.fileId, last⟩) ∧
      InSync t first last p.anchor := by
  obtain ⟨stored, hstored⟩ := Option.ne_none_iff_exists'.1 hstored
  obtain ⟨first, last, hfirst, hlast, hsync⟩ := fresh_cursors file.fileId hin
  have hd := detached_of_attached ha
  refine ⟨first, last, ?_, hsync⟩
  unfold pendingPlace
  dsimp only
  rw [if_neg (by simp [hset, htouched]), hstored]
  dsimp only
  rw [if_neg (by simp [hd]), ht]
  dsimp only
  rw [if_neg (Nat.not_le.2 hin.lt), hfirst, hlast]

section Written

variable {S : Store} {planned : List PlannedFile}

/-- Every anchor is planned once. -/
def PlannedOnce (planned : List PlannedFile) : Prop :=
  (planned.flatMap fun f => f.anchors.map (·.anchor.id)).Nodup

lemma pending_sublist (S : Store) (planned : List PlannedFile) :
    Sublist ((planned.flatMap fun f => f.anchors.filterMap (pendingPlace S f)).map Prod.fst)
      (planned.flatMap fun f => f.anchors.map (·.anchor.id)) := by
  have hone : ∀ (f : PlannedFile) (l : List PlannedAnchor),
      Sublist ((l.filterMap (pendingPlace S f)).map Prod.fst) (l.map (·.anchor.id)) := by
    intro f l
    induction l with
    | nil => exact Sublist.refl _
    | cons p l ih =>
      cases hp : pendingPlace S f p with
      | none =>
        rw [filterMap_cons_none hp, map_cons]
        exact ih.cons _
      | some r =>
        rw [filterMap_cons_some hp, map_cons, map_cons, (pendingPlace_id hp).1]
        exact ih.cons_cons _
  induction planned with
  | nil => exact Sublist.refl _
  | cons f planned ih =>
    rw [flatMap_cons, flatMap_cons, map_append]
    exact (hone f f.anchors).append ih

lemma written_place (h : PlannedOnce planned) {f : PlannedFile} (hf : f ∈ planned)
    {p : PlannedAnchor} (hp : p ∈ f.anchors) {r : ℕ × Place} (hr : pendingPlace S f p = some r) :
    (writeAnchors S planned).place p.anchor.id = some r.2 := by
  obtain ⟨hid, hplace⟩ := pendingPlace_id hr
  rw [← hid] at hplace ⊢
  exact foldl_putPlace_mem (h.sublist (pending_sublist S planned))
    (mem_flatMap.2 ⟨f, hf, mem_filterMap.2 ⟨p, hp, hr⟩⟩) hplace

/-- An anchor that is not written keeps its place. -/
lemma kept_place {id : ℕ}
    (h : ∀ f ∈ planned, ∀ p ∈ f.anchors, p.anchor.id = id → pendingPlace S f p = none) :
    (writeAnchors S planned).place id = S.place id := by
  refine foldl_putPlace_other fun r hr heq => ?_
  obtain ⟨f, hf, hr⟩ := mem_flatMap.1 hr
  obtain ⟨p, hp, hr⟩ := mem_filterMap.1 hr
  rw [h f hf p hp ((pendingPlace_id hr).1.symm.trans heq)] at hr
  cases hr

end Written

/-- What following the edits makes of an anchor: it rests, is detached, or stays attached, and
then has moved if it was touched. -/
structure Settled (a : Anchor) (f : Followed) : Prop where
  id : f.planned.anchor.id = a.id
  rest : a.attached = false → f.planned = ⟨a, .kept, false, none⟩
  detached : a.attached = true → f.planned.anchor.attached = false →
    f.planned.anchor.detached = true ∧ f.planned.state = .set
  moved : f.planned.anchor.attached = true → f.planned.touched = true → f.moved = true

section Settle

variable {fragments : List FragmentRange} {a : Anchor} {f : Followed}

lemma Settled.attached (h : Settled a f) (hf : f.planned.anchor.attached = true) :
    a.attached = true := by
  by_contra ha
  rw [h.rest (Bool.eq_false_iff.2 ha)] at hf
  exact ha hf

lemma Settled.cut (h : Settled a f) {index ef et : ℕ} (hlt : ef < et) :
    Settled a (cutAnchor fragments [] index ef et f).1 := by
  unfold cutAnchor
  dsimp only
  by_cases hatt : f.planned.anchor.attached = false
  · rw [if_pos hatt]
    exact ⟨h.id, h.rest, h.detached, h.moved⟩
  rw [if_neg hatt]
  have ha := h.attached (eq_true_of_ne_false hatt)
  by_cases hcovered : ef ≤ f.planned.anchor.start ∧ f.planned.anchor.stop ≤ et
  · rw [if_pos hcovered]
    exact ⟨h.id, fun hno => absurd ha (Bool.eq_false_iff.1 hno), fun _ _ => ⟨rfl, rfl⟩,
      fun hin => by cases hin⟩
  · rw [if_neg hcovered]
    refine ⟨h.id, fun hno => absurd ha (Bool.eq_false_iff.1 hno), fun _ hno => absurd hno hatt,
      fun _ ht => ?_⟩
    dsimp only at ht ⊢
    rw [Bool.or_eq_true, decide_eq_true_eq] at ht ⊢
    rcases ht with ht | ⟨hstart, hstop⟩
    · exact .inl (h.moved (eq_true_of_ne_false hatt) ht)
    · right
      right
      unfold afterDelete
      split_ifs <;> omega

lemma Settled.grown (h : Settled a f) (ef n : ℕ) : Settled a (f.grown ef n) := by
  unfold Followed.grown
  split_ifs
  · unfold insertAnchor
    dsimp only
    by_cases hatt : f.planned.anchor.attached = false
    · rw [if_pos hatt]
      exact h
    rw [if_neg hatt]
    have ha := h.attached (eq_true_of_ne_false hatt)
    have hno : ¬a.attached = false := fun hno => absurd ha (Bool.eq_false_iff.1 hno)
    split_ifs
    · exact ⟨h.id, fun hrest => absurd hrest hno, fun _ hf => absurd hf hatt, fun _ _ => rfl⟩
    · exact ⟨h.id, fun hrest => absurd hrest hno, fun _ hf => absurd hf hatt, fun _ _ => rfl⟩
    · exact ⟨h.id, fun hrest => absurd hrest hno, fun _ hf => absurd hf hatt, fun _ _ => rfl⟩
    · exact h
  · exact h

lemma Settled.edit (h : Settled a f) (index ef n : ℕ) {et : ℕ} :
    Settled a (f.edit fragments index ef et n) := by
  unfold Followed.edit
  split_ifs with hskip hcut
  · exact h
  · exact (h.cut hcut).grown ef n
  · have hsame : Settled a { f with overlapped := false } := ⟨h.id, h.rest, h.detached, h.moved⟩
    exact hsame.grown ef n

lemma Settled.run (h : Settled a f) (index : ℕ) (adj : ℤ) (edits : List Edit) :
    Settled a (f.run fragments index adj edits) := by
  induction edits generalizing index adj f with
  | nil => exact h
  | cons e edits ih => exact ih (h.edit index _ _) _ _

end Settle

/-- An anchor as the first phase starts with it. -/
def Anchor.followed (a : Anchor) : Followed := ⟨⟨a, .kept, false, none⟩, false, false⟩

lemma Settled.start (a : Anchor) : Settled a a.followed :=
  ⟨rfl, fun _ => rfl, fun ha hf => absurd ha (Bool.eq_false_iff.1 hf), nofun⟩

/-- The anchors of a file after the first phase. -/
lemma planFile_anchors (file : OperationFile) (memory : MoveMemory) :
    (planFile file memory).1.anchors = file.anchors.map fun a =>
      (a.followed.run file.fragments 0 0 file.edits).settle := by
  unfold planFile followEdits
  dsimp only
  rw [foldl_anchors]
  unfold Following.start
  dsimp only
  rw [map_map, map_map]
  rfl

/-- What the first phase makes of a file: its anchors after all edits, and the body that the
edits leave. -/
structure Follows (insertion : List (Elem Char) → ℕ → ℕ) (file : OperationFile) (work : Work) :
    Prop where
  fileId : work.fileId = file.fileId
  anchors : work.anchors = file.anchors.map fun a =>
    (a.followed.run file.fragments 0 0 file.edits).settle
  after : ∀ t, body t = file.before → Fits file.before 0 file.edits →
    body (editTexts insertion 0 file.edits t) = work.after

lemma planFiles_follows {insertion : List (Elem Char) → ℕ → ℕ} (hi : Inserts insertion)
    (files : List OperationFile) (memory : MoveMemory) :
    Forall₂ (Follows insertion) files (planFiles files memory).1 := by
  induction files generalizing memory with
  | nil => exact .nil
  | cons file files ih =>
    refine .cons ⟨rfl, planFile_anchors file memory, fun t ht hfits => ?_⟩ (ih _)
    exact editTexts_body hi file.edits 0 (s := .start file memory) hfits ht

lemma rejoinPiece_set {after : List Char} {p q : PlannedAnchor} {side : Side} {start : ℕ}
    {text : List Char} (h : rejoinPiece after p side start text = some q) :
    q.touched = true ∧ q.state = .set := by
  unfold rejoinPiece at h
  cases side with
  | head =>
    dsimp only at h
    split_ifs at h
    cases h
    exact ⟨rfl, rfl⟩
  | tail =>
    dsimp only at h
    split_ifs at h
    cases h
    exact ⟨rfl, rfl⟩

section Plans

variable {first : List Work} {m : MoveMemory}

lemma Carried.cases {i : ℕ} {p : PlannedAnchor} (h : Carried first m i p) : Sits first i p ∨
    p.anchor.attached = true ∧ p.touched = true ∧ p.state = .set := by
  cases h with
  | stays h => exact .inl h
  | pinned => exact .inr ⟨rfl, rfl, rfl⟩
  | rejoined _ _ _ _ _ hq => exact .inr ⟨(rejoinPiece_spec hq).2.2.2.1, rejoinPiece_set hq⟩

lemma Lands.read {w : Work} {h : Held} {start : ℕ} (hw : w.Ok) (hsound : m.Sound)
    (hl : Lands w m h start)
    (hread : slice16Widened w.after start (start + lenUtf16 h.text) = h.text) :
    h.text ≠ [] ∧ ∃ p q, w.after = p ++ h.text ++ q ∧ lenUtf16 p = start := by
  obtain ⟨pos, text, e, hit, shift, hins, he, hfound, hh, hne, hland⟩ := hl
  exact ⟨hne, read_at hne (landing_readable (hw.inserts _ hins) hfound (hsound e he h hh) hne hland)
    hread⟩

/-- Every anchor that a plan attaches is in the text of its file. -/
lemma Carried.inText (hok : ∀ w ∈ first, w.Ok) (hsound : m.Sound) {i : ℕ} {p : PlannedAnchor}
    (h : Carried first m i p) : ∀ w, first[i]? = some w → p.anchor.attached = true →
      InText w.after p.anchor := by
  have hwide : ∀ {text : List Char}, text ≠ [] → 0 < lenUtf16 text := fun hne =>
    Nat.pos_of_ne_zero fun hzero => hne (width_eq_zero charLenUtf16_pos hzero)
  induction h with
  | stays h =>
    intro w hw ha
    obtain ⟨v, hv, hp⟩ := h
    obtain rfl := Option.some.inj (hv.symm.trans hw)
    exact (hok v (mem_of_getElem? hv)).anchors _ hp ha
  | pinned movedFrom _ _ hw hl _ _ hread _ _ =>
    intro v hv _
    obtain rfl := Option.some.inj (hw.symm.trans hv)
    obtain ⟨hne, p, q, heq, hp⟩ := hl.read (hok _ (mem_of_getElem? hw)) hsound hread
    refine ⟨⟨p, _, heq.trans (append_assoc _ _ _), hp⟩, ⟨_, q, heq, ?_⟩, ?_⟩
    · rw [width_append]
      exact congrArg (· + _) hp
    · exact Nat.lt_add_of_pos_right (hwide hne)
  | rejoined _ hw hl _ _ hq ih =>
    intro v hv _
    obtain rfl := Option.some.inj (hw.symm.trans hv)
    obtain ⟨hread, ha, -, -, hcase⟩ := rejoinPiece_spec hq
    obtain ⟨hne, p, q, heq, hp⟩ := hl.read (hok _ (mem_of_getElem? hw)) hsound hread
    obtain ⟨hstart, hstop, hlt⟩ := ih _ hw ha
    have hpos := hwide hne
    have hend : Boundary charLenUtf16 _ (lenUtf16 p + lenUtf16 _) := ⟨_, q, heq, width_append _ _ _⟩
    rcases hcase with ⟨-, hedge, hs, he⟩ | ⟨-, hedge, hs, he⟩
    · refine ⟨?_, ?_, ?_⟩
      · rw [hs]
        exact ⟨p, _, heq.trans (append_assoc _ _ _), hp⟩
      · rw [he]
        exact hstop
      · omega
    · refine ⟨?_, ?_, ?_⟩
      · rw [hs]
        exact hstart
      · rw [he, ← hp]
        exact hend
      · omega

end Plans

/-- The files of an operation, as they are read from the store: each has its text, its anchors,
and edits that ascend. -/
structure Operates (S : Store) (files : List OperationFile) : Prop where
  once : (files.map (·.fileId)).Nodup
  text : ∀ f ∈ files, ∃ t, S.texts f.fileId = some t ∧ body t = f.before
  anchors : ∀ f ∈ files, f.anchors = resolveAnchors S f.fileId
  edits : ∀ f ∈ files, Ascending f.before 0 f.edits

/-- An edit slips on a cursor of the anchor. -/
def Store.slips (insertion : List (Elem Char) → ℕ → ℕ) (S : Store) (file : OperationFile)
    (id : ℕ) : Bool :=
  match S.texts file.fileId, (S.place id).bind Place.start, (S.place id).bind Place.stop with
  | some t, some first, some last => Anchors.slips insertion first.char last.char 0 file.edits t
  | _, _, _ => false

/-- No edit slips on a cursor of an anchor that the plan attaches and leaves alone. -/
def Undisturbed (insertion : List (Elem Char) → ℕ → ℕ) (S : Store) (files : List OperationFile)
    (planned : List PlannedFile) : Prop :=
  ∀ file ∈ files, ∀ f ∈ planned, f.fileId = file.fileId → ∀ p ∈ f.anchors,
    p.anchor.attached = true → p.touched = false → S.slips insertion file p.anchor.id = false

/-- The files hold the anchors that are planned, each detached if it is planned so, and the
attached ones with their spans. -/
def ReadsBack (T : Store) (planned : List PlannedFile) : Prop :=
  ∀ f ∈ planned,
    (∀ p ∈ f.anchors, ∃ a ∈ resolveAnchors T f.fileId, a.id = p.anchor.id ∧
      a.detached = p.anchor.detached ∧ (p.anchor.attached = true → Reads p.anchor a)) ∧
    ∀ a ∈ resolveAnchors T f.fileId, ∃ p ∈ f.anchors, p.anchor.id = a.id

lemma recordAnchor_detached (S : Store) (r : ℕ × Place) :
    (recordAnchor S r).detached = r.2.detached := by
  unfold recordAnchor
  dsimp only
  split_ifs with hd
  · exact hd.symm
  · split
    all_goals exact (Bool.eq_false_iff.2 hd).symm

lemma recordAnchor_id (S : Store) (r : ℕ × Place) : (recordAnchor S r).id = r.1 := by
  unfold recordAnchor
  dsimp only
  split_ifs
  · rfl
  · split
    all_goals rfl

lemma PlannedOnce.eq {planned : List PlannedFile} (h : PlannedOnce planned) {f g : PlannedFile}
    (hf : f ∈ planned) (hg : g ∈ planned) {p q : PlannedAnchor} (hp : p ∈ f.anchors)
    (hq : q ∈ g.anchors) (hid : p.anchor.id = q.anchor.id) : f = g ∧ p = q := by
  obtain ⟨hone, hpair⟩ := nodup_flatMap.1 h
  have hfg : f = g := by
    by_contra hne
    have hsymm : Std.Symm (Function.onFun Disjoint fun f : PlannedFile =>
        f.anchors.map (·.anchor.id)) := ⟨fun _ _ hd _ hx hy => hd hy hx⟩
    exact hpair.forall hf hg hne (mem_map_of_mem hp) (hid ▸ mem_map_of_mem hq)
  subst hfg
  exact ⟨rfl, inj_on_of_nodup_map (hone f hf) hp hq hid⟩

section Reading

variable {S : Store} {files : List OperationFile}

lemma Operates.wellFormed (h : Operates S files) : ∀ f ∈ files, WellFormed f := by
  intro f hf
  refine ⟨(h.edits f hf).fits, fun a ha hatt => ?_⟩
  rw [h.anchors f hf] at ha
  obtain ⟨place, -, hfile, heq⟩ := mem_resolveAnchors.1 ha
  rw [heq] at hatt
  obtain ⟨t, first, last, ht, -, -, hin⟩ := recordAnchor_attached hatt
  obtain ⟨t', ht', hbody⟩ := h.text f hf
  rw [hfile] at ht
  obtain rfl := Option.some.inj (ht.symm.trans ht')
  rw [heq, ← hbody]
  exact hin

/-- Each anchor is in one file. -/
lemma Operates.ids (h : Operates S files) : ((files.flatMap (·.anchors)).map (·.id)).Nodup := by
  rw [map_flatMap, nodup_flatMap]
  constructor
  · intro f hf
    have hsub : Sublist (f.anchors.map (·.id)) (S.records.map Prod.fst) := by
      rw [h.anchors f hf]
      unfold resolveAnchors
      rw [map_map]
      have hcomp : (fun a : Anchor => a.id) ∘ recordAnchor S = Prod.fst :=
        funext fun r => recordAnchor_id S r
      rw [hcomp]
      exact filter_sublist.map _
    exact S.nodup.sublist hsub
  · refine (pairwise_map.1 h.once).imp_of_mem ?_
    intro f g hf hg hne
    rw [Function.onFun, disjoint_left]
    intro id hid hid'
    obtain ⟨a, ha, rfl⟩ := mem_map.1 hid
    obtain ⟨b, hb, heq⟩ := mem_map.1 hid'
    rw [h.anchors f hf] at ha
    rw [h.anchors g hg] at hb
    obtain ⟨place, hplace, hfile, -⟩ := mem_resolveAnchors.1 ha
    obtain ⟨place', hplace', hfile', -⟩ := mem_resolveAnchors.1 hb
    rw [heq, hplace] at hplace'
    cases hplace'
    exact hne (hfile.symm.trans hfile')

lemma Operates.edited_text (h : Operates S files) (insertion : List (Elem Char) → ℕ → ℕ)
    {f : OperationFile} (hf : f ∈ files) {t : Strand Char} (ht : S.texts f.fileId = some t) :
    (S.edited insertion files).texts f.fileId = some (editTexts insertion 0 f.edits t) := by
  have hfind : (files.find? fun g => g.fileId = f.fileId) = some f := by
    cases hfound : files.find? fun g => g.fileId = f.fileId with
    | none =>
      have hno := find?_eq_none.1 hfound f hf
      simp at hno
    | some g =>
      have hid : g.fileId = f.fileId := by simpa using find?_some hfound
      rw [inj_on_of_nodup_map h.once (mem_of_find?_eq_some hfound) hf hid]
  unfold Store.edited
  dsimp only
  rw [ht, Option.map_some, hfind]

/-- An attached anchor that no edit touches is read as the edits leave it exactly when none of
them slips on its cursors. -/
lemma Operates.untouched (h : Operates S files) {insertion : List (Elem Char) → ℕ → ℕ}
    (hi : Inserts insertion) (memory : MoveMemory) {f : OperationFile} (hf : f ∈ files) {a : Anchor}
    (ha : a ∈ f.anchors) (hatt : (a.followed.run f.fragments 0 0 f.edits).planned.anchor.attached = true)
    (hun : (a.followed.run f.fragments 0 0 f.edits).planned.touched = false) {T : Store}
    (hT : T.place a.id = S.place a.id) (htexts : T.texts = (S.edited insertion files).texts)
    (hlt : (a.followed.run f.fragments 0 0 f.edits).planned.anchor.start <
      (a.followed.run f.fragments 0 0 f.edits).planned.anchor.stop) :
    ∃ place, T.place a.id = some place ∧ place.file = f.fileId ∧
      (Reads (a.followed.run f.fragments 0 0 f.edits).planned.anchor (recordAnchor T (a.id, place)) ↔
        S.slips insertion f a.id = false) := by
  have hwell := h.wellFormed f hf
  have hfollowed : a.followed ∈ (Following.start f memory).anchors := mem_map_of_mem ha
  have hattached := (run_untouched hatt hun).1
  obtain ⟨t, ht, hbody⟩ := h.text f hf
  rw [h.anchors f hf] at ha
  obtain ⟨place, hplace, hfile, heq⟩ := mem_resolveAnchors.1 ha
  have hread : (recordAnchor S (a.id, place)).attached = true := heq ▸ hattached
  obtain ⟨t', first, last, ht', hchars, hsync, -⟩ := recordAnchor_attached hread
  rw [hfile] at ht' hchars
  obtain rfl := Option.some.inj (ht.symm.trans ht')
  rw [← heq] at hsync
  have hfine : Fine (Following.start f memory) := by
    refine ⟨fun g hg hg' => ?_, nofun⟩
    obtain ⟨b, hb, rfl⟩ := mem_map.1 hg
    exact hwell.anchors b hb hg'
  have hrun := hsync.run hi f.edits 0 hfine hwell.edits (h.edits f hf) hbody hfollowed hatt hun
  have hadj : (Following.start f memory).adj = 0 := rfl
  rw [hadj] at hrun
  have hslips : S.slips insertion f a.id = slips insertion first last 0 f.edits t := by
    unfold Store.slips
    rw [ht, hplace, Option.bind_some, Option.bind_some, hchars.start, hchars.stop]
  have htext : T.texts f.fileId = some (editTexts insertion 0 f.edits t) := by
    rw [htexts]
    exact h.edited_text insertion hf ht
  refine ⟨place, hT.trans hplace, hfile, ?_⟩
  rw [reads_iff hchars htext hlt, hslips]
  by_cases hslip : slips insertion first last 0 f.edits t = true
  · rw [if_pos hslip] at hrun
    obtain ⟨m, hm⟩ := hrun
    exact iff_of_false hm.not_inSync (by simp [hslip])
  · rw [if_neg hslip] at hrun
    exact iff_of_true hrun (Bool.eq_false_iff.2 hslip)

/-- The plan of an operation. -/
structure Plans (insertion : List (Elem Char) → ℕ → ℕ) (files : List OperationFile)
    (planned : List PlannedFile) : Prop where
  names : planned.map (·.fileId) = files.map (·.fileId)
  ids : (planned.flatMap fun f => f.anchors.map (·.anchor.id)).Perm
    ((files.flatMap (·.anchors)).map (·.id))
  carried : ∀ f ∈ planned, ∃ file ∈ files, ∃ w, Follows insertion file w ∧
    f.fileId = file.fileId ∧ ∀ p ∈ f.anchors,
      (p.anchor.attached = true → InText w.after p.anchor) ∧ (p ∈ w.anchors ∨
        p.anchor.id ∈ (files.flatMap (·.anchors)).map (·.id) ∧
          p.anchor.attached = true ∧ p.touched = true ∧ p.state = .set)

lemma Operates.plans (h : Operates S files) {insertion : List (Elem Char) → ℕ → ℕ}
    (hi : Inserts insertion) {memory : MoveMemory} (hsound : memory.Sound) :
    Plans insertion files (planOperation files memory).1 := by
  have hwell := h.wellFormed
  have hkept := planOperation_kept files memory
  have hfollows := planFiles_follows hi files memory
  have hok := planFiles_ok hwell memory
  have hsound' := (planFiles_inUnits hwell hsound).2
  obtain ⟨hnames, hids⟩ := planned_ids (planFiles_planned files memory)
  rw [planOperation_files]
  set first := (planFiles files memory).1
  set m := (planFiles files memory).2
  set plan := matchInsertions ⟨first, m⟩ (tasks first)
  have hperm : ((plan.work.map Work.planned).flatMap fun f => f.anchors.map (·.anchor.id)).Perm
      ((files.flatMap (·.anchors)).map (·.id)) := by
    rw [flatMap_map, ← hids]
    exact hkept.ids
  refine ⟨?_, hperm, fun f hf => ?_⟩
  · have hfixed := congrArg (map Prod.fst) hkept.fixed
    rw [map_map, map_map] at hfixed
    rw [map_map]
    exact hfixed.trans hnames
  · obtain ⟨w, hw, rfl⟩ := mem_map.1 hf
    obtain ⟨i, hi⟩ := mem_iff_getElem?.1 hw
    obtain ⟨v, hv, hfile, hafter, -⟩ := fixed_getElem? hkept.fixed hi
    obtain ⟨file, hfile', hfv⟩ := forall₂_getElem? hfollows hv
    refine ⟨file, mem_of_getElem? hfile', v, hfv, hfile.symm.trans hfv.fileId, fun p hp => ?_⟩
    have hcarried := hkept.carried i p ⟨w, hi, hp⟩
    refine ⟨hcarried.inText hok hsound' v hv, ?_⟩
    rcases hcarried.cases with ⟨v', hv', hp'⟩ | hset
    · obtain rfl := Option.some.inj (hv'.symm.trans hv)
      exact .inl hp'
    · refine .inr ⟨hperm.subset ?_, hset⟩
      exact mem_flatMap.2 ⟨_, hf, mem_map_of_mem hp⟩

lemma Plans.once (h : Operates S files) {insertion : List (Elem Char) → ℕ → ℕ}
    {planned : List PlannedFile} (hp : Plans insertion files planned) : PlannedOnce planned :=
  hp.ids.nodup_iff.2 h.ids

/-- A planned anchor is in its file, detached if it is planned so, and read with the planned
span exactly when it was touched or no edit slips on it. -/
def ReadsOne (insertion : List (Elem Char) → ℕ → ℕ) (S : Store) (files : List OperationFile)
    (T : Store) (f : PlannedFile) (p : PlannedAnchor) : Prop :=
  ∃ place, T.place p.anchor.id = some place ∧ place.file = f.fileId ∧
    place.detached = p.anchor.detached ∧ (p.anchor.attached = true →
      (Reads p.anchor (recordAnchor T (p.anchor.id, place)) ↔
        (p.touched = false → ∀ file ∈ files, file.fileId = f.fileId →
          S.slips insertion file p.anchor.id = false)))

section One

variable {insertion : List (Elem Char) → ℕ → ℕ} {planned : List PlannedFile} {f : PlannedFile}
  {p : PlannedAnchor}

lemma Operates.stored (h : Operates S files) {file : OperationFile} (hf : file ∈ files) {a : Anchor}
    (ha : a ∈ file.anchors) : ∃ place, S.place a.id = some place ∧ place.file = file.fileId ∧
      place.detached = a.detached := by
  rw [h.anchors file hf] at ha
  obtain ⟨place, hplace, hfile, heq⟩ := mem_resolveAnchors.1 ha
  exact ⟨place, hplace, hfile, by rw [heq, recordAnchor_detached]⟩

/-- What is set and touched is written. -/
lemma Operates.reads_written (h : Operates S files) (hplans : Plans insertion files planned)
    (hf : f ∈ planned) (hp : p ∈ f.anchors) (ha : p.anchor.attached = true)
    (htouched : p.touched = true) (hset : p.state = .set) (hplace : S.place p.anchor.id ≠ none) :
    ReadsOne insertion S files (writeAnchors (S.edited insertion files) planned) f p := by
  obtain ⟨file, hmem, w, hfw, hname, hanchors⟩ := hplans.carried f hf
  obtain ⟨t, ht, hbody⟩ := h.text file hmem
  have hin := (hanchors p hp).1 ha
  rw [← hfw.after t hbody (h.edits file hmem).fits] at hin
  have htext := h.edited_text insertion hmem ht
  rw [← hname] at htext
  obtain ⟨first, last, hpending, hsync⟩ := pendingPlace_attached (S := S.edited insertion files)
    hset htouched ha hplace htext hin
  refine ⟨_, written_place (hplans.once h) hf hp hpending, rfl, ?_, fun _ => ?_⟩
  · exact (detached_of_attached ha).symm
  · have hchars : OnChars (.attached f.fileId ⟨f.fileId, first⟩ ⟨f.fileId, last⟩) f.fileId first
        last := ⟨rfl, rfl, rfl, rfl⟩
    refine iff_of_true ?_ fun hno => by rw [hno] at htouched; cases htouched
    refine (reads_iff hchars ?_ hin.lt).2 hsync
    rw [← htext]
    exact congrFun (foldl_putPlace_texts _ _) _

lemma Plans.kept (h : Operates S files) (hplans : Plans insertion files planned)
    (hf : f ∈ planned) (hp : p ∈ f.anchors)
    (hnone : pendingPlace (S.edited insertion files) f p = none) :
    (writeAnchors (S.edited insertion files) planned).place p.anchor.id = S.place p.anchor.id := by
  refine kept_place fun g hg q hq heq => ?_
  obtain ⟨rfl, rfl⟩ := (hplans.once h).eq hg hf hq hp heq
  exact hnone

lemma Operates.reads_one (h : Operates S files) (hi : Inserts insertion) (memory : MoveMemory)
    (hplans : Plans insertion files planned) (hf : f ∈ planned) (hp : p ∈ f.anchors) :
    ReadsOne insertion S files (writeAnchors (S.edited insertion files) planned) f p := by
  obtain ⟨file, hmem, w, hfw, hname, hanchors⟩ := hplans.carried f hf
  obtain ⟨hin, hcase⟩ := hanchors p hp
  rcases hcase with hstays | ⟨hid, ha, htouched, hset⟩
  · rw [hfw.anchors] at hstays
    obtain ⟨a, ha, heq⟩ := mem_map.1 hstays
    obtain ⟨place, hplace, hfile, hdetached⟩ := h.stored hmem ha
    have hsettled : Settled a (a.followed.run file.fragments 0 0 file.edits) :=
      (Settled.start a).run 0 0 file.edits
    set r := a.followed.run file.fragments 0 0 file.edits with hr
    have hanchor : p.anchor = r.planned.anchor := by rw [← heq, Followed.settle_anchor]
    have hpid : p.anchor.id = a.id := hanchor ▸ hsettled.id
    have htouched : p.touched = r.planned.touched := by
      rw [← heq]
      unfold Followed.settle
      split_ifs <;> rfl
    by_cases hatt : p.anchor.attached = true
    · cases htt : p.touched with
      | true =>
        refine h.reads_written hplans hf hp hatt htt ?_ (by rw [hpid, hplace]; simp)
        have hmoved := hsettled.moved (hanchor ▸ hatt) (htouched ▸ htt)
        rw [← heq]
        unfold Followed.settle
        rw [if_pos ⟨hmoved, hanchor ▸ hatt⟩]
      | false =>
        have hnone : pendingPlace (S.edited insertion files) f p = none := by
          exact if_pos (.inr ⟨detached_of_attached hatt, htt⟩)
        have hkept := hplans.kept h hf hp hnone
        rw [hpid] at hkept
        obtain ⟨place', hplace', hfile', hiff⟩ := h.untouched hi memory hmem ha
          (hanchor ▸ hatt) (htouched ▸ htt) hkept (foldl_putPlace_texts _ _)
          (by rw [← hr, ← hanchor]; exact (hin hatt).lt)
        rw [hkept, hplace] at hplace'
        cases hplace'
        refine ⟨place, by rw [hpid, hkept, hplace], hfile.trans hname.symm, ?_, fun _ => ?_⟩
        · have hd := detached_of_attached hatt
          have hd' := detached_of_attached (hsettled.attached (hanchor ▸ hatt))
          rw [hdetached, hd, hd']
        · rw [hpid, hanchor, hiff]
          constructor
          · intro hslips _ g hg hname'
            obtain rfl := inj_on_of_nodup_map h.once hg hmem (hname'.trans hname)
            exact hslips
          · exact fun hall => hall htt file hmem hname.symm
    · have hno : r.planned.anchor.attached = false := Bool.eq_false_iff.2 (hanchor ▸ hatt)
      have hplanned : p = r.planned := by
        rw [← heq]
        exact if_neg fun hboth => Bool.eq_false_iff.1 hno hboth.2
      by_cases hatt' : a.attached = true
      · obtain ⟨hd, hset⟩ := hsettled.detached hatt' hno
        rw [← hplanned] at hd hset
        have hstored : (S.edited insertion files).place p.anchor.id = some place :=
          hpid.symm ▸ hplace
        have hpending := pendingPlace_detached hset hd hstored
        exact ⟨_, written_place (hplans.once h) hf hp (hpending f), rfl, hd.symm,
          fun ha => absurd ha hatt⟩
      · have hrest := hsettled.rest (Bool.eq_false_iff.2 hatt')
        have hnone : pendingPlace (S.edited insertion files) f p = none := by
          refine if_pos (.inl ?_)
          rw [hplanned, hrest]
          nofun
        refine ⟨place, ?_, hfile.trans hname.symm, ?_, fun ha => absurd ha hatt⟩
        · rw [hplans.kept h hf hp hnone, hpid, hplace]
        · rw [hdetached, hplanned, hrest]
  · obtain ⟨a, ha', heq⟩ := mem_map.1 hid
    obtain ⟨g, hg, ha'⟩ := mem_flatMap.1 ha'
    obtain ⟨place, hplace, -⟩ := h.stored hg ha'
    exact h.reads_written hplans hf hp ha htouched hset (by rw [← heq, hplace]; simp)

end One

end Reading

/-- After an operation its anchors are read back as planned, exactly when no edit slips on a
cursor of an attached anchor that the plan leaves alone. -/
theorem anchors_read_back {insertion : List (Elem Char) → ℕ → ℕ} (hi : Inserts insertion) {S : Store}
    {files : List OperationFile} (h : Operates S files) {memory : MoveMemory}
    (hsound : memory.Sound) :
    let planned := (planOperation files memory).1
    ReadsBack (writeAnchors (S.edited insertion files) planned) planned ↔
      Undisturbed insertion S files planned := by
  intro planned
  have hplans := h.plans hi hsound
  have hone := fun {f p} (hf : f ∈ planned) (hp : p ∈ f.anchors) =>
    h.reads_one hi memory hplans hf hp
  constructor
  · intro hreads file hfile f hf hname p hp ha htouched
    obtain ⟨place, hplace, -, -, hiff⟩ := hone hf hp
    obtain ⟨a, hmem, hid, -, hspan⟩ := (hreads f hf).1 p hp
    obtain ⟨place', hplace', -, heq⟩ := mem_resolveAnchors.1 hmem
    rw [hid] at hplace' heq
    obtain rfl := Option.some.inj (hplace'.symm.trans hplace)
    have hread := hspan ha
    rw [heq] at hread
    exact (hiff ha).1 hread htouched file hfile hname.symm
  · intro hquiet f hf
    constructor
    · intro p hp
      obtain ⟨place, hplace, hfile, hdetached, hiff⟩ := hone hf hp
      have hid := recordAnchor_id (writeAnchors (S.edited insertion files) planned)
        (p.anchor.id, place)
      refine ⟨_, mem_resolveAnchors.2 ⟨place, ?_, hfile, ?_⟩, hid, ?_, fun ha => ?_⟩
      · rw [hid]
        exact hplace
      · rw [hid]
      · rw [recordAnchor_detached]
        exact hdetached
      · exact (hiff ha).2 fun htouched file hmem hname =>
          hquiet file hmem f hf hname.symm p hp ha htouched
    · intro a ha
      obtain ⟨place, hplace, hfile, -⟩ := mem_resolveAnchors.1 ha
      by_cases hplanned : ∃ g ∈ planned, ∃ q ∈ g.anchors, q.anchor.id = a.id
      · obtain ⟨g, hg, q, hq, hid⟩ := hplanned
        obtain ⟨place', hplace', hfile', -⟩ := hone hg hq
        rw [hid, hplace] at hplace'
        cases hplace'
        have hnodup : (planned.map (·.fileId)).Nodup := by
          rw [hplans.names]
          exact h.once
        obtain rfl := inj_on_of_nodup_map hnodup hg hf (hfile'.symm.trans hfile)
        exact ⟨q, hq, hid⟩
      · exfalso
        have hkept := kept_place (S := S.edited insertion files) fun g hg q hq hid =>
          absurd ⟨g, hg, q, hq, hid⟩ hplanned
        obtain ⟨file, hmem, w, -, hname, -⟩ := hplans.carried f hf
        have hplace' : S.place a.id = some place := hkept.symm.trans hplace
        have hstored : recordAnchor S (a.id, place) ∈ file.anchors := by
          rw [h.anchors file hmem]
          refine mem_resolveAnchors.2 ⟨place, ?_, hfile.trans hname, ?_⟩
          · rw [recordAnchor_id]
            exact hplace'
          · rw [recordAnchor_id]
        have hin : a.id ∈ (files.flatMap (·.anchors)).map (·.id) :=
          mem_map.2 ⟨_, mem_flatMap.2 ⟨file, hmem, hstored⟩, recordAnchor_id S _⟩
        obtain ⟨g, hg, hid⟩ := mem_flatMap.1 (hplans.ids.symm.subset hin)
        obtain ⟨q, hq, hid⟩ := mem_map.1 hid
        exact hplanned ⟨g, hg, q, hq, hid⟩

/-- The elements before an insertion that goes right behind the character before its offset. -/
def behindText : List (Elem Char) → ℕ → ℕ
  | [], _ => 0
  | e :: l, u => if u = 0 then 0 else behindText l (u - e.width charLenUtf16) + 1

lemma inserts_behindText : Inserts behindText := by
  intro l
  induction l with
  | nil =>
    rintro u ⟨p, q, hpq, rfl⟩
    obtain ⟨rfl, rfl⟩ := append_eq_nil_iff.1 hpq.symm
    rfl
  | cons e l ih =>
    intro u hu
    unfold behindText
    split_ifs with hzero
    · rw [hzero]
      rfl
    · have hrest : e.width charLenUtf16 ≤ u ∧
          Boundary charLenUtf16 (standing l) (u - e.width charLenUtf16) := by
        unfold Elem.width
        cases hlive : e.live with
        | false =>
          rw [standing_dead hlive] at hu
          exact ⟨Nat.zero_le _, hu⟩
        | true =>
          rw [standing_live hlive] at hu
          obtain ⟨p, q, hpq, rfl⟩ := hu
          cases p with
          | nil => exact absurd rfl hzero
          | cons c p =>
            obtain ⟨rfl, hl⟩ := cons.inj hpq
            refine ⟨Nat.le_add_right _ _, p, q, hl, ?_⟩
            rw [width_cons]
            exact (Nat.add_sub_cancel_left _ _).symm
      rw [take_succ_cons, lenUtf16, width_standing_cons, ← lenUtf16, ih _ hrest.2]
      exact Nat.add_sub_cancel' hrest.1

/-- A text of three letters, of which the last may be deleted, and a comment on it. -/
def letters (last : Bool) : Store where
  texts := fun file => if file = 1 then
    some ⟨[⟨0, 'a', true⟩, ⟨1, 'b', true⟩, ⟨2, 'c', last⟩], 3, by decide +revert, by decide +revert⟩ else none
  records := [(7, .attached 1 ⟨1, 0⟩ ⟨1, 2⟩)]
  nodup := by decide

/-- A letter is inserted in the text. -/
def insertLetter (last : Bool) (before : List Char) (pos : ℕ) : OperationFile :=
  ⟨1, before, resolveAnchors (letters last) 1, [⟨pos, 0, ['x']⟩], []⟩

lemma operates_insertLetter {last : Bool} {before : List Char} {pos : ℕ}
    (hbody : ∃ t, (letters last).texts 1 = some t ∧ body t = before)
    (hpos : Boundary charLenUtf16 before pos) :
    Operates (letters last) [insertLetter last before pos] := by
  refine ⟨nodup_singleton _, fun f hf => ?_, fun f hf => ?_, fun f hf => ?_⟩
  · rw [mem_singleton.1 hf]
    exact hbody
  · rw [mem_singleton.1 hf]
    rfl
  · rw [mem_singleton.1 hf]
    exact ⟨Nat.zero_le _, hpos, hpos, trivial⟩

/-- A letter in front of the comment moves it, and it is read back so. -/
theorem anchors_read_back_moved :
    ReadsBack (writeAnchors ((letters true).edited behindText [insertLetter true ['a', 'b', 'c'] 0])
        (planOperation [insertLetter true ['a', 'b', 'c'] 0] ⟨32, []⟩).1)
      (planOperation [insertLetter true ['a', 'b', 'c'] 0] ⟨32, []⟩).1 := by
  have hoperates : Operates (letters true) [insertLetter true ['a', 'b', 'c'] 0] :=
    operates_insertLetter ⟨_, rfl, rfl⟩ (.zero _)
  refine (anchors_read_back inserts_behindText hoperates fun e he => by cases he).2 ?_
  intro file hfile f hf hname p hp ha htouched
  obtain rfl := mem_singleton.1 hfile
  have hplan : (planOperation [insertLetter true ['a', 'b', 'c'] 0] ⟨32, []⟩).1 =
      [⟨1, ['x', 'a', 'b', 'c'],
        [⟨⟨7, 1, 1, 4, false, none, none, none, false, false⟩, .set, false, none⟩]⟩] := by decide
  rw [hplan] at hf
  obtain rfl := mem_singleton.1 hf
  obtain rfl := mem_singleton.1 hp
  decide

/-- The last letter of the comment was deleted by someone else. A letter behind it is planned
outside the comment, and read back inside it. -/
theorem text_grows_into_span :
    Operates (letters false) [insertLetter false ['a', 'b'] 2] ∧
      (planOperation [insertLetter false ['a', 'b'] 2] ⟨32, []⟩).1 = [⟨1, ['a', 'b', 'x'],
        [⟨⟨7, 1, 0, 2, false, none, none, none, false, false⟩, .kept, false, none⟩]⟩] ∧
      (resolveAnchors (writeAnchors
          ((letters false).edited behindText [insertLetter false ['a', 'b'] 2])
          (planOperation [insertLetter false ['a', 'b'] 2] ⟨32, []⟩).1) 1) =
        [⟨7, 1, 0, 3, false, none, none, none, false, false⟩] ∧
      ¬ReadsBack (writeAnchors
          ((letters false).edited behindText [insertLetter false ['a', 'b'] 2])
          (planOperation [insertLetter false ['a', 'b'] 2] ⟨32, []⟩).1)
        (planOperation [insertLetter false ['a', 'b'] 2] ⟨32, []⟩).1 := by
  have hplan : (planOperation [insertLetter false ['a', 'b'] 2] ⟨32, []⟩).1 = [⟨1, ['a', 'b', 'x'],
      [⟨⟨7, 1, 0, 2, false, none, none, none, false, false⟩, .kept, false, none⟩]⟩] := by decide
  have hread : (resolveAnchors (writeAnchors
      ((letters false).edited behindText [insertLetter false ['a', 'b'] 2])
      (planOperation [insertLetter false ['a', 'b'] 2] ⟨32, []⟩).1) 1) =
        [⟨7, 1, 0, 3, false, none, none, none, false, false⟩] := by decide
  refine ⟨operates_insertLetter ⟨_, rfl, rfl⟩ ⟨['a', 'b'], [], rfl, rfl⟩, hplan, hread, fun h => ?_⟩
  obtain ⟨a, ha, -, -, hspan⟩ := (h _ (by rw [hplan]; exact mem_singleton_self _)).1 _
    (mem_singleton_self _)
  rw [hread] at ha
  obtain rfl := mem_singleton.1 ha
  exact absurd (hspan rfl).2.2 (by decide)

end LibrePaper.Anchors
