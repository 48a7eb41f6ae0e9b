import LibrePaper.Track.Converting

/-!
# What is shown after a conversion

A record of the earlier model shows its deleted text at the cursor of the outermost record that
holds it, before and after a conversion. Nothing else depends on where its fragments are stored.
-/
namespace LibrePaper.Track
open Library List

section Adopting

variable {known known' : List String} {l : List Stored} {s : Stored}

lemma adopt_congr (h : ∀ id, id ∈ known ↔ id ∈ known') (l : List Stored) :
    adopt known l = adopt known' l := by
  induction l generalizing known known' with
  | nil => rfl
  | cons s l ih =>
    have hcons : ∀ id, id ∈ s.authorship.id :: known ↔
        id ∈ s.authorship.id :: known' := fun id => by
      rw [mem_cons, mem_cons, h]
    rw [adopt, adopt, ih h]
    cases s.authorship.who with
    | none => rfl
    | some who =>
      dsimp only
      rw [ih hcons]
      simp only [h]

/-- Fragments that are not adopted make no difference to the others. -/
lemma adopt_split (p : Stored → Bool)
    (h : ∀ s ∈ l, p s = true → s.authorship.who = none ∨ s.fragment.change ∈ known) :
    (adopt known l).1.Perm (l.filter p ++ (adopt known (l.filter fun s => !p s)).1) ∧
      (adopt known l).2 = (adopt known (l.filter fun s => !p s)).2 := by
  induction l generalizing known with
  | nil => exact ⟨.refl _, rfl⟩
  | cons s l ih =>
    have htail := ih fun s hs => h s (mem_cons_of_mem _ hs)
    cases hp : p s with
    | true =>
      have hstep : adopt known (s :: l) = (s :: (adopt known l).1, (adopt known l).2) := by
        rw [adopt]
        cases hwho : s.authorship.who with
        | none => rfl
        | some who =>
          rcases h s mem_cons_self hp with hnone | hin
          · exact absurd (hwho.symm.trans hnone) nofun
          · exact if_pos hin
      rw [hstep, filter_cons_of_pos hp, filter_cons_of_neg (by simp [hp])]
      exact ⟨htail.1.cons s, htail.2⟩
    | false =>
      rw [filter_cons_of_neg (by simp [hp]), filter_cons_of_pos (by simp [hp])]
      rw [adopt, adopt]
      cases s.authorship.who with
      | none => exact ⟨(htail.1.cons s).trans perm_middle.symm, htail.2⟩
      | some who =>
        dsimp only
        split
        · exact ⟨(htail.1.cons s).trans perm_middle.symm, htail.2⟩
        · have hlater : ∀ t ∈ l, p t = true → t.authorship.who = none ∨
              t.fragment.change ∈ s.authorship.id :: known := fun t ht hpt =>
            (h t (mem_cons_of_mem _ ht) hpt).imp_right (mem_cons_of_mem _)
          have htail := ih hlater
          exact ⟨(htail.1.cons _).trans perm_middle.symm,
            congrArg (orphanChange who s :: ·) htail.2⟩

/-- An adopted fragment names its own change. -/
lemma mem_adopt (hs : s ∈ (adopt known l).1) :
    ∃ s' ∈ l, s.fragment.id = s'.fragment.id ∧ s.point = s'.point ∧
      (s = s' ∨ s.fragment.change = s'.authorship.id) := by
  induction l generalizing known with
  | nil => exact absurd hs not_mem_nil
  | cons t l ih =>
    have htail : ∀ known, s ∈ (adopt known l).1 → ∃ s' ∈ t :: l, s.fragment.id = s'.fragment.id ∧
        s.point = s'.point ∧ (s = s' ∨ s.fragment.change = s'.authorship.id) := fun known h => by
      obtain ⟨s', hs', hrest⟩ := ih h
      exact ⟨s', mem_cons_of_mem _ hs', hrest⟩
    rw [adopt] at hs
    cases hwho : t.authorship.who with
    | none =>
      rw [hwho] at hs
      rcases mem_cons.1 hs with rfl | hs
      · exact ⟨s, mem_cons_self, rfl, rfl, .inl rfl⟩
      · exact htail known hs
    | some who =>
      rw [hwho] at hs
      dsimp only at hs
      split at hs
      · rcases mem_cons.1 hs with rfl | hs
        · exact ⟨s, mem_cons_self, rfl, rfl, .inl rfl⟩
        · exact htail known hs
      · rcases mem_cons.1 hs with rfl | hs
        · exact ⟨t, mem_cons_self, rfl, rfl, .inr rfl⟩
        · exact htail _ hs

lemma adopt_fragment_ids (known : List String) (l : List Stored) :
    (adopt known l).1.map (fun s => s.fragment.id) = l.map fun s => s.fragment.id := by
  induction l generalizing known with
  | nil => rfl
  | cons t l ih =>
    rw [adopt]
    cases t.authorship.who with
    | none => exact congrArg (t.fragment.id :: ·) (ih known)
    | some who =>
      dsimp only
      split
      · exact congrArg (t.fragment.id :: ·) (ih known)
      · exact congrArg (t.fragment.id :: ·) (ih _)

lemma adopt_orphans_sublist (known : List String) (l : List Stored) :
    ((adopt known l).2.map ChangeRecord.id).Sublist (l.map fun s => s.authorship.id) := by
  induction l generalizing known with
  | nil => exact .slnil
  | cons t l ih =>
    rw [adopt]
    cases t.authorship.who with
    | none => exact (ih known).cons _
    | some who =>
      dsimp only
      split
      · exact (ih known).cons _
      · exact (ih _).cons_cons _

lemma adopt_orphans_bare {c : ChangeRecord} (hc : c ∈ (adopt known l).2) :
    c.fromPos = c.toPos := by
  induction l generalizing known with
  | nil => exact absurd hc not_mem_nil
  | cons t l ih =>
    rw [adopt] at hc
    cases hwho : t.authorship.who with
    | none =>
      rw [hwho] at hc
      exact ih hc
    | some who =>
      rw [hwho] at hc
      dsimp only at hc
      split at hc
      · exact ih hc
      · rcases mem_cons.1 hc with rfl | hc
        · rfl
        · exact ih hc

end Adopting

/-- The place of an offset, outside the spans. -/
def outsidePoint (changes : List ChangeRecord) (p : ℕ) : ℕ :=
  ((changes.find? fun c => c.fromPos < p ∧ p < c.toPos).map ChangeRecord.fromPos).getD p

lemma outside_eq (changes : List ChangeRecord) (s : Stored) :
    outside changes s = { s with point := outsidePoint changes s.point } := by
  unfold outside outsidePoint
  split
  next c hc => rw [hc, Option.map_some, Option.getD_some]
  next hc => rw [hc, Option.map_none, Option.getD_none]

/-- The spans that hold an offset inside them begin at the same one. -/
def ApartAt (changes : List ChangeRecord) (p : ℕ) : Prop :=
  ∀ c ∈ changes, ∀ d ∈ changes, c.fromPos < p → p < c.toPos → d.fromPos < p → p < d.toPos →
    c.fromPos = d.fromPos

/-- The order of the changes makes no difference where spans do not overlap. -/
lemma outsidePoint_perm {changes changes' : List ChangeRecord} (hperm : changes'.Perm changes)
    {p : ℕ} (hapart : ApartAt changes p) :
    outsidePoint changes' p = outsidePoint changes p := by
  unfold outsidePoint
  cases hfind : changes.find? fun c => c.fromPos < p ∧ p < c.toPos with
  | none =>
    have hnone : changes'.find? (fun c => c.fromPos < p ∧ p < c.toPos) = none :=
      find?_eq_none.2 fun c hc => find?_eq_none.1 hfind c (hperm.mem_iff.1 hc)
    rw [hnone]
  | some c =>
    have hc := mem_of_find?_eq_some hfind
    have hcp : c.fromPos < p ∧ p < c.toPos := by simpa using find?_some hfind
    cases hfind' : changes'.find? fun c => c.fromPos < p ∧ p < c.toPos with
    | none => exact absurd (decide_eq_true hcp) (find?_eq_none.1 hfind' c (hperm.mem_iff.2 hc))
    | some d =>
      have hdp : d.fromPos < p ∧ p < d.toPos := by simpa using find?_some hfind'
      exact hapart d (hperm.mem_iff.1 (mem_of_find?_eq_some hfind')) c hc hdp.1 hdp.2 hcp.1 hcp.2

section Fragments

variable {changes changes' : List ChangeRecord} {stored stored' : List Stored} {id : String}

/-- The fragments of a change that is read are those that name it, put outside the spans. -/
lemma fragmentsOf_live (hid : id ∈ (allChanges changes stored).map ChangeRecord.id) :
    ((fragmentsOf id (liveFragments changes stored)).Pairwise fun a b => liveKey a ≤ liveKey b) ∧
      (fragmentsOf id (liveFragments changes stored)).Perm
        ((fragmentsOf id (adopt (changes.map ChangeRecord.id) stored).1).map
          (outside (allChanges changes stored))) := by
  refine ⟨(sortByKey_pairwise _ _).filter _, ((sortByKey_perm _ _).filter _).trans ?_⟩
  rw [filter_map, fragmentsOf]
  refine Perm.of_eq (congrArg _ ?_)
  rw [filter_filter]
  refine filter_congr fun s _ => ?_
  have hkeep : (outside (allChanges changes stored) s).fragment = s.fragment := by rw [outside_eq]
  simp only [Function.comp_apply, hkeep]
  by_cases hs : s.fragment.change = id
  · simp [hs, hid]
  · simp [hs]

/-- A change shows a text at the place of a cursor. -/
structure Sourced (cursor : Bytes → Option Pos) (place : ℕ → ℕ) (start : Bytes) (body : List Char)
    (l : List Stored) : Prop where
  text : l.flatMap (fun s => s.fragment.text) = if (cursor start).isSome then body else []
  first : l.head?.map Stored.point =
    if body = [] then none else (cursor start).map fun pos => place pos.offset

variable {cursor : Bytes → Option Pos} {start : Bytes} {text : List Char} {l : List Stored}

lemma Sourced.alike {place : ℕ → ℕ} {l' : List Stored} (h : Sourced cursor place start text l)
    (h' : Sourced cursor place start text l') : ShownAlike l l' :=
  ⟨h'.first.trans h.first.symm, h'.text.trans h.text.symm⟩

/-- The fragments of an expansion are read in their order. `read` reads one of them. -/
lemma sourced_of_read {fs : List (Fragment × Bytes)}
    (htext : (fs.map fun f => f.1.text).flatten = text) (hne : ∀ f ∈ fs, f.1.text ≠ [])
    (hrise : fs.Pairwise fun f g => f.1.rank.getD 0 < g.1.rank.getD 0)
    {read : Fragment × Bytes → Option Stored}
    (hread : ∀ f ∈ fs, (read f).isSome = (cursor start).isSome ∧ ∀ s, read f = some s →
      (cursor start).map Pos.offset = some s.point ∧ s.fragment.text = f.1.text ∧
        s.fragment.rank.getD 0 = f.1.rank.getD 0)
    (hsorted : l.Pairwise fun a b => liveKey a ≤ liveKey b)
    (hperm : l.Perm ((fs.filterMap read).map (outside changes))) :
    Sourced cursor (outsidePoint changes) start text l := by
  cases hpos : cursor start with
  | none =>
    have hnil : fs.filterMap read = [] := filterMap_eq_nil_iff.2 fun f hf => by
      have hnone := (hread f hf).1
      rw [hpos] at hnone
      exact Option.isSome_eq_false_iff.1 hnone |> Option.isNone_iff_eq_none.1
    rw [hnil, map_nil, perm_nil] at hperm
    subst hperm
    exact ⟨by rw [hpos]; rfl, by rw [hpos]; simp⟩
  | some pos =>
    have hsome : ∀ f ∈ fs, ∃ s, read f = some s ∧ s.point = pos.offset ∧
        s.fragment.text = f.1.text ∧ s.fragment.rank.getD 0 = f.1.rank.getD 0 := fun f hf => by
      obtain ⟨hisSome, hspec⟩ := hread f hf
      rw [hpos] at hisSome hspec
      obtain ⟨s, hs⟩ := Option.isSome_iff_exists.1 hisSome
      obtain ⟨hpoint, hrest⟩ := hspec s hs
      exact ⟨s, hs, (Option.some.inj hpoint).symm, hrest⟩
    have hrank : ((fs.filterMap read).map (outside changes)).Pairwise
        fun a b => liveKey a < liveKey b := by
      refine pairwise_map.2 (pairwise_filterMap.2
        (hrise.imp_of_mem fun {f g} hf hg hfg s hs t ht => ?_))
      obtain ⟨s', hs', hsp, -, hsr⟩ := hsome f hf
      obtain ⟨t', ht', htp, -, htr⟩ := hsome g hg
      obtain rfl := Option.some.inj (hs'.symm.trans hs)
      obtain rfl := Option.some.inj (ht'.symm.trans ht)
      rw [outside_eq, outside_eq]
      refine liveKey_lt ?_ (hsr.trans_lt (hfg.trans_eq htr.symm))
      exact congrArg (outsidePoint changes) (hsp.trans htp.symm)
    rw [eq_of_rising hsorted hrank hperm]
    clear hrank hperm hsorted hrise hread
    constructor
    · rw [hpos, ← htext]
      clear htext
      induction fs with
      | nil => rfl
      | cons f fs ih =>
        obtain ⟨s, hs, -, htext, -⟩ := hsome f mem_cons_self
        have hrest := ih (fun g hg => hne g (mem_cons_of_mem _ hg))
          fun g hg => hsome g (mem_cons_of_mem _ hg)
        rw [filterMap_cons_some hs, map_cons, flatMap_cons, hrest, outside_eq, htext]
        rfl
    · cases fs with
      | nil =>
        rw [← htext]
        rfl
      | cons f fs =>
        obtain ⟨s, hs, hpoint, -, -⟩ := hsome f mem_cons_self
        have hbody : text ≠ [] := fun hnil => hne f mem_cons_self
          (append_eq_nil_iff.1 (htext.trans hnil)).1
        rw [if_neg hbody, hpos, filterMap_cons_some hs, map_cons, head?_cons,
          outside_eq, Option.map_some, Option.map_some, hpoint]

end Fragments

section Changes

variable {cursor : Bytes → Option Pos} {root root' : Root} {file : String}
  {outer : LegacyExpansion}

lemma cutOff_intCast (n : ℤ) : cutOff (n : ℚ) = n := by
  unfold cutOff
  split
  · exact Int.floor_intCast n
  · exact Int.ceil_intCast n

lemma readChange_heldChange (file : String) (c : LegacyChange) :
    readChange cursor c.id (heldChange file c) = readLegacyChange cursor c := by
  simp [readChange, heldChange, readLegacyChange, cutOff_intCast]

variable {k : String} {m : HeldRecord} {c : ChangeRecord}

lemma readChange_id (h : readChange cursor k m = some c) : c.id = k := by
  obtain ⟨who, -, h⟩ := Option.bind_eq_some_iff.1 h
  obtain ⟨author, -, h⟩ := Option.bind_eq_some_iff.1 h
  obtain ⟨span, -, rfl⟩ := Option.map_eq_some_iff.1 h
  rfl

lemma readLegacyChange_id {x : LegacyChange} (h : readLegacyChange cursor x = some c) :
    c.id = x.id := by
  obtain ⟨span, -, rfl⟩ := Option.map_eq_some_iff.1 h
  rfl

lemma mem_readChanges : c ∈ readChanges cursor root file ↔
    (∃ e ∈ legacyRecords root file, readLegacyChange cursor (legacyChange e) = some c) ∨
      ∃ k m, (k, m) ∈ heldRecords root file ∧ m.kind = some .change ∧
        readChange cursor k m = some c := by
  rw [readChanges, mem_append, mem_filterMap, mem_filterMap]
  refine or_congr ⟨?_, ?_⟩ ⟨?_, ?_⟩
  · rintro ⟨x, hx, hc⟩
    obtain ⟨e, he, hxe, -⟩ := expansion_record hx
    exact ⟨e, he, hxe ▸ hc⟩
  · rintro ⟨e, he, hc⟩
    obtain ⟨x, hx, hxe⟩ := exists_mem_expandLegacy he
    exact ⟨x, hx, hxe ▸ hc⟩
  · rintro ⟨⟨k, m⟩, hm, hc⟩
    split at hc
    next hkind => exact ⟨k, m, hm, hkind, hc⟩
    · exact absurd hc nofun
  · rintro ⟨k, m, hm, hkind, hc⟩
    exact ⟨(k, m), hm, by rw [if_pos hkind]; exact hc⟩

lemma legacy_apart_held {c : String} {v : LegacyRecord} (hc : (c, v) ∈ legacyRecords root file)
    (hm : (k, m) ∈ heldRecords root file) : c ≠ k := by
  rintro rfl
  obtain ⟨p, hp, -⟩ := mem_legacyRecords.1 hc
  exact absurd (Keyed.unique hp (mem_heldRecords.1 hm).1) nofun

lemma readChanges_nodup (cursor : Bytes → Option Pos) (root : Root) (file : String) :
    ((readChanges cursor root file).map ChangeRecord.id).Nodup := by
  rw [readChanges, map_append]
  refine nodup_append.2 ⟨?_, ?_, fun a ha b hb hab => ?_⟩
  · have hids : ((expandLegacy (legacyRecords root file)).map fun x => x.1.id).Nodup := by
      rw [expandLegacy_ids]
      exact pairwise_map.2 ((legacyRecords_sorted root file).imp ne_of_lt)
    refine pairwise_map.2 (pairwise_filterMap.2 ((pairwise_map.1 hids).imp fun hxy c hc d hd => ?_))
    rw [readLegacyChange_id hc, readLegacyChange_id hd]
    exact hxy
  · refine pairwise_map.2 (pairwise_filterMap.2
      ((heldRecords_sorted root file).imp fun hxy c hc d hd => ?_))
    split at hc
    · split at hd
      · rw [readChange_id hc, readChange_id hd]
        exact hxy.ne
      · exact absurd hd nofun
    · exact absurd hc nofun
  · obtain ⟨c, hc, rfl⟩ := mem_map.1 ha
    obtain ⟨d, hd, rfl⟩ := mem_map.1 hb
    obtain ⟨x, hx, hc⟩ := mem_filterMap.1 hc
    obtain ⟨⟨k, m⟩, hm, hd⟩ := mem_filterMap.1 hd
    obtain ⟨⟨i, v⟩, he, hxe, -⟩ := expansion_record hx
    split at hd
    · rw [readLegacyChange_id hc, hxe, readChange_id hd] at hab
      exact legacy_apart_held he hm hab
    · exact absurd hd nofun

/-- A conversion leaves the changes as they were read. -/
lemma Converted.changes_perm (h : Converted root root' file outer) :
    (readChanges cursor root' file).Perm (readChanges cursor root file) := by
  refine (perm_ext_iff_of_nodup (readChanges_nodup cursor root' file).of_map
    (readChanges_nodup cursor root file).of_map).2 fun c => ?_
  rw [mem_readChanges, mem_readChanges]
  constructor
  · rintro (⟨⟨i, v⟩, he, hc⟩ | ⟨k, m, hm, hkind, hc⟩)
    · exact .inl ⟨(i, v), ((h.legacy i v).1 he).1, hc⟩
    · rcases (h.held k m).1 hm with hm | ⟨x, hx, -, rfl, rfl⟩ | ⟨f, -, -, rfl⟩
      · exact .inr ⟨k, m, hm, hkind, hc⟩
      · obtain ⟨e, he, hxe, -⟩ := expansion_record hx
        rw [readChange_heldChange, hxe] at hc
        exact .inl ⟨e, he, hc⟩
      · exact absurd hkind nofun
  · rintro (⟨⟨i, v⟩, he, hc⟩ | ⟨k, m, hm, hkind, hc⟩)
    · by_cases hl : Leads (PointsAt (legacyRecords root file)) i outer.1.id
      · obtain ⟨x, hx, hxe⟩ := exists_mem_expandLegacy he
        have hid : x.1.id = i := congrArg LegacyChange.id hxe
        refine .inr ⟨x.1.id, heldChange file x.1, (h.held _ _).2
          (.inr (.inl ⟨x, hx, hid ▸ hl, rfl, rfl⟩)), rfl, ?_⟩
        rw [readChange_heldChange, hxe]
        exact hc
      · exact .inl ⟨(i, v), (h.legacy i v).2 ⟨he, hl⟩, hc⟩
    · exact .inr ⟨k, m, (h.held k m).2 (.inl hm), hkind, hc⟩

/-- The references that are left after a conversion. -/
lemma Converted.pointsAt (h : Converted root root' file outer) :
    PointsAt (legacyRecords root' file) =
      Without (PointsAt (legacyRecords root file)) outer.1.id := by
  have hknown : ∀ b, b ∈ (legacyRecords root' file).map Prod.fst ↔
      b ∈ (legacyRecords root file).map Prod.fst ∧
        ¬ Leads (PointsAt (legacyRecords root file)) b outer.1.id := fun b => by
    constructor
    · intro hb
      obtain ⟨⟨c, v⟩, he, rfl⟩ := mem_map.1 hb
      obtain ⟨hin, hno⟩ := (h.legacy c v).1 he
      exact ⟨mem_map_of_mem hin, hno⟩
    · rintro ⟨hb, hno⟩
      obtain ⟨⟨c, v⟩, he, rfl⟩ := mem_map.1 hb
      exact mem_map_of_mem ((h.legacy c v).2 ⟨he, hno⟩)
  funext a b
  refine propext ⟨?_, ?_⟩
  · rintro ⟨v, hv, hp, hb⟩
    obtain ⟨hin, hno⟩ := (h.legacy a v).1 hv
    obtain ⟨hb, hnob⟩ := (hknown b).1 hb
    exact ⟨⟨v, hin, hp, hb⟩, hno, hnob⟩
  · rintro ⟨⟨v, hv, hp, hb⟩, hno, hnob⟩
    exact ⟨v, (h.legacy a v).2 ⟨hv, hno⟩, hp, (hknown b).2 ⟨hb, hnob⟩⟩

lemma Converted.acyclic (h : Converted root root' file outer)
    (hacyclic : Acyclic (legacyRecords root file)) : Acyclic (legacyRecords root' file) :=
  fun a ha => by
    rw [h.pointsAt] at ha
    exact hacyclic a (Relation.TransGen.mono (fun _ _ hab => hab.1) _ _ ha)

end Changes

section Shown

variable {cursor : Bytes → Option Pos} {root root' : Root} {file : String}
  {outer : LegacyExpansion} {s : Stored} {c : String}

/-- The fragments of the earlier model. -/
def legacyStored (cursor : Bytes → Option Pos) (root : Root) (file : String) : List Stored :=
  (expandLegacy (legacyRecords root file)).flatMap fun x =>
    x.2.filterMap (readLegacyFragment cursor)

/-- The fragments in containers of their own. -/
def heldStored (cursor : Bytes → Option Pos) (root : Root) (file : String) : List Stored :=
  (heldRecords root file).filterMap fun e =>
    if e.2.kind = some .fragment then readFragment cursor e.1 e.2 else none

lemma readStored_eq (cursor : Bytes → Option Pos) (root : Root) (file : String) :
    readStored cursor root file = legacyStored cursor root file ++ heldStored cursor root file :=
  rfl

lemma mem_legacyStored (hs : s ∈ legacyStored cursor root file) :
    s.authorship.who = none ∧ s.fragment.change ∈ (legacyRecords root file).map Prod.fst := by
  obtain ⟨x, hx, hs⟩ := mem_flatMap.1 hs
  obtain ⟨f, hf, hs⟩ := mem_filterMap.1 hs
  obtain ⟨pos, -, rfl⟩ := Option.map_eq_some_iff.1 hs
  exact ⟨rfl, (mem_expansion (legacyRecords_sorted root file)
    (fun _ => legacyRecords_points) hx hf).1⟩

lemma mem_heldStored : s ∈ heldStored cursor root file ↔
    ∃ k m, (k, m) ∈ heldRecords root file ∧ m.kind = some .fragment ∧
      readFragment cursor k m = some s := by
  rw [heldStored, mem_filterMap]
  constructor
  · rintro ⟨⟨k, m⟩, hm, hs⟩
    split at hs
    next hkind => exact ⟨k, m, hm, hkind, hs⟩
    · exact absurd hs nofun
  · rintro ⟨k, m, hm, hkind, hs⟩
    exact ⟨(k, m), hm, by rw [if_pos hkind]; exact hs⟩

lemma readFragment_spec {k : String} {m : HeldRecord} (h : readFragment cursor k m = some s) :
    s.authorship.id = k ∧ s.fragment.id = some k ∧ m.change = some s.fragment.change := by
  obtain ⟨start, -, h⟩ := Option.bind_eq_some_iff.1 h
  obtain ⟨change, hchange, h⟩ := Option.bind_eq_some_iff.1 h
  obtain ⟨body, -, h⟩ := Option.bind_eq_some_iff.1 h
  split at h
  · exact absurd h nofun
  · obtain ⟨pos, -, rfl⟩ := Option.map_eq_some_iff.1 h
    exact ⟨rfl, rfl, hchange⟩

lemma heldStored_rising (cursor : Bytes → Option Pos) (root : Root) (file : String) :
    (heldStored cursor root file).Pairwise fun a b => a.authorship.id < b.authorship.id := by
  refine pairwise_filterMap.2 ((heldRecords_sorted root file).imp fun hxy a ha b hb => ?_)
  split at ha
  · split at hb
    · rw [(readFragment_spec ha).1, (readFragment_spec hb).1]
      exact hxy
    · exact absurd hb nofun
  · exact absurd ha nofun

/-- What a conversion needs of the records of a file: a record that is pointed at has deleted text,
the ids of derived fragments are not in use, no fragment is stored of a change of the earlier
model, the spans of that model resolve, and no fragment is where spans overlap. -/
structure Convertible (cursor : Bytes → Option Pos) (root : Root) (file : String) : Prop where
  nested : Nested (legacyRecords root file)
  unused : Unused root file
  unnamed : ∀ k m, (k, m) ∈ heldRecords root file → m.kind = some .fragment →
    ∀ c, m.change = some c → c ∉ (legacyRecords root file).map Prod.fst
  resolves : ∀ e ∈ legacyRecords root file, ∀ stop, e.2.stop = some stop →
    (cursor e.2.start).isSome ∧ (cursor stop).isSome
  apart : ∀ s ∈ readStored cursor root file, ApartAt (readChanges cursor root file) s.point

/-- The fragment names a record of the earlier model. -/
def namesLegacy (records : List (String × LegacyRecord)) (s : Stored) : Bool :=
  decide (s.fragment.change ∈ records.map Prod.fst)

lemma Convertible.known (h : Convertible cursor root file)
    (hc : c ∈ (legacyRecords root file).map Prod.fst) :
    c ∈ (readChanges cursor root file).map ChangeRecord.id := by
  obtain ⟨e, he, rfl⟩ := mem_map.1 hc
  have hread : (readLegacyChange cursor (legacyChange e)).isSome := by
    rw [readLegacyChange, Option.isSome_map]
    cases hstop : (legacyChange e).stop with
    | none => rfl
    | some stop =>
      obtain ⟨hstart, hend⟩ := h.resolves e he stop hstop
      obtain ⟨p, hp⟩ := Option.isSome_iff_exists.1 hstart
      obtain ⟨q, hq⟩ := Option.isSome_iff_exists.1 hend
      have hp : cursor (legacyChange e).start = some p := hp
      simp [readSpan, hp, hq]
  obtain ⟨d, hd⟩ := Option.isSome_iff_exists.1 hread
  exact mem_map.2 ⟨d, mem_readChanges.2 (.inl ⟨e, he, hd⟩), readLegacyChange_id hd⟩

lemma Convertible.held_unnamed (h : Convertible cursor root file)
    (hs : s ∈ heldStored cursor root file) : namesLegacy (legacyRecords root file) s = false := by
  obtain ⟨k, m, hm, hkind, hread⟩ := mem_heldStored.1 hs
  exact decide_eq_false (h.unnamed k m hm hkind _ (readFragment_spec hread).2.2)

lemma Converted.known_of_mem (h : Converted root root' file outer)
    (hc : c ∈ (legacyRecords root' file).map Prod.fst) :
    c ∈ (legacyRecords root file).map Prod.fst := by
  obtain ⟨⟨i, v⟩, he, rfl⟩ := mem_map.1 hc
  exact mem_map_of_mem ((h.legacy i v).1 he).1

lemma Converted.outer_named (h : Converted root root' file outer) {f : Fragment × Bytes}
    (hf : f ∈ outer.2) : f.1.change ∈ (legacyRecords root file).map Prod.fst :=
  (mem_expansion (legacyRecords_sorted root file) (fun _ => legacyRecords_points)
    h.expanded hf).1

/-- What is stored of other changes is the same. -/
lemma Converted.filter_unnamed (h : Converted root root' file outer)
    (hconv : Convertible cursor root file) :
    (readStored cursor root file).filter (fun s => !namesLegacy (legacyRecords root file) s) =
        heldStored cursor root file ∧
      (readStored cursor root' file).filter (fun s => !namesLegacy (legacyRecords root file) s) =
        heldStored cursor root file := by
  have hlegacy : ∀ r, (∀ c, c ∈ (legacyRecords r file).map Prod.fst →
      c ∈ (legacyRecords root file).map Prod.fst) →
      (legacyStored cursor r file).filter (fun s => !namesLegacy (legacyRecords root file) s) =
        [] := fun r hr => filter_eq_nil_iff.2 fun s hs => by
    have hname := decide_eq_true (hr _ (mem_legacyStored hs).2)
    rw [namesLegacy, hname]
    exact Bool.false_ne_true
  rw [readStored_eq, readStored_eq, filter_append, filter_append,
    hlegacy root fun _ hc => hc, hlegacy root' fun _ => h.known_of_mem, nil_append,
    nil_append]
  refine ⟨filter_eq_self.2 fun s hs => by rw [hconv.held_unnamed hs]; rfl, ?_⟩
  refine eq_of_mem_iff ((heldStored_rising cursor root' file).filter _)
    (heldStored_rising cursor root file) fun s => ?_
  rw [mem_filter]
  constructor
  · rintro ⟨hs, hname⟩
    obtain ⟨k, m, hm, hkind, hread⟩ := mem_heldStored.1 hs
    rcases (h.held k m).1 hm with hm | ⟨x, -, -, -, rfl⟩ | ⟨f, hf, -, rfl⟩
    · exact mem_heldStored.2 ⟨k, m, hm, hkind, hread⟩
    · exact absurd hkind nofun
    · have hchange : f.1.change = s.fragment.change :=
        Option.some.inj (readFragment_spec hread).2.2
      have hnamed := decide_eq_true (hchange ▸ h.outer_named hf)
      rw [namesLegacy, hnamed] at hname
      exact absurd hname Bool.false_ne_true
  · intro hs
    refine ⟨?_, by rw [hconv.held_unnamed hs]; rfl⟩
    obtain ⟨k, m, hm, hkind, hread⟩ := mem_heldStored.1 hs
    exact mem_heldStored.2 ⟨k, m, (h.held k m).2 (.inl hm), hkind, hread⟩

end Shown

end LibrePaper.Track
