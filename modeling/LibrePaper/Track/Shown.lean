import LibrePaper.Track.Conversions

/-!
# What is shown stays the same

Before and after a conversion, the changes of a file and the fragments of other changes are read
alike. A change of the earlier model shows its deleted text at the cursor of the outermost record
that leads it, and that record is converted with it. So every row stays the same.
-/
namespace LibrePaper.Track
open Library List

section Shown

variable {cursor : Bytes → Option Pos} {root root' r : Root} {file : String}
  {outer : LegacyExpansion} {s : Stored} {c : String} {v : LegacyRecord}

/-- A root is read as another one, its fragments of changes of the earlier model aside. -/
structure ReadAlike (cursor : Bytes → Option Pos) (file : String) (root r : Root) : Prop where
  changes : (readChanges cursor r file).Perm (readChanges cursor root file)
  others : (readStored cursor r file).filter
    (fun s => !namesLegacy (legacyRecords root file) s) = heldStored cursor root file
  points : ∀ s ∈ readStored cursor r file, ∃ t ∈ readStored cursor root file, t.point = s.point

variable {x : LegacyExpansion} {f : Fragment × Bytes} {read : Fragment × Bytes → Option Stored}

lemma expansion_start (hx : x ∈ expandLegacy (legacyRecords r file)) (hf : f ∈ x.2) :
    f.2 = x.1.start := by
  obtain ⟨e, -, hxe, hstart⟩ := expansion_record hx
  rw [hstart f hf, hxe]
  rfl

/-- The expansion that leads a record is one of the same change after a conversion. -/
lemma Converted.leading (h : Converted root root' file outer)
    (hacyclic : Acyclic (legacyRecords root file)) {x' : LegacyExpansion}
    (hx : x ∈ expandLegacy (legacyRecords root file))
    (hx' : x' ∈ expandLegacy (legacyRecords root' file)) (hc : (c, v) ∈ legacyRecords root' file)
    (hl : Leads (PointsAt (legacyRecords root file)) c x.1.id)
    (hl' : Leads (PointsAt (legacyRecords root' file)) c x'.1.id) : x'.1 = x.1 := by
  have hno := ((h.legacy c v).1 hc).2
  rw [h.pointsAt, leads_without_iff hno hacyclic.founded
    (finite_toSet ((legacyRecords root file).map Prod.fst)) fun _ _ hab => hab.mem] at hl'
  have hid := hl'.unique hl
  obtain ⟨e, he, hxe, -⟩ := expansion_record hx
  obtain ⟨e', he', hxe', -⟩ := expansion_record hx'
  have hnodup : ((legacyRecords root file).map Prod.fst).Nodup :=
    pairwise_map.2 ((legacyRecords_sorted root file).imp ne_of_lt)
  rw [hxe, hxe'] at hid ⊢
  exact congrArg legacyChange (inj_on_of_nodup_map hnodup ((h.legacy e'.1 e'.2).1 he').1 he hid)

/-- Fragments are read at the same offsets after a conversion. -/
lemma Converted.points (h : Converted root root' file outer)
    (hacyclic : Acyclic (legacyRecords root file)) (hs : s ∈ readStored cursor root' file) :
    ∃ t ∈ readStored cursor root file, t.point = s.point := by
  have hlegacy : ∀ x ∈ expandLegacy (legacyRecords root file), ∀ f ∈ x.2, ∀ pos,
      cursor f.2 = some pos → ∃ t ∈ readStored cursor root file, t.point = pos.offset :=
    fun x hx f hf pos hpos => by
      obtain ⟨t, ht⟩ : ∃ t, readLegacyFragment cursor f = some t := by
        rw [readLegacyFragment, hpos]
        exact ⟨_, rfl⟩
      refine ⟨t, mem_append_left _ (mem_flatMap.2 ⟨x, hx, mem_filterMap.2 ⟨f, hf, ht⟩⟩), ?_⟩
      rw [readLegacyFragment, hpos] at ht
      rw [← Option.some.inj ht]
  rcases mem_append.1 hs with hs | hs
  · obtain ⟨x', hx', hs⟩ := mem_flatMap.1 hs
    obtain ⟨f, hf, hs⟩ := mem_filterMap.1 hs
    obtain ⟨pos, hpos, rfl⟩ := Option.map_eq_some_iff.1 hs
    have hsorted := legacyRecords_sorted root' file
    obtain ⟨hknown, hne⟩ := mem_expansion hsorted (fun _ => legacyRecords_points) hx' hf
    obtain ⟨⟨i, v⟩, he, hi⟩ := mem_map.1 hknown
    have hi : i = f.1.change := hi
    have hacyclic' := h.acyclic hacyclic
    have hl' := fragment_leads hacyclic' hx' hf
    rw [← hi] at hl'
    have he₀ := ((h.legacy i v).1 he).1
    obtain ⟨x, hx, hl⟩ := exists_expansion_leads hacyclic (mem_map_of_mem he₀)
    have htext : v.deleted ≠ [] := by
      rw [← (expansion_leads hacyclic' hsorted hx' he).1 hl']
      refine fun hnil => hne (flatten_eq_nil_iff.1 hnil _ (mem_map.2 ⟨f, ?_, rfl⟩))
      exact mem_filter.2 ⟨hf, decide_eq_true hi.symm⟩
    obtain ⟨g, hg, -⟩ : ∃ g ∈ x.2, g.1.change = i := by
      by_contra hnone
      refine htext ?_
      rw [← (expansion_leads hacyclic (legacyRecords_sorted root file) hx he₀).1 hl,
        textsOf_eq_nil.2 fun g hg hgi => hnone ⟨g, hg, hgi⟩]
      rfl
    refine hlegacy x hx g hg pos ?_
    rw [expansion_start hx hg, ← h.leading hacyclic hx hx' he hl hl', ← expansion_start hx' hf,
      hpos]
  · obtain ⟨k, m, hm, hkind, hread⟩ := mem_heldStored.1 hs
    rcases (h.held k m).1 hm with hm | ⟨x, -, -, -, rfl⟩ | ⟨f, hf, -, rfl⟩
    · exact ⟨s, mem_append_right _ (mem_heldStored.2 ⟨k, m, hm, hkind, hread⟩), rfl⟩
    · exact absurd hkind nofun
    · obtain ⟨start, hstart, hread⟩ := Option.bind_eq_some_iff.1 hread
      obtain ⟨change, -, hread⟩ := Option.bind_eq_some_iff.1 hread
      obtain ⟨body, -, hread⟩ := Option.bind_eq_some_iff.1 hread
      obtain rfl : f.2 = start := Option.some.inj hstart
      split at hread
      · exact absurd hread nofun
      · obtain ⟨pos, hpos, rfl⟩ := Option.map_eq_some_iff.1 hread
        exact hlegacy outer h.expanded f hf pos hpos

lemma Converted.readAlike (h : Converted root root' file outer)
    (hacyclic : Acyclic (legacyRecords root file)) (hconv : Convertible cursor root file) :
    ReadAlike cursor file root root ∧ ReadAlike cursor file root root' :=
  ⟨⟨.refl _, (h.filter_unnamed hconv).1, fun s hs => ⟨s, hs, rfl⟩⟩,
    ⟨h.changes_perm, (h.filter_unnamed hconv).2, fun _ => h.points hacyclic⟩⟩

/-- What is adopted of the fragments in containers of their own. -/
def adoptedHeld (cursor : Bytes → Option Pos) (root : Root) (file : String) :
    List Stored × List ChangeRecord :=
  adopt ((readChanges cursor root file).map ChangeRecord.id) (heldStored cursor root file)

/-- The changes that are shown. -/
def shownChanges (cursor : Bytes → Option Pos) (root : Root) (file : String) :
    List ChangeRecord :=
  readChanges cursor root file ++ (adoptedHeld cursor root file).2

lemma ReadAlike.adopted (h : ReadAlike cursor file root r)
    (hconv : Convertible cursor root file) :
    (adopt ((readChanges cursor r file).map ChangeRecord.id) (readStored cursor r file)).1.Perm
        ((readStored cursor r file).filter (namesLegacy (legacyRecords root file)) ++
          (adoptedHeld cursor root file).1) ∧
      (adopt ((readChanges cursor r file).map ChangeRecord.id) (readStored cursor r file)).2 =
        (adoptedHeld cursor root file).2 := by
  have hknown : ∀ id, id ∈ (readChanges cursor r file).map ChangeRecord.id ↔
      id ∈ (readChanges cursor root file).map ChangeRecord.id := fun id =>
    (h.changes.map ChangeRecord.id).mem_iff
  have hnamed : ∀ s ∈ readStored cursor r file, namesLegacy (legacyRecords root file) s = true →
      s.authorship.who = none ∨
        s.fragment.change ∈ (readChanges cursor r file).map ChangeRecord.id := fun s _ hs =>
    .inr ((hknown _).2 (hconv.known (of_decide_eq_true hs)))
  have hsplit := adopt_split _ hnamed
  rw [h.others, adopt_congr hknown (heldStored cursor root file)] at hsplit
  exact hsplit

lemma ReadAlike.all_perm (h : ReadAlike cursor file root r)
    (hconv : Convertible cursor root file) :
    (allChanges (readChanges cursor r file) (readStored cursor r file)).Perm
      (shownChanges cursor root file) := by
  rw [allChanges, (h.adopted hconv).2]
  exact h.changes.append_right _

/-- Changes and fragments are not stored under one id. -/
lemma change_apart_fragment {d : ChangeRecord} (hd : d ∈ readChanges cursor root file)
    (hs : s ∈ heldStored cursor root file) : d.id ≠ s.authorship.id := by
  obtain ⟨k, m, hm, hkind, hread⟩ := mem_heldStored.1 hs
  rw [(readFragment_spec hread).1]
  rcases mem_readChanges.1 hd with ⟨⟨i, w⟩, he, hd⟩ | ⟨k', m', hm', hkind', hd⟩
  · rw [readLegacyChange_id hd]
    exact legacy_apart_held he hm
  · rw [readChange_id hd]
    rintro rfl
    obtain rfl := Entry.held.inj (Keyed.unique (mem_heldRecords.1 hm).1 (mem_heldRecords.1 hm').1)
    exact absurd (hkind.symm.trans hkind') nofun

lemma shownChanges_nodup (cursor : Bytes → Option Pos) (root : Root) (file : String) :
    ((shownChanges cursor root file).map ChangeRecord.id).Nodup := by
  have horphans := adopt_orphans_sublist
    ((readChanges cursor root file).map ChangeRecord.id) (heldStored cursor root file)
  rw [shownChanges, map_append]
  refine nodup_append.2 ⟨readChanges_nodup cursor root file, horphans.nodup
    (pairwise_map.2 ((heldStored_rising cursor root file).imp ne_of_lt)),
    fun a ha b hb hab => ?_⟩
  obtain ⟨d, hd, rfl⟩ := mem_map.1 ha
  obtain ⟨s, hs, rfl⟩ := mem_map.1 (horphans.subset hb)
  exact change_apart_fragment hd hs hab

/-- A change without a span makes no difference to where fragments are. -/
lemma Convertible.shown_apart (hconv : Convertible cursor root file)
    (hs : s ∈ readStored cursor root file) :
    ApartAt (shownChanges cursor root file) s.point := by
  have hbare : ∀ d ∈ shownChanges cursor root file, d.fromPos < s.point → s.point < d.toPos →
      d ∈ readChanges cursor root file := fun d hd hfrom hto => by
    refine (mem_append.1 hd).resolve_right fun horphan => ?_
    rw [adopt_orphans_bare horphan] at hfrom
    exact absurd (hfrom.trans hto) (lt_irrefl _)
  intro d hd e he hdp hpd hep hpe
  exact hconv.apart s hs d (hbare d hd hdp hpd) e (hbare e he hep hpe) hdp hpd hep hpe

lemma ReadAlike.outside_shown (h : ReadAlike cursor file root r)
    (hconv : Convertible cursor root file) {t : Stored} (ht : t ∈ readStored cursor r file)
    (hpoint : s.point = t.point) :
    outside (allChanges (readChanges cursor r file) (readStored cursor r file)) s =
      outside (shownChanges cursor root file) s := by
  obtain ⟨u, hu, hut⟩ := h.points t ht
  rw [outside_eq, outside_eq, hpoint, ← hut,
    outsidePoint_perm (h.all_perm hconv) (hconv.shown_apart hu)]

lemma adoptedHeld_ids (cursor : Bytes → Option Pos) (root : Root) (file : String) :
    ((adoptedHeld cursor root file).1.map fun s => s.fragment.id).Nodup ∧
      ∀ s ∈ (adoptedHeld cursor root file).1, s.fragment.id.isSome := by
  have hids : (heldStored cursor root file).map (fun s => s.fragment.id) =
      (heldStored cursor root file).map fun s => some s.authorship.id :=
    map_congr_left fun s hs => by
      obtain ⟨k, m, -, -, hread⟩ := mem_heldStored.1 hs
      rw [(readFragment_spec hread).1, (readFragment_spec hread).2.1]
  have hall : (adoptedHeld cursor root file).1.map (fun s => s.fragment.id) =
      (heldStored cursor root file).map fun s => some s.authorship.id :=
    (adopt_fragment_ids _ _).trans hids
  constructor
  · rw [hall]
    exact pairwise_map.2 ((heldStored_rising cursor root file).imp fun hlt heq =>
      hlt.ne (Option.some.inj heq))
  · intro s hs
    obtain ⟨t, -, ht⟩ := mem_map.1 (hall ▸ mem_map_of_mem hs :
      s.fragment.id ∈ (heldStored cursor root file).map fun s => some s.authorship.id)
    rw [← ht]
    rfl

/-- The fragments of a change that is not of the earlier model. -/
lemma ReadAlike.fragments_perm (h : ReadAlike cursor file root r)
    (hconv : Convertible cursor root file)
    (hshown : c ∈ (shownChanges cursor root file).map ChangeRecord.id)
    (hc : c ∉ (legacyRecords root file).map Prod.fst) :
    (fragmentsOf c (liveFragments (readChanges cursor r file) (readStored cursor r file))).Perm
      ((fragmentsOf c (adoptedHeld cursor root file).1).map
        (outside (shownChanges cursor root file))) := by
  have hknown := (((h.all_perm hconv).map ChangeRecord.id).mem_iff (a := c)).2 hshown
  refine (fragmentsOf_live hknown).2.trans ?_
  have hnamed : fragmentsOf c
      ((readStored cursor r file).filter (namesLegacy (legacyRecords root file))) = [] :=
    filter_eq_nil_iff.2 fun s hs hsc => by
      have hname := of_decide_eq_true (mem_filter.1 hs).2
      exact hc (of_decide_eq_true hsc ▸ hname)
  have hrest := (h.adopted hconv).1.filter fun s => s.fragment.change = c
  rw [filter_append] at hrest
  refine ((hrest.trans (Perm.of_eq ?_)).map _).trans (Perm.of_eq (map_congr_left fun s hs => ?_))
  · exact congrArg (· ++ fragmentsOf c (adoptedHeld cursor root file).1) hnamed
  · obtain ⟨t, ht, -, hpoint, -⟩ := mem_adopt (mem_filter.1 hs).1
    rw [← h.others] at ht
    exact h.outside_shown hconv (mem_filter.1 ht).1 hpoint

lemma ReadAlike.fragments_eq (h : ReadAlike cursor file root r)
    (hself : ReadAlike cursor file root root) (hconv : Convertible cursor root file)
    (hshown : c ∈ (shownChanges cursor root file).map ChangeRecord.id)
    (hc : c ∉ (legacyRecords root file).map Prod.fst) :
    fragmentsOf c (liveFragments (readChanges cursor r file) (readStored cursor r file)) =
      fragmentsOf c
        (liveFragments (readChanges cursor root file) (readStored cursor root file)) := by
  have hperm := h.fragments_perm hconv hshown hc
  have hperm' := hself.fragments_perm hconv hshown hc
  refine Perm.eq_of_pairwise (fun a b ha hb hab hba => ?_)
    ((sortByKey_pairwise _ _).filter _) ((sortByKey_pairwise _ _).filter _)
    (hperm.trans hperm'.symm)
  obtain ⟨a', ha', rfl⟩ := mem_map.1 (hperm.mem_iff.1 ha)
  obtain ⟨b', hb', rfl⟩ := mem_map.1 (hperm'.mem_iff.1 hb)
  obtain ⟨hnodup, hsome⟩ := adoptedHeld_ids cursor root file
  have ha' := (mem_filter.1 ha').1
  have hb' := (mem_filter.1 hb').1
  have hkey := le_antisymm hab hba
  rw [outside_eq, outside_eq] at hkey
  have hid : a'.fragment.id.getD "" = b'.fragment.id.getD "" :=
    congrArg (fun k => (ofLex (ofLex (ofLex k).2).2).2) hkey
  obtain ⟨i, hi⟩ := Option.isSome_iff_exists.1 (hsome a' ha')
  obtain ⟨j, hj⟩ := Option.isSome_iff_exists.1 (hsome b' hb')
  have heq : a'.fragment.id = b'.fragment.id := by
    rw [hi, hj] at hid ⊢
    exact congrArg some hid
  rw [inj_on_of_nodup_map hnodup ha' hb' heq]

/-- Only what is read under its name makes up a change of the earlier model. -/
lemma ReadAlike.legacy_perm (h : ReadAlike cursor file root r)
    (hconv : Convertible cursor root file) (hc : c ∈ (legacyRecords root file).map Prod.fst) :
    (fragmentsOf c (liveFragments (readChanges cursor r file) (readStored cursor r file))).Perm
      ((fragmentsOf c (readStored cursor r file)).map
        (outside (shownChanges cursor root file))) := by
  have hknown : c ∈ (shownChanges cursor root file).map ChangeRecord.id := by
    rw [shownChanges, map_append]
    exact mem_append_left _ (hconv.known hc)
  have hknown := (((h.all_perm hconv).map ChangeRecord.id).mem_iff (a := c)).2 hknown
  refine (fragmentsOf_live hknown).2.trans ?_
  have hnone : fragmentsOf c (adoptedHeld cursor root file).1 = [] :=
    filter_eq_nil_iff.2 fun s hs hsc => by
      have hsc : s.fragment.change = c := of_decide_eq_true hsc
      obtain ⟨t, ht, -, -, rfl | hadopted⟩ := mem_adopt hs
      · exact absurd (decide_eq_true (hsc ▸ hc)) (Bool.eq_false_iff.1 (hconv.held_unnamed ht))
      · obtain ⟨k, m, hm, -, hread⟩ := mem_heldStored.1 ht
        obtain ⟨⟨i, w⟩, he, rfl⟩ := mem_map.1 hc
        rw [(readFragment_spec hread).1] at hadopted
        exact legacy_apart_held he hm (hsc.symm.trans hadopted)
  have hnamed : fragmentsOf c
      ((readStored cursor r file).filter (namesLegacy (legacyRecords root file))) =
        fragmentsOf c (readStored cursor r file) := by
    rw [fragmentsOf, filter_filter]
    refine filter_congr fun s _ => ?_
    by_cases hs : s.fragment.change = c
    · simp [namesLegacy, hs, hc]
    · simp [hs]
  have hrest := (h.adopted hconv).1.filter fun s => s.fragment.change = c
  rw [filter_append] at hrest
  have hsame := (congrArg₂ (· ++ ·) hnamed hnone).trans (append_nil _)
  refine ((hrest.trans (Perm.of_eq hsame)).map _).trans (Perm.of_eq (map_congr_left fun s hs => ?_))
  exact h.outside_shown hconv (mem_filter.1 hs).1 rfl

lemma fragmentsOf_filterMap {fs : List (Fragment × Bytes)}
    (hread : ∀ f ∈ fs, ∀ s, read f = some s → s.fragment.change = f.1.change) :
    fragmentsOf c (fs.filterMap read) = (fs.filter fun f => f.1.change = c).filterMap read := by
  induction fs with
  | nil => rfl
  | cons f fs ih =>
    have hrest := ih fun g hg => hread g (mem_cons_of_mem _ hg)
    unfold fragmentsOf at hrest ⊢
    cases hf : read f with
    | none =>
      rw [filterMap_cons_none hf, hrest, filter_cons]
      split
      · rw [filterMap_cons_none hf]
      · rfl
    | some s =>
      have hchange := hread f mem_cons_self s hf
      rw [filterMap_cons_some hf, filter_cons, filter_cons, hchange, hrest]
      split
      · rw [filterMap_cons_some hf]
      · rfl

/-- A change shows its deleted text where the expansion that leads it is anchored. `read` reads a
fragment of that expansion. -/
lemma sourced_of_leads (hacyclic : Acyclic (legacyRecords r file))
    (hx : x ∈ expandLegacy (legacyRecords r file)) (hc : (c, v) ∈ legacyRecords r file)
    (hl : Leads (PointsAt (legacyRecords r file)) c x.1.id)
    (hread : ∀ f ∈ x.2, (read f).isSome = (cursor x.1.start).isSome ∧ ∀ s, read f = some s →
      (cursor x.1.start).map Pos.offset = some s.point ∧ s.fragment.text = f.1.text ∧
        s.fragment.rank.getD 0 = f.1.rank.getD 0) {changes : List ChangeRecord} {l : List Stored}
    (hsorted : l.Pairwise fun a b => liveKey a ≤ liveKey b) (hperm : l.Perm
      (((x.2.filter fun f => f.1.change = c).filterMap read).map (outside changes))) :
    Sourced cursor (outsidePoint changes) x.1.start v.deleted l := by
  have hrecords := legacyRecords_sorted r file
  refine sourced_of_read ((expansion_leads hacyclic hrecords hx hc).1 hl) (fun f hf => ?_)
    (((expansion_pairwise hx).imp And.right).filter _)
    (fun f hf => hread f (mem_filter.1 hf).1) hsorted hperm
  exact (mem_expansion hrecords (fun _ => legacyRecords_points) hx (mem_filter.1 hf).1).2

/-- The fragments that are read of a record of the earlier model are those of one expansion. -/
lemma fragmentsOf_legacyStored (hacyclic : Acyclic (legacyRecords r file))
    (hx : x ∈ expandLegacy (legacyRecords r file)) (hc : (c, v) ∈ legacyRecords r file)
    (hl : Leads (PointsAt (legacyRecords r file)) c x.1.id) :
    fragmentsOf c (legacyStored cursor r file) =
      (x.2.filter fun f => f.1.change = c).filterMap (readLegacyFragment cursor) := by
  have hkeep : ∀ f s, readLegacyFragment cursor f = some s → s.fragment.change = f.1.change :=
    fun f s hs => by
      obtain ⟨pos, -, rfl⟩ := Option.map_eq_some_iff.1 hs
      rfl
  have hone : ∀ y : LegacyExpansion, fragmentsOf c (y.2.filterMap (readLegacyFragment cursor)) =
      (y.2.filter fun f => f.1.change = c).filterMap (readLegacyFragment cursor) :=
    fun y => fragmentsOf_filterMap fun f _ => hkeep f
  have hothers : ∀ y ∈ expandLegacy (legacyRecords r file), y ≠ x →
      fragmentsOf c (y.2.filterMap (readLegacyFragment cursor)) = [] := fun y hy hne => by
    have hnone : textsOf c y.2 = [] := by
      by_contra htexts
      have hly := (expansion_leads hacyclic (legacyRecords_sorted r file) hy hc).2 htexts
      exact hne (expansion_unique hy hx (hly.unique hl))
    rw [hone, map_eq_nil_iff.1 hnone, filterMap_nil]
  obtain ⟨before, after, hsplit⟩ := append_of_mem hx
  have hnodup : (expandLegacy (legacyRecords r file)).Nodup := by
    refine Nodup.of_map (fun x => x.1.id) ?_
    rw [expandLegacy_ids]
    exact pairwise_map.2 ((legacyRecords_sorted r file).imp ne_of_lt)
  rw [hsplit] at hnodup
  have hx' := (nodup_middle.1 hnodup).notMem
  have hflat : ∀ l : List LegacyExpansion, (∀ y ∈ l, y ∈ expandLegacy (legacyRecords r file)) →
      x ∉ l → l.flatMap (fun y => fragmentsOf c (y.2.filterMap (readLegacyFragment cursor))) = [] :=
    fun l hl hxl => flatMap_eq_nil_iff.2 fun y hy =>
      hothers y (hl y hy) fun heq => hxl (heq ▸ hy)
  rw [legacyStored, fragmentsOf, filter_flatMap, hsplit, flatMap_append, flatMap_cons]
  have hbefore := hflat before
    (fun y hy => hsplit ▸ mem_append_left _ hy) fun hin => hx' (mem_append_left _ hin)
  have hafter := hflat after
    (fun y hy => hsplit ▸ mem_append_right _ (mem_cons_of_mem _ hy))
    fun hin => hx' (mem_append_right _ hin)
  exact (congrArg₂ (· ++ ·) hbefore (congrArg₂ (· ++ ·) (hone x) hafter)).trans (append_nil _)

/-- Reads a converted fragment. -/
def readConverted (cursor : Bytes → Option Pos) (file : String) (group : List LegacyExpansion)
    (f : Fragment × Bytes) : Option Stored :=
  f.1.id.bind fun k => readFragment cursor k (heldFragment file (ownerOf group f) f)

lemma readConverted_spec {group : List LegacyExpansion}
    (hx : x ∈ expandLegacy (legacyRecords r file)) (hf : f ∈ x.2) :
    (readConverted cursor file group f).isSome = (cursor x.1.start).isSome ∧
      ∀ s, readConverted cursor file group f = some s →
        (cursor x.1.start).map Pos.offset = some s.point ∧ s.fragment.text = f.1.text ∧
          s.fragment.rank.getD 0 = f.1.rank.getD 0 := by
  have hne := (mem_expansion (legacyRecords_sorted r file)
    (fun _ => legacyRecords_points) hx hf).2
  obtain ⟨k, hk⟩ : ∃ k, f.1.id = some k := by
    obtain ⟨e, -, pieces, -, rfl⟩ := mem_expandLegacy hx
    obtain ⟨i, hi, rfl⟩ := mem_mapIdx.1 hf
    exact ⟨_, rfl⟩
  have hstart := expansion_start hx hf
  simp only [readConverted, hk, Option.bind_some, readFragment, heldFragment, if_neg hne,
    Option.isSome_map, hstart]
  refine ⟨trivial, fun s hs => ?_⟩
  obtain ⟨pos, hpos, rfl⟩ := Option.map_eq_some_iff.1 hs
  rw [hpos]
  exact ⟨rfl, rfl, rfl⟩

/-- The fragments that are read of a converted change are those of its expansion. -/
lemma Converted.heldStored_perm (h : Converted root root' file outer)
    (hconv : Convertible cursor root file) (hc : c ∈ (legacyRecords root file).map Prod.fst) :
    (fragmentsOf c (heldStored cursor root' file)).Perm
      ((outer.2.filter fun f => f.1.change = c).filterMap (readConverted cursor file
        (groupOf (expandLegacy (legacyRecords root file)) outer))) := by
  have hread : ∀ {f : Fragment × Bytes} {s : Stored}, readConverted cursor file
      (groupOf (expandLegacy (legacyRecords root file)) outer) f = some s →
      f.1.id = s.fragment.id ∧ f.1.change = s.fragment.change := fun hs => by
    obtain ⟨k, hk, hs⟩ := Option.bind_eq_some_iff.1 hs
    have hspec := (readFragment_spec hs).2
    exact ⟨hk.trans hspec.1.symm, Option.some.inj hspec.2⟩
  have hleft : (fragmentsOf c (heldStored cursor root' file)).Nodup :=
    ((heldStored_rising cursor root' file).filter _).imp fun hlt heq =>
      absurd (congrArg (fun s => s.authorship.id) heq) hlt.ne
  have hright : ((outer.2.filter fun f => f.1.change = c).filterMap (readConverted cursor file
      (groupOf (expandLegacy (legacyRecords root file)) outer))).Nodup := by
    refine pairwise_filterMap.2 (((expansion_pairwise h.expanded).filter _).imp
      fun hfg s hs t ht heq => hfg.1 ?_)
    rw [(hread hs).1, (hread ht).1, heq]
  refine (perm_ext_iff_of_nodup hleft hright).2 fun s => ?_
  rw [fragmentsOf, mem_filter, mem_heldStored, mem_filterMap]
  constructor
  · rintro ⟨⟨k, m, hm, hkind, hs⟩, hsc⟩
    have hsc : s.fragment.change = c := of_decide_eq_true hsc
    rcases (h.held k m).1 hm with hm | ⟨x, -, -, -, rfl⟩ | ⟨f, hf, hk, rfl⟩
    · have hno := hconv.held_unnamed (mem_heldStored.2 ⟨k, m, hm, hkind, hs⟩)
      exact absurd (decide_eq_true (hsc ▸ hc)) (Bool.eq_false_iff.1 hno)
    · cases hkind
    · have hchange : f.1.change = c :=
        (Option.some.inj (readFragment_spec hs).2.2).trans hsc
      refine ⟨f, mem_filter.2 ⟨hf, decide_eq_true hchange⟩, ?_⟩
      rw [readConverted, hk, Option.bind_some, hs]
  · rintro ⟨f, hf, hs⟩
    obtain ⟨hf, hfc⟩ := mem_filter.1 hf
    have hfc : f.1.change = c := of_decide_eq_true hfc
    have hchange := (hread hs).2
    obtain ⟨k, hk, hs⟩ := Option.bind_eq_some_iff.1 hs
    exact ⟨⟨k, _, (h.held k _).2 (.inr (.inr ⟨f, hf, hk, rfl⟩)), rfl, hs⟩,
      decide_eq_true (hchange.symm.trans hfc)⟩

lemma readLegacyFragment_spec (hx : x ∈ expandLegacy (legacyRecords r file)) (hf : f ∈ x.2) :
    (readLegacyFragment cursor f).isSome = (cursor x.1.start).isSome ∧
      ∀ s, readLegacyFragment cursor f = some s →
        (cursor x.1.start).map Pos.offset = some s.point ∧ s.fragment.text = f.1.text ∧
          s.fragment.rank.getD 0 = f.1.rank.getD 0 := by
  rw [readLegacyFragment, Option.isSome_map, expansion_start hx hf]
  refine ⟨rfl, fun s hs => ?_⟩
  obtain ⟨pos, hpos, rfl⟩ := Option.map_eq_some_iff.1 hs
  rw [hpos]
  exact ⟨rfl, rfl, rfl⟩

/-- No container holds a fragment of a record of the earlier model that is left. -/
lemma ReadAlike.sourced_legacy (h : ReadAlike cursor file root r)
    (hconv : Convertible cursor root file) (hacyclic : Acyclic (legacyRecords r file))
    (hx : x ∈ expandLegacy (legacyRecords r file))
    (hroot : c ∈ (legacyRecords root file).map Prod.fst) (hc : (c, v) ∈ legacyRecords r file)
    (hl : Leads (PointsAt (legacyRecords r file)) c x.1.id)
    (hnone : fragmentsOf c (heldStored cursor r file) = []) :
    Sourced cursor (outsidePoint (shownChanges cursor root file)) x.1.start v.deleted
      (fragmentsOf c (liveFragments (readChanges cursor r file) (readStored cursor r file))) := by
  have hread : fragmentsOf c (readStored cursor r file) =
      (x.2.filter fun f => f.1.change = c).filterMap (readLegacyFragment cursor) := by
    rw [readStored_eq, fragmentsOf, filter_append, ← fragmentsOf_legacyStored hacyclic hx hc hl]
    exact (congrArg (_ ++ ·) hnone).trans (append_nil _)
  refine sourced_of_leads hacyclic hx hc hl (fun _ => readLegacyFragment_spec hx)
    ((sortByKey_pairwise _ _).filter _) ?_
  rw [← hread]
  exact h.legacy_perm hconv hroot

/-- A record of the earlier model is shown as it was. -/
lemma Converted.legacy_alike (h : Converted root root' file outer)
    (hacyclic : Acyclic (legacyRecords root file)) (hconv : Convertible cursor root file)
    (hc : c ∈ (legacyRecords root file).map Prod.fst) :
    ShownAlike
      (fragmentsOf c (liveFragments (readChanges cursor root file) (readStored cursor root file)))
      (fragmentsOf c
        (liveFragments (readChanges cursor root' file) (readStored cursor root' file))) := by
  obtain ⟨hself, halike⟩ := h.readAlike hacyclic hconv
  obtain ⟨x, hx, hl⟩ := exists_expansion_leads hacyclic hc
  obtain ⟨⟨i, v⟩, he, rfl⟩ := mem_map.1 hc
  have hheld : ∀ s ∈ heldStored cursor root file, s.fragment.change ≠ i := fun s hs heq =>
    absurd (decide_eq_true (heq ▸ hc)) (Bool.eq_false_iff.1 (hconv.held_unnamed hs))
  refine (hself.sourced_legacy hconv hacyclic hx hc he hl
    (filter_eq_nil_iff.2 fun s hs => by simpa using hheld s hs)).alike ?_
  by_cases hz : Leads (PointsAt (legacyRecords root file)) i outer.1.id
  · obtain rfl := expansion_unique hx h.expanded (hl.unique hz)
    have hgone : fragmentsOf i (legacyStored cursor root' file) = [] :=
      filter_eq_nil_iff.2 fun s hs hsi => by
        have hsi : s.fragment.change = i := of_decide_eq_true hsi
        obtain ⟨⟨j, w⟩, hj, hjs⟩ := mem_map.1 (mem_legacyStored hs).2
        obtain rfl : j = i := hjs.trans hsi
        exact ((h.legacy j w).1 hj).2 hz
    have hread : fragmentsOf i (readStored cursor root' file) =
        fragmentsOf i (heldStored cursor root' file) := by
      rw [readStored_eq, fragmentsOf, filter_append]
      exact congrArg (· ++ fragmentsOf i (heldStored cursor root' file)) hgone
    have hperm := halike.legacy_perm hconv hc
    rw [hread] at hperm
    exact sourced_of_leads hacyclic hx he hl (fun _ => readConverted_spec hx)
      ((sortByKey_pairwise _ _).filter _)
      (hperm.trans ((h.heldStored_perm hconv hc).map _))
  · have hxz : ¬ Leads (PointsAt (legacyRecords root file)) x.1.id outer.1.id := fun hxz =>
      hz ((hl.between .refl hl.reach).unique hxz ▸ hl)
    obtain ⟨e, hex, hxe, -⟩ := expansion_record hx
    have hidx : x.1.id = e.1 := congrArg LegacyChange.id hxe
    have hex' : e ∈ legacyRecords root' file := (h.legacy e.1 e.2).2 ⟨hex, hidx ▸ hxz⟩
    obtain ⟨x', hx', hxe'⟩ := exists_mem_expandLegacy hex'
    have hsame : x'.1 = x.1 := hxe'.trans hxe.symm
    have hl' : Leads (PointsAt (legacyRecords root' file)) i x'.1.id := by
      rw [hsame, h.pointsAt]
      exact hl.without hz hacyclic.founded
        (finite_toSet ((legacyRecords root file).map Prod.fst)) fun _ _ hab => hab.mem
    have hout : (outer.2.filter fun f => f.1.change = i) = [] :=
      filter_eq_nil_iff.2 fun f hf hfi => hz (of_decide_eq_true hfi ▸
        fragment_leads hacyclic h.expanded hf)
    have hheld' := h.heldStored_perm hconv hc
    rw [hout, filterMap_nil] at hheld'
    have hnone : fragmentsOf i (heldStored cursor root' file) = [] := perm_nil.1 hheld'
    rw [← hsame]
    exact halike.sourced_legacy hconv (h.acyclic hacyclic) hx' hc ((h.legacy i v).2 ⟨he, hz⟩)
      hl' hnone

/-- The rows of a file stay the same when a group of it is converted. -/
lemma Converted.rows (h : Converted root root' file outer)
    (hacyclic : Acyclic (legacyRecords root file)) (hconv : Convertible cursor root file) :
    (assemble (readChanges cursor root' file) (readStored cursor root' file)).changes =
        (assemble (readChanges cursor root file) (readStored cursor root file)).changes ∧
      ∀ d ∈ (assemble (readChanges cursor root file) (readStored cursor root file)).changes,
        deletedOf (assemble (readChanges cursor root' file)
            (readStored cursor root' file)).gaps d.id =
          deletedOf (assemble (readChanges cursor root file)
            (readStored cursor root file)).gaps d.id := by
  obtain ⟨hself, halike⟩ := h.readAlike hacyclic hconv
  have hall := hself.all_perm hconv
  refine assemble_congr ((halike.all_perm hconv).trans hall.symm)
    ((hall.map ChangeRecord.id).nodup_iff.2 (shownChanges_nodup cursor root file))
    fun d hd => ?_
  by_cases hlegacy : d.id ∈ (legacyRecords root file).map Prod.fst
  · exact h.legacy_alike hacyclic hconv hlegacy
  · rw [halike.fragments_eq hself hconv ((hall.map ChangeRecord.id).subset
      (mem_map_of_mem hd)) hlegacy]
    exact ShownAlike.refl _

end Shown

end LibrePaper.Track
