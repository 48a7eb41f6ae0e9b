import LibrePaper.Track.Reading

/-!
# Converting records of the earlier model

A record of the earlier model is rewritten as containers before it is written to: the outermost
record that holds its fragments, the records that those fragments name, and the fragments. Where
spans do not overlap and every reference is to deleted text, what is shown stays the same.
-/
namespace LibrePaper.Track
open Library List

/-- The container of a change. A span keeps its start only together with its end. -/
def heldChange (file : String) (c : LegacyChange) : HeldRecord where
  kind := some .change
  file := some file
  who := some c.who
  author := some c.author
  run := c.run
  stamp := some (c.stamp : ℚ)
  start := c.stop.map fun _ => c.start
  stop := c.stop
  change := none
  text := none
  rank := none

/-- The container of a fragment, with the author fields of its owner. -/
def heldFragment (file : String) (owner : Option LegacyChange) (f : Fragment × Bytes) :
    HeldRecord where
  kind := some .fragment
  file := some file
  who := some ((owner.map LegacyChange.who).getD "")
  author := some ((owner.map LegacyChange.author).getD "")
  run := owner.bind LegacyChange.run
  stamp := some (((owner.map LegacyChange.stamp).getD 0 : ℤ) : ℚ)
  start := some f.2
  stop := none
  change := some f.1.change
  text := some f.1.text
  rank := some (f.1.rank.getD 0)

/-- The record that holds the fragments of a record, which may be another one. -/
def outerOf (expanded : List LegacyExpansion) (id : String) : Option LegacyExpansion :=
  ((expanded.find? fun x => decide (x.1.id = id) && !x.2.isEmpty).or
    (expanded.find? fun x => x.2.any fun f => f.1.change = id)).or
      (expanded.find? fun x => x.1.id = id)

/-- The outermost record and those that its fragments name. -/
def groupOf (expanded : List LegacyExpansion) (outer : LegacyExpansion) : List LegacyExpansion :=
  outer :: expanded.filter fun x =>
    decide (x.1.id ≠ outer.1.id) && outer.2.any fun f => f.1.change = x.1.id

/-- The record of a group that owns a fragment. -/
def ownerOf (group : List LegacyExpansion) (f : Fragment × Bytes) : Option LegacyChange :=
  (group.find? fun x => x.1.id = f.1.change).map Prod.fst

/-- The containers of a group. -/
def groupEntries (file : String) (group : List LegacyExpansion) (outer : LegacyExpansion) :
    List (String × Entry) :=
  group.map (fun x => (x.1.id, .held (heldChange file x.1))) ++
    outer.2.filterMap fun f =>
      f.1.id.map fun id => (id, .held (heldFragment file (ownerOf group f) f))

/-- Rewrites a record of the earlier model as containers, with its whole group. There is no result
when it is not one. -/
def convertLegacy (doc : Document) (file id : String) : Option Document :=
  let expanded := expandLegacy (legacyRecords doc.changes file)
  if (recordAt (legacyRecords doc.changes file) id).isNone then none
  else (outerOf expanded id).map fun outer =>
    { doc with changes := doc.changes.putAll (groupEntries file (groupOf expanded outer) outer) }

/-- Every record that another one points at has deleted text. -/
def Nested (records : List (String × LegacyRecord)) : Prop :=
  ∀ e ∈ records, (∃ a, PointsAt records a e.1) → e.2.deleted ≠ []

section Group

variable {root : Root} {file id : String}

lemma legacyRecords_points {e : String × LegacyRecord} (he : e ∈ legacyRecords root file) :
    ∀ q ∈ e.2.points, q.2 ≤ e.2.deleted.length := by
  obtain ⟨p, -, hp⟩ := mem_legacyRecords.1 he
  exact legacyRecord_points hp

variable {x outer : LegacyExpansion} {v : LegacyRecord}

lemma expansion_unique {y : LegacyExpansion} (hx : x ∈ expandLegacy (legacyRecords root file))
    (hy : y ∈ expandLegacy (legacyRecords root file)) (h : x.1.id = y.1.id) : x = y := by
  refine inj_on_of_nodup_map (f := fun x : LegacyExpansion => x.1.id) ?_ hx hy h
  rw [expandLegacy_ids]
  exact pairwise_map.2 ((legacyRecords_sorted root file).imp ne_of_lt)

lemma expansion_record (hx : x ∈ expandLegacy (legacyRecords root file)) :
    ∃ e ∈ legacyRecords root file, x.1 = legacyChange e ∧ ∀ f ∈ x.2, f.2 = e.2.start := by
  obtain ⟨e, he, pieces, -, rfl⟩ := mem_expandLegacy hx
  refine ⟨e, he, rfl, fun f hf => ?_⟩
  obtain ⟨i, hi, rfl⟩ := mem_mapIdx.1 hf
  rfl

/-- A fragment is in the expansion of the record that leads the one it names. -/
lemma fragment_leads (hacyclic : Acyclic (legacyRecords root file))
    (hx : x ∈ expandLegacy (legacyRecords root file)) {f : Fragment × Bytes} (hf : f ∈ x.2) :
    Leads (PointsAt (legacyRecords root file)) f.1.change x.1.id := by
  have hsorted := legacyRecords_sorted root file
  obtain ⟨hknown, -⟩ := mem_expansion hsorted (fun _ => legacyRecords_points) hx hf
  obtain ⟨e, he, hef⟩ := mem_map.1 hknown
  rw [← hef]
  refine (expansion_leads hacyclic hsorted hx he).2 fun hnil => ?_
  exact textsOf_eq_nil.1 hnil f hf hef.symm

lemma outermost_of_textless (hacyclic : Acyclic (legacyRecords root file))
    (hnested : Nested (legacyRecords root file)) (hid : (id, v) ∈ legacyRecords root file)
    (hnone : ∀ x ∈ expandLegacy (legacyRecords root file), ∀ f ∈ x.2, f.1.change ≠ id) (a : String) :
    ¬ PointsAt (legacyRecords root file) a id := by
  intro ha
  obtain ⟨x, hx, htexts, -⟩ := pieces_once hacyclic (legacyRecords_sorted root file) hid
  rw [textsOf_eq_nil.2 (hnone x hx)] at htexts
  exact hnested _ hid ⟨a, ha⟩ htexts.symm

/-- The outermost record of the group leads the record that is converted. -/
lemma outerOf_leads (hacyclic : Acyclic (legacyRecords root file))
    (hnested : Nested (legacyRecords root file)) (hid : (id, v) ∈ legacyRecords root file)
    (houter : outerOf (expandLegacy (legacyRecords root file)) id = some outer) :
    outer ∈ expandLegacy (legacyRecords root file) ∧
      Leads (PointsAt (legacyRecords root file)) id outer.1.id := by
  rw [outerOf, Option.or_eq_some_iff, Option.or_eq_some_iff] at houter
  rcases houter with (hfirst | ⟨-, hsecond⟩) | ⟨hnone, hthird⟩
  · have hx := mem_of_find?_eq_some hfirst
    have hcond := find?_some hfirst
    simp only [Bool.and_eq_true, decide_eq_true_eq, Bool.not_eq_true', isEmpty_eq_false_iff]
      at hcond
    obtain ⟨f, hf⟩ := exists_mem_of_ne_nil _ hcond.2
    have hleads := fragment_leads hacyclic hx hf
    exact ⟨hx, hcond.1 ▸ hleads.between .refl hleads.reach⟩
  · have hx := mem_of_find?_eq_some hsecond
    have hcond : (outer.2.any fun f => decide (f.1.change = id)) = true := by
      simpa using find?_some hsecond
    obtain ⟨f, hf, hchange⟩ := any_eq_true.1 hcond
    have hchange : f.1.change = id := of_decide_eq_true hchange
    exact ⟨hx, hchange ▸ fragment_leads hacyclic hx hf⟩
  · have hx := mem_of_find?_eq_some hthird
    have hidx : outer.1.id = id := by simpa using find?_some hthird
    have hnone := find?_eq_none.1 (Option.or_eq_none_iff.1 hnone).2
    have hroot := outermost_of_textless hacyclic hnested hid fun x hx f hf hfid =>
      hnone x hx (any_eq_true.2 ⟨f, hf, decide_eq_true hfid⟩)
    rw [hidx]
    refine ⟨hx, hroot, .refl, fun z hz hzid hlt => ?_⟩
    rcases hzid.cases_tail with heq | ⟨b, -, hb⟩
    · exact absurd (heq ▸ hlt) (lt_irrefl _)
    · exact hroot b hb

/-- The group is what the outermost record leads. -/
lemma mem_groupOf (hacyclic : Acyclic (legacyRecords root file))
    (hnested : Nested (legacyRecords root file))
    (houter : outer ∈ expandLegacy (legacyRecords root file))
    (hleads : Leads (PointsAt (legacyRecords root file)) outer.1.id outer.1.id) :
    x ∈ groupOf (expandLegacy (legacyRecords root file)) outer ↔
      x ∈ expandLegacy (legacyRecords root file) ∧
        Leads (PointsAt (legacyRecords root file)) x.1.id outer.1.id := by
  rw [groupOf, mem_cons, mem_filter, Bool.and_eq_true, decide_eq_true_eq, any_eq_true]
  constructor
  · rintro (rfl | ⟨hx, -, f, hf, hchange⟩)
    · exact ⟨houter, hleads⟩
    · have hchange : f.1.change = x.1.id := of_decide_eq_true hchange
      exact ⟨hx, hchange ▸ fragment_leads hacyclic houter hf⟩
  · rintro ⟨hx, hxleads⟩
    by_cases hne : x.1.id = outer.1.id
    · exact .inl (expansion_unique hx houter hne)
    · refine .inr ⟨hx, hne, ?_⟩
      obtain ⟨⟨c, v⟩, hc, hxe, -⟩ := expansion_record hx
      have hidc : x.1.id = c := congrArg LegacyChange.id hxe
      rw [hidc] at hxleads hne ⊢
      have hpointed : ∃ a, PointsAt (legacyRecords root file) a c := by
        rcases hxleads.reach.cases_tail with heq | ⟨a, -, ha⟩
        · exact absurd heq hne
        · exact ⟨a, ha⟩
      have htexts := (expansion_leads hacyclic (legacyRecords_sorted root file) houter hc).1 hxleads
      by_contra hnone
      refine hnested _ hc hpointed (htexts.symm.trans ?_)
      rw [textsOf_eq_nil.2 fun f hf hfc => hnone ⟨f, hf, decide_eq_true hfc⟩]
      rfl

/-- No record is stored under the id of a derived fragment. -/
def Unused (root : Root) (file : String) : Prop :=
  ∀ x ∈ expandLegacy (legacyRecords root file), ∀ f ∈ x.2, ∀ k, f.1.id = some k →
    k ∉ root.entries.map Prod.fst

lemma fragmentId_inj {i j : ℕ} (h : fragmentId id i = fragmentId id j) : i = j :=
  Nat.repr_injective ((String.append_right_inj _).1 h)

/-- The fragments of an expansion have ids of their own, and rising ranks. -/
lemma expansion_pairwise (hx : x ∈ expandLegacy (legacyRecords root file)) :
    x.2.Pairwise fun f g => f.1.id ≠ g.1.id ∧ f.1.rank.getD 0 < g.1.rank.getD 0 := by
  obtain ⟨e, -, pieces, -, rfl⟩ := mem_expandLegacy hx
  refine pairwise_iff_getElem.2 fun i j hi hj hij => ?_
  rw [getElem_mapIdx, getElem_mapIdx]
  refine ⟨fun h => hij.ne (fragmentId_inj (Option.some.inj h)), ?_⟩
  change (i : ℚ) < (j : ℚ)
  exact_mod_cast hij

/-- What a conversion does to the records of the root: a group leaves the earlier model. -/
structure Converted (root root' : Root) (file : String) (outer : LegacyExpansion) : Prop where
  expanded : outer ∈ expandLegacy (legacyRecords root file)
  outermost : Leads (PointsAt (legacyRecords root file)) outer.1.id outer.1.id
  legacy : ∀ c v, (c, v) ∈ legacyRecords root' file ↔
    (c, v) ∈ legacyRecords root file ∧
      ¬ Leads (PointsAt (legacyRecords root file)) c outer.1.id
  held : ∀ k m, (k, m) ∈ heldRecords root' file ↔ (k, m) ∈ heldRecords root file ∨
    (∃ x ∈ expandLegacy (legacyRecords root file),
      Leads (PointsAt (legacyRecords root file)) x.1.id outer.1.id ∧
        k = x.1.id ∧ m = heldChange file x.1) ∨
    ∃ f ∈ outer.2, f.1.id = some k ∧ m = heldFragment file
      (ownerOf (groupOf (expandLegacy (legacyRecords root file)) outer) f) f
  others : ∀ other, other ≠ file → legacyRecords root' other = legacyRecords root other ∧
    heldRecords root' other = heldRecords root other

lemma mem_heldRecords {k : String} {m : HeldRecord} : (k, m) ∈ heldRecords root file ↔
    (k, Entry.held m) ∈ root.entries ∧ m.file = some file := by
  constructor
  · intro h
    obtain ⟨⟨k', e⟩, he, hx⟩ := mem_filterMap.1 h
    dsimp only at hx
    split at hx
    · split at hx
      next hfile =>
        cases hx
        exact ⟨he, hfile⟩
      · exact absurd hx nofun
    · exact absurd hx nofun
  · rintro ⟨he, hfile⟩
    exact mem_filterMap.2 ⟨_, he, by simp [hfile]⟩

lemma heldRecords_sorted (root : Root) (file : String) :
    (heldRecords root file).Pairwise fun a b => a.1 < b.1 := by
  refine Pairwise.filterMap _ (fun a b hab x hx y hy => ?_) root.sorted
  have hxa : x.1 = a.1 := by
    split at hx <;> try cases hx
    split at hx <;> cases hx
    rfl
  have hyb : y.1 = b.1 := by
    split at hy <;> try cases hy
    split at hy <;> cases hy
    rfl
  rw [hxa, hyb]
  exact hab

lemma mem_groupEntries {group : List LegacyExpansion} {e : String × Entry} :
    e ∈ groupEntries file group outer ↔
      (∃ x ∈ group, e = (x.1.id, .held (heldChange file x.1))) ∨
        ∃ f ∈ outer.2, ∃ k, f.1.id = some k ∧
          e = (k, .held (heldFragment file (ownerOf group f) f)) := by
  rw [groupEntries, mem_append, mem_map, mem_filterMap]
  refine or_congr ⟨?_, ?_⟩ ⟨?_, ?_⟩
  · rintro ⟨x, hx, rfl⟩
    exact ⟨x, hx, rfl⟩
  · rintro ⟨x, hx, rfl⟩
    exact ⟨x, hx, rfl⟩
  · rintro ⟨f, hf, he⟩
    obtain ⟨k, hk, rfl⟩ := Option.map_eq_some_iff.1 he
    exact ⟨f, hf, k, hk, rfl⟩
  · rintro ⟨f, hf, k, hk, rfl⟩
    exact ⟨f, hf, by rw [hk, Option.map_some]⟩

lemma groupEntries_keys (hunused : Unused root file)
    (houter : outer ∈ expandLegacy (legacyRecords root file))
    (hgroup : ∀ x ∈ groupOf (expandLegacy (legacyRecords root file)) outer,
      x ∈ expandLegacy (legacyRecords root file)) :
    ((groupEntries file (groupOf (expandLegacy (legacyRecords root file)) outer) outer).map
      Prod.fst).Nodup := by
  have hids : ((expandLegacy (legacyRecords root file)).map fun x => x.1.id).Nodup := by
    rw [expandLegacy_ids]
    exact pairwise_map.2 ((legacyRecords_sorted root file).imp ne_of_lt)
  rw [groupEntries, map_append, map_map, map_filterMap]
  refine nodup_append.2 ⟨?_, ?_, ?_⟩
  · rw [groupOf, map_cons]
    refine nodup_cons.2 ⟨fun hmem => ?_, (filter_sublist.map _).nodup hids⟩
    obtain ⟨x, hx, heq⟩ := mem_map.1 hmem
    have hne := (Bool.and_eq_true _ _ ▸ (mem_filter.1 hx).2).1
    exact of_decide_eq_true hne heq
  · refine Pairwise.filterMap _ (fun f g hfg k hk k' hk' => ?_) (expansion_pairwise houter)
    rw [Option.map_map, Option.map_eq_some_iff] at hk hk'
    obtain ⟨i, hi, rfl⟩ := hk
    obtain ⟨j, hj, rfl⟩ := hk'
    exact fun heq => hfg.1 (hi.trans ((congrArg some heq).trans hj.symm))
  · intro k hk k' hk' heq
    subst heq
    obtain ⟨x, hx, rfl⟩ := mem_map.1 hk
    obtain ⟨f, hf, hfk⟩ := mem_filterMap.1 hk'
    rw [Option.map_map, Option.map_eq_some_iff] at hfk
    obtain ⟨i, hi, hik⟩ := hfk
    obtain ⟨e, he, hxe, -⟩ := expansion_record (hgroup x hx)
    obtain ⟨p, hp, -⟩ := mem_legacyRecords.1 he
    refine hunused outer houter f hf i hi ?_
    have hik : i = e.1 := hik.trans (congrArg LegacyChange.id hxe)
    exact hik ▸ mem_map_of_mem hp

lemma converted_of_group (hacyclic : Acyclic (legacyRecords root file))
    (hnested : Nested (legacyRecords root file)) (hunused : Unused root file)
    (houter : outer ∈ expandLegacy (legacyRecords root file))
    (hleads : Leads (PointsAt (legacyRecords root file)) outer.1.id outer.1.id) :
    Converted root (root.putAll (groupEntries file
      (groupOf (expandLegacy (legacyRecords root file)) outer) outer)) file outer := by
  have hgroup := fun x => mem_groupOf (x := x) hacyclic hnested houter hleads
  have hnodup := groupEntries_keys hunused houter fun x hx => ((hgroup x).1 hx).1
  set entries := groupEntries file (groupOf (expandLegacy (legacyRecords root file)) outer) outer
  have hmem : ∀ e, e ∈ (root.putAll entries).entries ↔
      e ∈ entries ∨ (e ∈ root.entries ∧ e.1 ∉ entries.map Prod.fst) := fun e =>
    Keyed.mem_putAll hnodup
  have hheld : ∀ e ∈ entries, ∃ m, e.2 = .held m ∧ m.file = some file := fun e he => by
    rcases mem_groupEntries.1 he with ⟨x, -, rfl⟩ | ⟨f, -, k, -, rfl⟩
    · exact ⟨_, rfl, rfl⟩
    · exact ⟨_, rfl, rfl⟩
  have hplain : ∀ x ∈ groupOf (expandLegacy (legacyRecords root file)) outer, ∃ p,
      (x.1.id, Entry.plain p) ∈ root.entries ∧ p.file = some file := fun x hx => by
    obtain ⟨⟨c, v⟩, he, hxe, -⟩ := expansion_record ((hgroup x).1 hx).1
    obtain ⟨p, hp, hpv⟩ := mem_legacyRecords.1 he
    have hid : x.1.id = c := congrArg LegacyChange.id hxe
    refine ⟨p, hid ▸ hp, ?_⟩
    unfold legacyRecord at hpv
    split at hpv
    · assumption
    · exact absurd hpv nofun
  have hkeys : ∀ e ∈ root.entries, e.1 ∈ entries.map Prod.fst →
      ∃ x ∈ groupOf (expandLegacy (legacyRecords root file)) outer, e.1 = x.1.id :=
    fun e he hk => by
    obtain ⟨e', he', hek⟩ := mem_map.1 hk
    rcases mem_groupEntries.1 he' with ⟨x, hx, rfl⟩ | ⟨f, hf, k, hfk, rfl⟩
    · exact ⟨x, hx, hek.symm⟩
    · have hek : k = e.1 := hek
      exact absurd (hek ▸ mem_map_of_mem he) (hunused outer houter f hf k hfk)
  have hkept : ∀ k m, (k, Entry.held m) ∈ root.entries → k ∉ entries.map Prod.fst :=
    fun k m hkm hk => by
      obtain ⟨x, hx, heq⟩ := hkeys _ hkm hk
      obtain ⟨p, hp, -⟩ := hplain x hx
      obtain rfl : k = x.1.id := heq
      exact absurd (Keyed.unique hkm hp) nofun
  have hplainMem : ∀ k p, (k, Entry.plain p) ∈ (root.putAll entries).entries ↔
      (k, Entry.plain p) ∈ root.entries ∧ k ∉ entries.map Prod.fst := fun k p => by
    rw [hmem]
    refine ⟨fun h => h.resolve_left fun hin => ?_, .inr⟩
    obtain ⟨m, hm, -⟩ := hheld _ hin
    exact absurd hm nofun
  exact {
    expanded := houter
    outermost := hleads
    legacy := fun c v => by
      rw [mem_legacyRecords, mem_legacyRecords]
      constructor
      · rintro ⟨p, hp, hpv⟩
        obtain ⟨hp, hc⟩ := (hplainMem c p).1 hp
        refine ⟨⟨p, hp, hpv⟩, fun hl => hc ?_⟩
        obtain ⟨x, hx, hxe⟩ := exists_mem_expandLegacy (mem_legacyRecords.2 ⟨p, hp, hpv⟩)
        have hid : x.1.id = c := congrArg LegacyChange.id hxe
        have hxg := (hgroup x).2 ⟨hx, hid ▸ hl⟩
        exact mem_map.2 ⟨_, mem_groupEntries.2 (.inl ⟨x, hxg, rfl⟩), hid⟩
      · rintro ⟨⟨p, hp, hpv⟩, hno⟩
        refine ⟨p, (hplainMem c p).2 ⟨hp, fun hk => ?_⟩, hpv⟩
        obtain ⟨x, hx, heq⟩ := hkeys _ hp hk
        have heq : c = x.1.id := heq
        exact hno (heq ▸ ((hgroup x).1 hx).2)
    held := fun k m => by
      rw [mem_heldRecords, mem_heldRecords, hmem]
      constructor
      · rintro ⟨hin | ⟨hin, -⟩, hfile⟩
        · rcases mem_groupEntries.1 hin with ⟨x, hx, heq⟩ | ⟨f, hf, k', hk', heq⟩
          · obtain ⟨rfl, hm⟩ := Prod.mk.inj heq
            exact .inr (.inl ⟨x, ((hgroup x).1 hx).1, ((hgroup x).1 hx).2, rfl, Entry.held.inj hm⟩)
          · obtain ⟨rfl, hm⟩ := Prod.mk.inj heq
            exact .inr (.inr ⟨f, hf, hk', Entry.held.inj hm⟩)
        · exact .inl ⟨hin, hfile⟩
      · rintro (⟨hin, hfile⟩ | ⟨x, hx, hl, rfl, rfl⟩ | ⟨f, hf, hk, rfl⟩)
        · exact ⟨.inr ⟨hin, hkept k m hin⟩, hfile⟩
        · exact ⟨.inl (mem_groupEntries.2 (.inl ⟨x, (hgroup x).2 ⟨hx, hl⟩, rfl⟩)), rfl⟩
        · exact ⟨.inl (mem_groupEntries.2 (.inr ⟨f, hf, k, hk, rfl⟩)), rfl⟩
    others := fun other hne => by
      refine ⟨eq_of_mem_iff (legacyRecords_sorted _ _) (legacyRecords_sorted _ _)
        fun ⟨c, v⟩ => ?_, eq_of_mem_iff (heldRecords_sorted _ _) (heldRecords_sorted _ _)
        fun ⟨k, m⟩ => ?_⟩
      · rw [mem_legacyRecords, mem_legacyRecords]
        refine exists_congr fun p => and_congr_left fun hpv => ?_
        rw [hplainMem]
        refine and_iff_left_of_imp fun hp hk => ?_
        obtain ⟨x, hx, heq⟩ := hkeys _ hp hk
        obtain ⟨p', hp', hfile⟩ := hplain x hx
        obtain rfl : c = x.1.id := heq
        obtain rfl := Entry.plain.inj (Keyed.unique hp hp')
        unfold legacyRecord at hpv
        rw [if_neg fun h => hne (Option.some.inj (h.symm.trans hfile))] at hpv
        exact absurd hpv nofun
      · rw [mem_heldRecords, mem_heldRecords, hmem]
        refine and_congr_left fun hfile => ⟨fun h => (h.resolve_left fun hin => ?_).1,
          fun h => .inr ⟨h, hkept k m h⟩⟩
        obtain ⟨m', hm', hfile'⟩ := hheld _ hin
        obtain rfl := Entry.held.inj hm'
        exact hne (Option.some.inj (hfile.symm.trans hfile')) }

end Group

end LibrePaper.Track
