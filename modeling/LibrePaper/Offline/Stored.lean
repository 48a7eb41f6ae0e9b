import LibrePaper.Offline.Tabs

/-!
# What a transaction leaves stored

A write adds its update to what is stored under its key, except that the updates of a record of the
second version are dropped. A migration replaces one record by another.
-/
namespace LibrePaper.Offline
open Library List

variable {K T Op : Type*} [DecidableEq K] [DecidableEq Op] {c : Causality Op}
  {size : Finset Op → ℕ}

/-- A record as some version of the program wrote it. -/
structure Saved.Sound (c : Causality Op) (r : Saved Op) : Prop where
  snapshot : c.Closed (together r.snapshot.toList)
  imports : c.Closed (together r.imports)
  vector : ∀ v, r.vector = some v → v ⊆ together r.imports

namespace Database
variable {d : Database K T Op} {key k : K} {id : T × ℕ} {update : Finset Op}

/-- The operations stored under a key. -/
def stored (d : Database K T Op) (key : K) : Finset Op :=
  together (d.recorded key) ∪ together (d.pending key)

lemma restore_eq (h : c.Closed (d.stored key)) : d.restore c key = ⟨d.stored key, ∅⟩ := by
  have htogether : together (d.recorded key ++ d.pending key) = d.stored key := together_append ..
  rw [restore, Holder.receiveAll_empty (htogether.symm ▸ h), htogether]

/-- What a write keeps of what is stored. -/
def kept (d : Database K T Op) (key : K) : Finset Op :=
  together (Saved.upgraded (d.states key)).1.toList ∪ together (d.pending key)

/-- The version of a record that a write goes on from is sound. -/
lemma sound_upgraded {current : Option (Saved Op)} (h : ∀ r, current = some r → r.Sound c) :
    (Saved.three (Saved.upgraded current).1 (Saved.upgraded current).2).Sound c := by
  have hsnapshot : ∀ o : Option (Finset Op), c.Closed (together o.toList) →
      (Saved.three o none).Sound c := fun o ho =>
    ⟨ho, (congrArg (c.Closed <| together ·) (append_nil o.toList)).mpr ho,
      fun _ hv => by cases hv⟩
  cases current with
  | none => exact hsnapshot none closed_empty
  | some r =>
    cases r with
    | one update => exact hsnapshot (some update) (h _ rfl).snapshot
    | two snapshot updates vector => exact hsnapshot snapshot (h _ rfl).snapshot
    | three snapshot vector => exact h _ rfl

lemma sound_three {s : Finset Op} (h : c.Closed s) : (Saved.three (some s) (some s)).Sound c := by
  have htogether : together (Saved.three (some s) (some s)).imports = s := Finset.union_empty s
  refine ⟨htogether.symm ▸ h, htogether.symm ▸ h, ?_⟩
  rintro v hv
  cases hv
  exact htogether.ge

omit [DecidableEq Op] in
/-- One more update is listed under its own key. -/
lemma filter_append_entry (l : List (Entry K T Op)) (e : Entry K T Op) (k : K) :
    (l ++ [e]).filter (·.project = k) =
      l.filter (·.project = k) ++ if e.project = k then [e] else [] := by
  rw [filter_append, filter_singleton]
  by_cases h : e.project = k
  · rw [if_pos h, decide_eq_true h]
    rfl
  · rw [if_neg h, decide_eq_false h]
    rfl

variable [DecidableEq T]

omit [DecidableEq Op] in
/-- Deleting every update of a key by its id leaves those of the other keys. -/
lemma filter_deleted (l : List (Entry K T Op)) (key k : K) :
    (l.filter fun e => ¬(e.project = key ∧ e.id ∈ (l.filter (·.project = key)).map (·.id))).filter
      (·.project = k) = if k = key then [] else l.filter (·.project = k) := by
  split
  · next h =>
    subst h
    refine filter_eq_nil_iff.2 fun e he hk => ?_
    have hk := of_decide_eq_true hk
    obtain ⟨hmem, hno⟩ := mem_filter.1 he
    exact of_decide_eq_true hno ⟨hk, mem_map.2 ⟨e, mem_filter.2 ⟨hmem, decide_eq_true hk⟩, rfl⟩⟩
  · next h =>
    rw [filter_filter]
    refine filter_congr fun e _ => ?_
    by_cases hk : e.project = k
    · rw [decide_eq_true hk, Bool.true_and]
      exact decide_eq_true fun hno => h (hk.symm.trans hno.1)
    · rw [decide_eq_false hk, Bool.false_and]

/-- A write goes on from what it keeps, and touches no other key. -/
lemma put_spec (size : Finset Op → ℕ) (id : T × ℕ)
    (hrecord : ∀ r, d.states key = some r → r.Sound c)
    (h : c.Closed (d.kept key ∪ update)) :
    ∃ next, (d.put c size key id update).states = Function.update d.states key (some next) ∧
      next.Sound c ∧
      together next.imports ∪ together ((d.put c size key id update).pending key) =
        d.kept key ∪ update ∧
      ∀ k ≠ key, (d.put c size key id update).pending k = d.pending k := by
  rw [put]
  split
  · have htogether : together ((Saved.upgraded (d.states key)).1.toList ++
        (d.updatesFor key).map (·.update) ++ [update]) = d.kept key ∪ update := by
      rw [together_append, together_append, together_cons, together_nil, Finset.union_empty]
      rfl
    rw [Holder.receiveAll_empty (htogether.symm ▸ h), htogether]
    have hlisted : d.updatesFor key ++ [(⟨key, id, update, size update⟩ : Entry K T Op)] =
        (d.updates ++ [(⟨key, id, update, size update⟩ : Entry K T Op)]).filter
          (·.project = key) := by
      rw [filter_append_entry, if_pos rfl]
      rfl
    refine ⟨_, rfl, sound_three h, ?_, fun k hk => ?_⟩
    · rw [pending, updatesFor, hlisted, filter_deleted, if_pos rfl, map_nil, together_nil,
        Finset.union_empty]
      exact Finset.union_empty _
    · rw [pending, updatesFor, hlisted, filter_deleted, if_neg hk, filter_append_entry,
        if_neg (Ne.symm hk), append_nil]
      rfl
  · refine ⟨_, rfl, sound_upgraded hrecord, ?_, fun k hk => ?_⟩
    · rw [pending, updatesFor, filter_append_entry, if_pos rfl, map_append, together_append,
        ← Finset.union_assoc]
      exact congrArg₂ (· ∪ ·) (congrArg (together · ∪ together (d.pending key))
        (append_nil _)) (Finset.union_empty update)
    · rw [pending, updatesFor, filter_append_entry, if_neg (Ne.symm hk), append_nil]
      rfl

omit [DecidableEq T] in
lemma imports_subset_stored {r : Saved Op} (h : d.states key = some r) :
    together r.imports ⊆ d.stored key := by
  rw [stored, recorded, h]
  exact Finset.subset_union_left

/-- Everything that is stored can be imported, and every record is sound. -/
structure Sound (c : Causality Op) (d : Database K T Op) : Prop where
  records : ∀ k r, d.states k = some r → r.Sound c
  closed : ∀ k, c.Closed (d.stored k)

omit [DecidableEq T] in
lemma kept_subset_stored : d.kept key ⊆ d.stored key := by
  rw [kept, stored, recorded]
  refine Finset.union_subset_union_left ?_
  rcases d.states key with - | r
  · exact Finset.Subset.refl _
  · rw [Option.elim_some, Saved.imports, together_append]
    rcases r with update | ⟨snapshot, updates, vector⟩ | ⟨snapshot, vector⟩
    all_goals exact Finset.subset_union_left

omit [DecidableEq T] in
/-- A write keeps all that is stored, when the updates of an old record are stored elsewhere. -/
lemma kept_union (h : ∀ snapshot updates vector,
    d.states key = some (.two snapshot updates vector) → together updates ⊆ d.kept key ∪ update) :
    d.kept key ∪ update = d.stored key ∪ update := by
  refine (Finset.union_subset_union_left kept_subset_stored).antisymm
    (Finset.union_subset ?_ Finset.subset_union_right)
  refine Finset.union_subset ?_ (Finset.subset_union_right.trans Finset.subset_union_left)
  have hkept : together (Saved.upgraded (d.states key)).1.toList ⊆ d.kept key ∪ update :=
    Finset.subset_union_left.trans Finset.subset_union_left
  rw [recorded]
  generalize hr : d.states key = current at h hkept
  rcases current with - | r
  · exact Finset.empty_subset _
  · rw [Option.elim_some, Saved.imports, together_append]
    rcases r with update | ⟨snapshot, updates, vector⟩ | ⟨snapshot, vector⟩
    · exact Finset.union_subset hkept (Finset.empty_subset _)
    · exact Finset.union_subset hkept (h snapshot updates vector rfl)
    · exact Finset.union_subset hkept (Finset.empty_subset _)

/-- What a write leaves: under its key the update is added, and elsewhere nothing changes. -/
lemma Sound.put (hs : d.Sound c) (size : Finset Op → ℕ) (id : T × ℕ)
    (hkept : d.kept key ∪ update = d.stored key ∪ update)
    (hneeds : ∀ o ∈ update, c.needs o ⊆ d.stored key ∪ update) :
    (d.put c size key id update).Sound c ∧
      ∀ k, (d.put c size key id update).stored k =
        if k = key then d.stored key ∪ update else d.stored k := by
  have hclosed : c.Closed (d.stored key ∪ update) := by
    intro o ho
    rcases Finset.mem_union.1 ho with ho | ho
    · exact (hs.closed key o ho).trans Finset.subset_union_left
    · exact hneeds o ho
  obtain ⟨next, hstates, hnext, hown, hother⟩ := put_spec size id
    (fun r => hs.records key r) (hkept.symm ▸ hclosed)
  have hstored : ∀ k, (d.put c size key id update).stored k =
      if k = key then d.stored key ∪ update else d.stored k := by
    intro k
    split
    · next hk =>
      subst hk
      rw [stored, recorded, hstates, Function.update_self, Option.elim_some, hown, hkept]
    · next hk =>
      rw [stored, stored, recorded, recorded, hstates, Function.update_of_ne hk, hother k hk]
  refine ⟨⟨fun k r hr => ?_, fun k => ?_⟩, hstored⟩
  · rw [hstates] at hr
    by_cases hk : k = key
    · rw [hk, Function.update_self] at hr
      exact Option.some.inj hr ▸ hnext
    · rw [Function.update_of_ne hk] at hr
      exact hs.records k r hr
  · rw [hstored]
    split
    · exact hclosed
    · exact hs.closed k

/-- All that a migration overwrites or removes is in the record it writes, or in the updates that
stay. -/
structure Movable (d : Database K T Op) (saved : Saved Op) (key legacyKey : K) : Prop where
  own : ∀ r, d.states key = some r →
    together r.imports ⊆ together saved.imports ∪ together (d.pending key)
  legacy : ∀ r, d.states legacyKey = some r →
    together r.imports ⊆ together saved.imports ∪ together (d.pending key)
  updates : together (d.pending legacyKey) = ∅

section Migrate
variable {saved : Saved Op} {legacyKey : K}

omit [DecidableEq T]

omit [DecidableEq K] in
lemma recorded_subset {s : Finset Op} (h : ∀ r, d.states k = some r → together r.imports ⊆ s) :
    together (d.recorded k) ⊆ s := by
  rw [recorded]
  generalize d.states k = current at h
  rcases current with - | r
  · exact Finset.empty_subset _
  · exact h r rfl

omit [DecidableEq Op] in
lemma states_migrate : (d.migrate saved key legacyKey).states =
    Function.update (Function.update d.states key (some saved)) legacyKey none := rfl

omit [DecidableEq Op] in
lemma pending_migrate : (d.migrate saved key legacyKey).pending k = d.pending k := rfl

lemma stored_migrate (hne : key ≠ legacyKey) (h : d.Movable saved key legacyKey) :
    (d.migrate saved key legacyKey).stored k =
      if k = key then together saved.imports ∪ together (d.pending key)
      else if k = legacyKey then ∅ else d.stored k := by
  rw [stored, recorded, pending_migrate, states_migrate]
  split
  · next hk =>
    rw [hk, Function.update_of_ne hne, Function.update_self]
    rfl
  · next hk =>
    split
    · next hl =>
      rw [hl, Function.update_self]
      exact (Finset.empty_union _).trans h.updates
    · next hl =>
      rw [Function.update_of_ne hl, Function.update_of_ne hk]
      rfl

/-- A migration keeps all that is stored under both keys. -/
lemma Sound.migrate (hs : d.Sound c) (hsaved : saved.Sound c) (hne : key ≠ legacyKey)
    (h : d.Movable saved key legacyKey) :
    (d.migrate saved key legacyKey).Sound c ∧
      d.stored key ⊆ (d.migrate saved key legacyKey).stored key ∧
      d.stored legacyKey ⊆ (d.migrate saved key legacyKey).stored key := by
  have hkey : (d.migrate saved key legacyKey).stored key =
      together saved.imports ∪ together (d.pending key) := by
    rw [stored_migrate hne h, if_pos rfl]
  have hown : d.stored key ⊆ (d.migrate saved key legacyKey).stored key := by
    rw [hkey]
    exact Finset.union_subset (recorded_subset h.own) Finset.subset_union_right
  have hlegacy : d.stored legacyKey ⊆ (d.migrate saved key legacyKey).stored key := by
    rw [hkey]
    exact Finset.union_subset (recorded_subset h.legacy) (h.updates ▸ Finset.empty_subset _)
  refine ⟨⟨fun k r hr => ?_, fun k => ?_⟩, hown, hlegacy⟩
  · rw [states_migrate] at hr
    by_cases hl : k = legacyKey
    · rw [hl, Function.update_self] at hr
      cases hr
    · rw [Function.update_of_ne hl] at hr
      by_cases hk : k = key
      · rw [hk, Function.update_self] at hr
        exact Option.some.inj hr ▸ hsaved
      · rw [Function.update_of_ne hk] at hr
        exact hs.records k r hr
  · by_cases hk : k = key
    · subst hk
      rw [hkey] at hown ⊢
      intro o ho
      rcases Finset.mem_union.1 ho with ho | ho
      · exact (hsaved.imports o ho).trans Finset.subset_union_left
      · exact (hs.closed k o (Finset.mem_union_right _ ho)).trans hown
    · rw [stored_migrate hne h, if_neg hk]
      split
      · exact closed_empty
      · exact hs.closed k

end Migrate

end Database
end LibrePaper.Offline
