import Mathlib

/-!
# Finite maps

Maps that are built from lists and from other maps, by what they hold.
-/
namespace LibrePaper.Library
open List Option Finmap

variable {κ α β : Type*}

section Keys
variable [LinearOrder κ]

/-- The keys of a map, in order. -/
def sortedKeys (table : Finmap fun _ : κ => α) : List κ := table.keys.sort (· ≤ ·)

@[simp] lemma mem_sortedKeys {table : Finmap fun _ : κ => α} {k : κ} :
    k ∈ sortedKeys table ↔ k ∈ table := by
  unfold sortedKeys
  rw [Finset.mem_sort, Finmap.mem_keys]

lemma sortedKeys_nodup (table : Finmap fun _ : κ => α) : (sortedKeys table).Nodup :=
  Finset.sort_nodup _ _

lemma sortedKeys_eq {table : Finmap fun _ : κ => α} {keys : List κ}
    (hsorted : keys.Pairwise (· < ·)) (h : ∀ k, k ∈ table ↔ k ∈ keys) :
    sortedKeys table = keys := by
  have hperm : (sortedKeys table).Perm keys := by
    rw [perm_ext_iff_of_nodup (sortedKeys_nodup table) (hsorted.imp ne_of_lt)]
    intro k
    rw [mem_sortedKeys, h]
  exact hperm.eq_of_pairwise (fun _ _ _ _ => le_antisymm) (Finset.pairwise_sort _ _)
    (hsorted.imp le_of_lt)

/-- Maps with the same keys have them in one order. -/
lemma sortedKeys_congr {table : Finmap fun _ : κ => α} {table' : Finmap fun _ : κ => β}
    (h : ∀ k, k ∈ table ↔ k ∈ table') : sortedKeys table = sortedKeys table' := by
  have hkeys : table.keys = table'.keys := by
    ext k
    rw [Finmap.mem_keys, Finmap.mem_keys, h]
  rw [sortedKeys, sortedKeys, hkeys]

lemma sortedKeys_erase [DecidableEq κ] (table : Finmap fun _ : κ => α) (k : κ) :
    sortedKeys (table.erase k) = (sortedKeys table).filter fun j => j ≠ k := by
  have hsorted : (sortedKeys table).Pairwise (· ≤ ·) := Finset.pairwise_sort _ _
  have hperm : (sortedKeys (table.erase k)).Perm ((sortedKeys table).filter fun j => j ≠ k) := by
    rw [perm_ext_iff_of_nodup (sortedKeys_nodup _) ((sortedKeys_nodup table).filter _)]
    intro j
    rw [mem_filter, mem_sortedKeys, mem_sortedKeys, mem_erase, decide_eq_true_iff, and_comm]
  exact hperm.eq_of_pairwise (fun _ _ _ _ => le_antisymm) (Finset.pairwise_sort _ _)
    (hsorted.filter _)

/-- The keys that pass a test stand in one order, whatever the maps are. -/
lemma filter_sortedKeys_congr {table : Finmap fun _ : κ => α} {table' : Finmap fun _ : κ => β}
    {p q : κ → Bool} (h : ∀ k, k ∈ table ∧ p k = true ↔ k ∈ table' ∧ q k = true) :
    (sortedKeys table).filter p = (sortedKeys table').filter q := by
  have hperm : ((sortedKeys table).filter p).Perm ((sortedKeys table').filter q) := by
    rw [perm_ext_iff_of_nodup ((sortedKeys_nodup _).filter _) ((sortedKeys_nodup _).filter _)]
    intro k
    rw [mem_filter, mem_filter, mem_sortedKeys, mem_sortedKeys, h]
  exact hperm.eq_of_pairwise (fun _ _ _ _ => le_antisymm) ((Finset.pairwise_sort _ _).filter _)
    ((Finset.pairwise_sort _ _).filter _)

end Keys

section Insert
variable [DecidableEq κ]

/-- Adds entries to a map, later ones over earlier ones. -/
def insertAll (entries : List (κ × α)) (table : Finmap fun _ : κ => α) : Finmap fun _ : κ => α :=
  entries.foldl (fun table e => table.insert e.1 e.2) table

lemma insertAll_cons (e : κ × α) (entries : List (κ × α)) (table : Finmap fun _ : κ => α) :
    insertAll (e :: entries) table = insertAll entries (table.insert e.1 e.2) := rfl

lemma lookup_insertAll_of_notMem {entries : List (κ × α)} {k : κ}
    (h : k ∉ entries.map Prod.fst) (table : Finmap fun _ : κ => α) :
    (insertAll entries table).lookup k = table.lookup k := by
  induction entries generalizing table with
  | nil => rfl
  | cons e entries ih =>
    rw [map_cons, mem_cons, not_or] at h
    rw [insertAll_cons, ih h.2, lookup_insert_of_ne _ h.1]

lemma lookup_insertAll_of_mem {entries : List (κ × α)} {k : κ} {a : α}
    (hnodup : (entries.map Prod.fst).Nodup) (h : (k, a) ∈ entries)
    (table : Finmap fun _ : κ => α) : (insertAll entries table).lookup k = some a := by
  induction entries generalizing table with
  | nil => cases h
  | cons e entries ih =>
    rw [map_cons, nodup_cons] at hnodup
    rw [insertAll_cons]
    rcases mem_cons.1 h with rfl | h
    · rw [lookup_insertAll_of_notMem hnodup.1, lookup_insert]
    · exact ih hnodup.2 h _

/-- A map made of entries with different keys has them and no others. -/
lemma lookup_insertAll_iff {entries : List (κ × α)} (hnodup : (entries.map Prod.fst).Nodup)
    {k : κ} {a : α} : (insertAll entries ∅).lookup k = some a ↔ (k, a) ∈ entries := by
  refine ⟨fun h => ?_, fun h => lookup_insertAll_of_mem hnodup h ∅⟩
  by_cases hk : k ∈ entries.map Prod.fst
  · obtain ⟨e, he, rfl⟩ := mem_map.1 hk
    obtain rfl := some.inj (h.symm.trans (lookup_insertAll_of_mem hnodup he ∅))
    exact he
  · rw [lookup_insertAll_of_notMem hk, lookup_empty] at h
    cases h

end Insert

variable [LinearOrder κ] [DecidableEq κ]

/-- The entries of a map that a function keeps, with what it makes of them. -/
def collect (f : κ → α → Option β) (table : Finmap fun _ : κ => α) : Finmap fun _ : κ => β :=
  insertAll ((sortedKeys table).filterMap fun k =>
    ((table.lookup k).bind (f k)).map fun b => (k, b)) ∅

lemma lookup_collect (f : κ → α → Option β) (table : Finmap fun _ : κ => α) (k : κ) :
    (collect f table).lookup k = (table.lookup k).bind (f k) := by
  unfold collect
  have hkeys : (((sortedKeys table).filterMap fun k =>
      ((table.lookup k).bind (f k)).map fun b => (k, b)).map Prod.fst).Sublist
        (sortedKeys table) := by
    generalize sortedKeys table = keys
    induction keys with
    | nil => exact Sublist.slnil
    | cons key keys ih =>
      rw [filterMap_cons]
      cases (table.lookup key).bind (f key) with
      | none => exact ih.cons key
      | some b => exact ih.cons_cons key
  cases hk : (table.lookup k).bind (f k) with
  | none =>
    rw [lookup_insertAll_of_notMem, lookup_empty]
    intro hmem
    obtain ⟨e, he, rfl⟩ := mem_map.1 hmem
    obtain ⟨j, -, hj⟩ := mem_filterMap.1 he
    obtain ⟨b, hb, rfl⟩ := map_eq_some_iff.1 hj
    exact absurd (hk.symm.trans hb) nofun
  | some b =>
    refine lookup_insertAll_of_mem (hkeys.nodup (sortedKeys_nodup table)) ?_ _
    refine mem_filterMap.2 ⟨k, mem_sortedKeys.2 ?_, ?_⟩
    · obtain ⟨a, ha, -⟩ := bind_eq_some_iff.1 hk
      exact mem_of_lookup_eq_some ha
    · rw [hk]
      rfl

/-- The entries of a map in the order of their keys. -/
def listed (table : Finmap fun _ : κ => α) : List (κ × α) :=
  (sortedKeys table).filterMap fun k => (table.lookup k).map fun a => (k, a)

lemma mem_listed {table : Finmap fun _ : κ => α} {e : κ × α} :
    e ∈ listed table ↔ table.lookup e.1 = some e.2 := by
  rw [listed, mem_filterMap]
  constructor
  · rintro ⟨k, -, hk⟩
    obtain ⟨a, ha, rfl⟩ := map_eq_some_iff.1 hk
    exact ha
  · intro h
    exact ⟨e.1, mem_sortedKeys.2 (mem_of_lookup_eq_some h), map_eq_some_iff.2 ⟨e.2, h, rfl⟩⟩

lemma keys_listed (table : Finmap fun _ : κ => α) :
    (listed table).map Prod.fst = sortedKeys table := by
  rw [listed, map_filterMap]
  have hkey : ∀ k ∈ sortedKeys table,
      (((table.lookup k).map fun a => (k, a)).map Prod.fst) = some k := by
    intro k hk
    obtain ⟨a, ha⟩ := mem_iff.1 (mem_sortedKeys.1 hk)
    rw [ha]
    rfl
  rw [filterMap_congr hkey, filterMap_some]

/-- Entries with different keys are listed in the order of their keys. -/
lemma listed_insertAll {entries sorted : List (κ × α)}
    (hnodup : (entries.map Prod.fst).Nodup) (hperm : sorted.Perm entries)
    (hsorted : sorted.Pairwise fun a b => a.1 ≤ b.1) : listed (insertAll entries ∅) = sorted := by
  have hmem : ∀ e : κ × α, e ∈ listed (insertAll entries ∅) ↔ e ∈ entries := by
    intro e
    rw [mem_listed]
    exact lookup_insertAll_iff hnodup
  have hlisted : ((listed (insertAll entries ∅)).map Prod.fst).Nodup :=
    keys_listed (insertAll entries ∅) ▸ sortedKeys_nodup _
  have hsame : (listed (insertAll entries ∅)).Perm sorted := by
    rw [perm_ext_iff_of_nodup hlisted.of_map (hperm.nodup_iff.2 hnodup.of_map)]
    exact fun e => (hmem e).trans hperm.mem_iff.symm
  refine hsame.eq_of_pairwise (fun a b ha hb hab hba => ?_) ?_ hsorted
  · exact inj_on_of_nodup_map hlisted ha (hsame.mem_iff.2 hb) (le_antisymm hab hba)
  · have hkeys : ((listed (insertAll entries ∅)).map Prod.fst).Pairwise (· ≤ ·) :=
      keys_listed (insertAll entries ∅) ▸ Finset.pairwise_sort _ _
    exact pairwise_map.1 hkeys

end LibrePaper.Library
