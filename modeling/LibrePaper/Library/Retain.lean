import Mathlib

/-!
# Maps whose entries are dropped or rewritten

A map is walked once, and the walk says of every entry whether it stays and with which value.
-/
namespace LibrePaper.Library
open List

variable {κ ε : Type*}

/-- What the walk `f` leaves of a list of entries. -/
def retained (f : κ → ε → Option ε) (l : List (Sigma fun _ : κ => ε)) :
    List (Sigma fun _ : κ => ε) :=
  l.filterMap fun e => (f e.1 e.2).map fun v => ⟨e.1, v⟩

lemma keys_retained_sublist (f : κ → ε → Option ε) (l : List (Sigma fun _ : κ => ε)) :
    (retained f l).keys.Sublist l.keys := by
  induction l with
  | nil => exact Sublist.refl _
  | cons e l ih =>
    unfold retained at ih ⊢
    cases h : f e.1 e.2 with
    | none =>
      rw [filterMap_cons_none (by rw [h]; rfl), keys_cons]
      exact ih.trans (sublist_cons_self _ _)
    | some v =>
      rw [filterMap_cons_some (by rw [h]; rfl), keys_cons, keys_cons]
      exact ih.cons_cons _

lemma retained_nodupKeys (f : κ → ε → Option ε) {l : List (Sigma fun _ : κ => ε)}
    (h : l.NodupKeys) : (retained f l).NodupKeys :=
  Nodup.sublist (keys_retained_sublist f l) h

/-- The map after the walk `f`. -/
def retain (f : κ → ε → Option ε) (m : AList fun _ : κ => ε) : AList fun _ : κ => ε :=
  ⟨retained f m.entries, retained_nodupKeys f m.nodupKeys⟩

variable [DecidableEq κ]

lemma lookup_retain (f : κ → ε → Option ε) (m : AList fun _ : κ => ε) (k : κ) :
    (retain f m).lookup k = (m.lookup k).bind (f k) := by
  ext v
  change v ∈ (retain f m).lookup k ↔ _
  rw [AList.mem_lookup_iff, Option.bind_eq_some_iff]
  unfold retain retained
  rw [mem_filterMap]
  constructor
  · rintro ⟨⟨j, e⟩, hmem, heq⟩
    obtain ⟨w, hw, hv⟩ := Option.map_eq_some_iff.1 heq
    injection hv with hj hw'
    subst hj
    exact ⟨e, AList.mem_lookup_iff.2 hmem, hw.trans (congrArg some hw')⟩
  · rintro ⟨e, hmem, hf⟩
    exact ⟨⟨k, e⟩, AList.mem_lookup_iff.1 hmem, by rw [hf]; rfl⟩

omit [DecidableEq κ] in
lemma length_retain_le (f : κ → ε → Option ε) (m : AList fun _ : κ => ε) :
    (retain f m).entries.length ≤ m.entries.length :=
  length_filterMap_le _ _

lemma length_erase_le (m : AList fun _ : κ => ε) (k : κ) :
    (m.erase k).entries.length ≤ m.entries.length :=
  (kerase_sublist k m.entries).length_le

/-- An entry that is replaced keeps the size of the map. -/
lemma length_insert_of_mem {m : AList fun _ : κ => ε} {k : κ} (h : k ∈ m) (e : ε) :
    (m.insert k e).entries.length = m.entries.length := by
  have hk : k ∈ m.entries.keys := h
  have hlen : (m.entries.kerase k).keys.length = m.entries.keys.length - 1 := by
    rw [keys_kerase, length_erase_of_mem hk]
  have hpos := length_pos_of_mem hk
  simp only [keys, length_map] at hlen hpos
  rw [AList.entries_insert, length_cons]
  omega

lemma length_insert_of_notMem {m : AList fun _ : κ => ε} {k : κ} (h : k ∉ m) (e : ε) :
    (m.insert k e).entries.length = m.entries.length + 1 := by
  rw [AList.entries_insert_of_notMem h, length_cons]

end LibrePaper.Library
