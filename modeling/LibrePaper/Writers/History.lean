import LibrePaper.Writers.Lease

/-!
# A document's log and its history

The rows above the base are consecutive, each with the vector that its sequence number was written
with, and these vectors grow. A base has the vector of the row it goes through, or of the one after.
-/
namespace LibrePaper.Writers
open List Function

namespace Document
variable {V : Type*} [SemilatticeSup V] [OrderBot V] {d e : Document V} {v : V} {n : ℕ}

def through (d : Document V) : ℕ := d.base.elim 0 (·.through)

/-- The vector is that of a sequence number or of the one after. -/
def Near (d : Document V) (n : ℕ) (v : V) : Prop :=
  ∃ j, n ≤ j ∧ j ≤ n + 1 ∧ j ≤ d.updateSequence ∧ v = d.history j

structure Sound (d : Document V) : Prop where
  bottom : d.history 0 = ⊥
  mono : ∀ n < d.updateSequence, d.history n ≤ d.history (n + 1)
  through : d.through ≤ d.updateSequence
  sequences : d.updates.map (·.sequence) =
    List.range' (d.through + 1) (d.updateSequence - d.through)
  vectors : ∀ r ∈ d.updates, r.vector = d.history r.sequence
  base : ∀ b, d.base = some b → d.Near b.through b.vector

/-- The log moves on: the head, what the base goes through and the history only grow. -/
structure Grows (d e : Document V) : Prop where
  sequence : d.updateSequence ≤ e.updateSequence
  through : d.through ≤ e.through
  history : ∀ n ≤ d.updateSequence, e.history n = d.history n

omit [SemilatticeSup V] [OrderBot V] in
lemma Grows.refl (d : Document V) : d.Grows d := ⟨le_rfl, le_rfl, fun _ _ => rfl⟩

omit [SemilatticeSup V] [OrderBot V] in
lemma Near.grows (h : d.Near n v) (hg : d.Grows e) : e.Near n v := by
  obtain ⟨j, hn, hj, hd, rfl⟩ := h
  exact ⟨j, hn, hj, hd.trans hg.sequence, (hg.history j hd).symm⟩

lemma Sound.history_le (h : d.Sound) {m n : ℕ} (hmn : m ≤ n) (hn : n ≤ d.updateSequence) :
    d.history m ≤ d.history n := by
  induction n, hmn using Nat.le_induction with
  | base => exact le_rfl
  | succ n _ ih => exact (ih (Nat.le_of_succ_le hn)).trans (h.mono n hn)

lemma Sound.mem_updates (h : d.Sound) {r : Row V} (hr : r ∈ d.updates) :
    d.through < r.sequence ∧ r.sequence ≤ d.updateSequence := by
  have hmem : r.sequence ∈ d.updates.map (·.sequence) := mem_map_of_mem hr
  rw [h.sequences, mem_range'_1] at hmem
  have hthrough := h.through
  omega

/-- The last row is the head. -/
lemma Sound.getLast_some (h : d.Sound) {r : Row V} (hr : d.updates.getLast? = some r) :
    r.vector = d.history d.updateSequence := by
  have hlast : (d.updates.map (·.sequence)).getLast? = some r.sequence := by
    rw [getLast?_map, hr]
    rfl
  rw [h.sequences, getLast?_range'] at hlast
  rw [h.vectors r (mem_of_getLast? hr)]
  have hthrough := h.through
  split at hlast
  · cases hlast
  · have hsequence := Option.some.inj hlast
    congr 1
    omega

lemma Sound.getLast_none (h : d.Sound) (hr : d.updates.getLast? = none) :
    d.through = d.updateSequence := by
  have hlength := congrArg length h.sequences
  rw [getLast?_eq_none_iff.1 hr, map_nil, length_nil, length_range'] at hlength
  have hthrough := h.through
  omega

/-- One more row, which covers the head. -/
lemma Sound.insert (h : d.Sound) (hv : d.history d.updateSequence ≤ v) :
    Sound { d with
      updateSequence := d.updateSequence + 1
      updates := d.updates ++ [⟨d.updateSequence + 1, v⟩]
      history := update d.history (d.updateSequence + 1) v } ∧
    Grows d { d with
      updateSequence := d.updateSequence + 1
      updates := d.updates ++ [⟨d.updateSequence + 1, v⟩]
      history := update d.history (d.updateSequence + 1) v } := by
  have hhistory : ∀ n ≤ d.updateSequence,
      update d.history (d.updateSequence + 1) v n = d.history n := fun n hn =>
    update_of_ne (Nat.ne_of_lt (Nat.lt_succ_of_le hn)) ..
  have hself : update d.history (d.updateSequence + 1) v (d.updateSequence + 1) = v :=
    update_self ..
  have hgrows : Grows d { d with
      updateSequence := d.updateSequence + 1
      updates := d.updates ++ [⟨d.updateSequence + 1, v⟩]
      history := update d.history (d.updateSequence + 1) v } :=
    ⟨Nat.le_succ _, le_rfl, hhistory⟩
  refine ⟨⟨?_, fun n hn => ?_, h.through.trans (Nat.le_succ _), ?_, fun r hr => ?_, fun b hb => ?_⟩,
    hgrows⟩
  · exact (hhistory 0 (Nat.zero_le _)).trans h.bottom
  · rcases Nat.lt_or_eq_of_le (Nat.le_of_lt_succ hn) with hlt | rfl
    · exact (hhistory n hlt.le).trans_le ((h.mono n hlt).trans_eq (hhistory (n + 1) hlt).symm)
    · exact (hhistory _ le_rfl).trans_le (hv.trans_eq hself.symm)
  · have hthrough := h.through
    have hcount : d.updateSequence + 1 - d.through = d.updateSequence - d.through + 1 := by omega
    have hend : d.through + 1 + (d.updateSequence - d.through) = d.updateSequence + 1 := by omega
    have hlist := range'_1_concat (s := d.through + 1) (n := d.updateSequence - d.through)
    rw [hend, ← hcount, ← h.sequences] at hlist
    exact (map_append ..).trans hlist.symm
  · rcases mem_append.1 hr with hr | hr
    · exact (h.vectors r hr).trans (hhistory _ (h.mem_updates hr).2).symm
    · cases mem_singleton.1 hr
      exact hself.symm
  · exact (h.base b hb).grows hgrows

/-- A base that goes no further than the head, and at least as far as the one before. -/
lemma Sound.activate (h : d.Sound) (hn : d.through ≤ n) (hv : d.Near n v) :
    Sound { d with updates := d.updates.filter (n < ·.sequence), base := some ⟨n, v⟩ } ∧
    Grows d { d with updates := d.updates.filter (n < ·.sequence), base := some ⟨n, v⟩ } := by
  have hhead : n ≤ d.updateSequence := by
    obtain ⟨j, hnj, -, hj, -⟩ := hv
    exact hnj.trans hj
  have hgrows : Grows d
      { d with updates := d.updates.filter (n < ·.sequence), base := some ⟨n, v⟩ } :=
    ⟨le_rfl, hn, fun _ _ => rfl⟩
  refine ⟨⟨h.bottom, h.mono, hhead, ?_, fun r hr => h.vectors r (mem_filter.1 hr).1, ?_⟩, hgrows⟩
  · have hcut : d.updates.map (·.sequence) = range' (d.through + 1) (n - d.through) ++
        range' (n + 1) (d.updateSequence - n) := by
      have happend := range'_append_1 (s := d.through + 1) (m := n - d.through)
        (n := d.updateSequence - n)
      have hstart : d.through + 1 + (n - d.through) = n + 1 := by omega
      have hcount : n - d.through + (d.updateSequence - n) = d.updateSequence - d.through := by
        omega
      rw [h.sequences, ← hcount, ← happend, hstart]
    have hmap : (d.updates.filter (n < ·.sequence)).map (·.sequence) =
        (d.updates.map (·.sequence)).filter (n < ·) :=
      (filter_map (f := fun r : Row V => r.sequence) (p := fun k => decide (n < k))).symm
    have hbefore : (range' (d.through + 1) (n - d.through)).filter (n < ·) = [] := by
      refine filter_eq_nil_iff.2 fun k hk hlt => ?_
      have hlt := of_decide_eq_true hlt
      have hk := mem_range'_1.1 hk
      omega
    have hafter : (range' (n + 1) (d.updateSequence - n)).filter (n < ·) =
        range' (n + 1) (d.updateSequence - n) := by
      refine filter_eq_self.2 fun k hk => decide_eq_true ?_
      have hk := mem_range'_1.1 hk
      omega
    rw [hcut, filter_append, hbefore, hafter, nil_append] at hmap
    exact hmap
  · rintro b hb
    cases hb
    exact hv.grows hgrows

end Document
end LibrePaper.Writers
