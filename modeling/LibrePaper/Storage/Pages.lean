import LibrePaper.Storage.Owed

/-!
# Pages of the scan

A scan walks each kind of pending work in the order of its ids. What durable state names
behind a cursor is on the next page, or behind the cursor that the page leaves.
-/
namespace LibrePaper.Storage
open List

lemma splitIds_take (rows : List ℕ) (limit : ℕ) :
    (splitIds (rows.take (limit + 1)) limit).1 = rows.take limit := by
  unfold splitIds
  rw [take_take, min_eq_left (Nat.le_succ limit)]

/-- An id behind the cursor is on the page, or behind the next cursor. -/
lemma Ids.page_finds (ids : Ids) {limit after id : ℕ} (hlimit : 0 < limit)
    (hid : id ∈ ids.list) (hafter : after < id) :
    id ∈ (ids.page limit (some after)).1 ∨
      ∃ next, (ids.page limit (some after)).2 = some next ∧ next < id := by
  have hmem : id ∈ ids.list.filter fun id => after < id := by
    rw [mem_filter, decide_eq_true_iff]
    exact ⟨hid, hafter⟩
  have hsorted : (ids.list.filter fun id => after < id).Pairwise (· < ·) := ids.sorted.filter _
  unfold Ids.page
  simp only [splitIds_take]
  generalize ids.list.filter (fun id => after < id) = rows at hmem hsorted
  rw [← take_append_drop limit rows] at hmem hsorted
  rcases mem_append.1 hmem with hm | hm
  · exact .inl hm
  · right
    have hlong : limit < rows.length := by
      by_contra hle
      rw [drop_eq_nil_of_le (by omega)] at hm
      cases hm
    have hne : rows.take limit ≠ [] := by
      intro hnil
      have := congrArg length hnil
      rw [length_take, length_nil] at this
      omega
    have hlen : limit < (rows.take (limit + 1)).length := by
      rw [length_take]
      omega
    refine ⟨(rows.take limit).getLast hne, ?_, ?_⟩
    · unfold splitIds
      simp only [if_pos hlen, take_take, min_eq_left (Nat.le_succ limit)]
      exact getLast?_eq_some_getLast hne
    · exact (pairwise_append.1 hsorted).2.2 _ (getLast_mem hne) _ hm

variable {c : PendingWorkCursor} {task : Task} {catalog : Catalog}

lemma continues_of_ahead (h : Ahead c task) (hsweep : task ≠ .sweepSupersededBases) :
    c.continues = true := by
  unfold PendingWorkCursor.continues
  cases task with
  | compact document =>
    obtain ⟨after, hc, _⟩ := h
    rw [hc]
    rfl
  | delete document =>
    obtain ⟨after, hc, _⟩ := h
    rw [hc, Option.isSome_some, Bool.or_true, Bool.true_or, Bool.true_or]
  | archive label =>
    obtain ⟨after, hc, _⟩ := h
    rw [hc, Option.isSome_some, Bool.or_true, Bool.true_or]
  | eraseAccount account _ =>
    obtain ⟨after, hc, _⟩ := h
    rw [hc, Option.isSome_some, Bool.or_true]
  | sweepSupersededBases => exact absurd rfl hsweep
  | scan cursor => exact h.elim
  | sweepOrphans => exact h.elim

/-- What a page does not find is ahead of the next one. -/
lemma Catalog.scan_finds (hnamed : catalog.names task = true) (hahead : Ahead c task)
    (hsweep : task ≠ .sweepSupersededBases) :
    finder task ∈ (catalog.scan c).tasks ∨
      ∃ next, (catalog.scan c).next = some next ∧ Ahead next task := by
  have hpage : 0 < PAGE := by decide
  have hfound : finder task ∈ (catalog.scan c).tasks ∨
      Ahead (catalog.pendingBackgroundWork c PAGE).next task := by
    unfold Catalog.scan
    simp only [mem_append, mem_map]
    cases task with
    | compact document =>
      obtain ⟨after, hc, hlt⟩ := hahead
      rcases catalog.compaction.page_finds hpage (of_decide_eq_true hnamed) hlt with h | h
      · exact .inl (.inl (.inl (.inl ⟨document, by rw [← hc] at h; exact h, rfl⟩)))
      · exact .inr (by rw [← hc] at h; exact h)
    | delete document =>
      obtain ⟨after, hc, hlt⟩ := hahead
      rcases catalog.deleting.page_finds hpage (of_decide_eq_true hnamed) hlt with h | h
      · exact .inl (.inl (.inl (.inr ⟨document, by rw [← hc] at h; exact h, rfl⟩)))
      · exact .inr (by rw [← hc] at h; exact h)
    | archive label =>
      obtain ⟨after, hc, hlt⟩ := hahead
      rcases catalog.archives.page_finds hpage (of_decide_eq_true hnamed) hlt with h | h
      · exact .inl (.inr ⟨label, by rw [← hc] at h; exact h, rfl⟩)
      · exact .inr (by rw [← hc] at h; exact h)
    | eraseAccount account _ =>
      obtain ⟨after, hc, hlt⟩ := hahead
      rcases catalog.erasing.page_finds hpage (of_decide_eq_true hnamed) hlt with h | h
      · exact .inl (.inl (.inr ⟨account, by rw [← hc] at h; exact h, rfl⟩))
      · exact .inr (by rw [← hc] at h; exact h)
    | sweepSupersededBases => exact absurd rfl hsweep
    | scan cursor => exact hahead.elim
    | sweepOrphans => exact hahead.elim
  rcases hfound with h | h
  · exact .inl h
  · right
    refine ⟨_, ?_, h⟩
    unfold Catalog.scan
    exact if_pos (continues_of_ahead h hsweep)

/-- A fresh scan has everything that durable state names ahead of it. -/
lemma ahead_default (hnamed : catalog.names task = true) (hscan : task ≠ .scan {})
    (horphans : task ≠ .sweepOrphans) : Ahead {} task := by
  cases task with
  | compact document => exact ⟨0, rfl, catalog.compaction.positive _ (of_decide_eq_true hnamed)⟩
  | delete document => exact ⟨0, rfl, catalog.deleting.positive _ (of_decide_eq_true hnamed)⟩
  | archive label => exact ⟨0, rfl, catalog.archives.positive _ (of_decide_eq_true hnamed)⟩
  | eraseAccount account _ => exact ⟨0, rfl, catalog.erasing.positive _ (of_decide_eq_true hnamed)⟩
  | sweepSupersededBases => trivial
  | scan cursor =>
    have hc : cursor = {} := of_decide_eq_true hnamed
    exact absurd (congrArg Task.scan hc) hscan
  | sweepOrphans => exact absurd rfl horphans

end LibrePaper.Storage
