import LibrePaper.Track.Gaps

/-!
# The planner's representation invariant

`Valid n rows gaps` says that the rows and gaps describe a text of `n` characters:
spans are disjoint, gaps stand outside them, every fragment has an owner, and every
change that has no span stands at a gap that holds one of its fragments. One edit
keeps it.
-/
namespace LibrePaper.Track
open Library List

/-- The rows and gaps describe pending changes of a text of `n` characters. -/
structure Valid (n : ℕ) (rows : List Row) (gaps : List GapRow) : Prop where
  ids : (rows.map (·.1.id)).Nodup
  ordered : ∀ r ∈ rows, r.1.fromPos ≤ r.1.toPos
  inText : ∀ r ∈ rows, r.1.toPos ≤ n
  disjoint : ∀ r ∈ rows, ∀ s ∈ rows, ∀ p, r.1.covers p → s.1.covers p → r.1.id = s.1.id
  gapInText : ∀ q ∈ points gaps, q ≤ n
  outside : ∀ q ∈ points gaps, ∀ r ∈ rows, ¬ (r.1.fromPos < q ∧ q < r.1.toPos)
  full : ∀ q, ∀ f ∈ fragmentsAt gaps q, f.text ≠ []
  owned : ∀ q id, Owns (fragmentsAt gaps q) id → ∃ r ∈ rows, r.1.id = id ∧ r.1.emptied = false
  seated : ∀ r ∈ rows, hasSpan r.1 = false → r.1.emptied = false →
    Owns (fragmentsAt gaps r.1.fromPos) r.1.id
  emptied : ∀ r ∈ rows, r.1.emptied = true → hasSpan r.1 = false

/-- The ids from number `n` on are new to the rows, and no id is made twice. -/
structure Fresh (fresh : ℕ → String) (n : ℕ) (rows : List Row) : Prop where
  inj : Function.Injective fresh
  new : ∀ r ∈ rows, ∀ k, n ≤ k → r.1.id ≠ fresh k

variable {n p : ℕ} {rows : List Row} {gaps : List GapRow} {r s : Row} {id : String}

lemma Valid.eq_of_covers (hv : Valid n rows gaps) (hr : r ∈ rows) (hs : s ∈ rows)
    (h : r.1.covers p) (h' : s.1.covers p) : r.1 = s.1 := by
  have hid := hv.disjoint r hr s hs p h h'
  have h1 := findRow_of_mem hv.ids hr
  have h2 := findRow_of_mem hv.ids hs
  rw [hid, h2, Option.some.injEq] at h1
  exact h1.symm

lemma Valid.not_inside (hv : Valid n rows gaps) (hr : r ∈ rows) (h : r.1.covers p)
    (h' : r.1.covers (p + 1)) : p + 1 ∉ points gaps := by
  intro hm
  refine hv.outside _ hm r hr ⟨?_, h'.2⟩
  have := h.1
  omega

/-! What settling does to a row. -/

lemma referenced_iff : referenced gaps id = true ↔ ∃ q, Owns (fragmentsAt gaps q) id := by
  simp only [referenced, any_eq_true, owns_fragmentsAt, decide_eq_true_eq]
  constructor
  · rintro ⟨g, hg, h⟩
    exact ⟨_, g, hg, rfl, h⟩
  · rintro ⟨_, g, hg, rfl, h⟩
    exact ⟨g, hg, h⟩

lemma reviveRow_same (gaps : List GapRow) (r : Row) :
    (reviveRow gaps r).1.id = r.1.id ∧ SameChange (reviveRow gaps r).1 r.1 ∧
      (reviveRow gaps r).1.fromPos = r.1.fromPos ∧ (reviveRow gaps r).1.toPos = r.1.toPos := by
  unfold reviveRow
  split <;> exact ⟨rfl, ⟨rfl, rfl, rfl, rfl⟩, rfl, rfl⟩

lemma reviveRow_emptied :
    (reviveRow gaps r).1.emptied = true ↔ r.1.emptied = true ∧ referenced gaps r.1.id = false := by
  unfold reviveRow
  split <;> rename_i h
  · simp [h.2]
  · cases h1 : r.1.emptied <;> cases h2 : referenced gaps r.1.id <;> simp_all

lemma seatRow_same (gaps : List GapRow) (r : Row) :
    (seatRow gaps r).1.id = r.1.id ∧ SameChange (seatRow gaps r).1 r.1 ∧
      (seatRow gaps r).1.emptied = r.1.emptied := by
  unfold seatRow
  split_ifs
  · exact ⟨rfl, ⟨rfl, rfl, rfl, rfl⟩, rfl⟩
  · split
    · split_ifs <;> exact ⟨rfl, ⟨rfl, rfl, rfl, rfl⟩, rfl⟩
    · exact ⟨rfl, ⟨rfl, rfl, rfl, rfl⟩, rfl⟩

/-- A row that is seated keeps its span, or it has none and stands where it stood or at
a gap with one of its fragments. -/
lemma seatRow_cases (gaps : List GapRow) (r : Row) :
    (hasSpan r.1 = true ∧ seatRow gaps r = r) ∨
      (hasSpan r.1 = false ∧
        ((∃ g ∈ gaps, Owns g.1.fragments r.1.id ∧ (seatRow gaps r).1.fromPos = g.1.point ∧
            ((seatRow gaps r).1.toPos = g.1.point ∨
              (r.1.fromPos = g.1.point ∧ seatRow gaps r = r))) ∨
          (referenced gaps r.1.id = false ∧ seatRow gaps r = r))) := by
  cases hs : hasSpan r.1 with
  | true => exact .inl ⟨rfl, by simp [seatRow, hs]⟩
  | false =>
    refine .inr ⟨rfl, ?_⟩
    cases hf : gaps.find? fun g => g.1.fragments.any fun f => f.change = r.1.id with
    | none =>
      refine .inr ⟨?_, by simp [seatRow, hs, hf]⟩
      simpa [referenced] using hf
    | some g =>
      have hown : Owns g.1.fragments r.1.id := by simpa [Owns] using find?_some hf
      refine .inl ⟨g, mem_of_find?_eq_some hf, hown, ?_⟩
      simp only [seatRow, hs, hf, Bool.false_eq_true, if_false]
      split_ifs with h
      · exact ⟨h, .inr ⟨h, rfl⟩⟩
      · exact ⟨rfl, .inl rfl⟩

namespace Call
variable {c : Call}

/-- A row of `out` as it is settled. -/
def settled (c : Call) (y : Row) : Row := seatRow c.gapRows (reviveRow c.gapsOut y)

lemma mem_rows {x : Row} :
    x ∈ c.rows ↔ ∃ y ∈ c.out, liveRow c.gapsOut (reviveRow c.gapsOut y) = true ∧
      x = c.settled y := by
  simp only [rows, settle, mem_map, mem_sortByKey, mem_filter]
  constructor
  · rintro ⟨_, ⟨⟨y, hy, rfl⟩, hl⟩, rfl⟩
    exact ⟨y, hy, hl, rfl⟩
  · rintro ⟨y, hy, hl, rfl⟩
    exact ⟨_, ⟨⟨y, hy, rfl⟩, hl⟩, rfl⟩

lemma settled_same (y : Row) :
    (c.settled y).1.id = y.1.id ∧ SameChange (c.settled y).1 y.1 := by
  obtain ⟨h1, ⟨a, b, d, e⟩, -⟩ := seatRow_same c.gapRows (reviveRow c.gapsOut y)
  obtain ⟨h1', ⟨a', b', d', e'⟩, -⟩ := reviveRow_same c.gapsOut y
  exact ⟨h1.trans h1', a.trans a', b.trans b', d.trans d', e.trans e'⟩

lemma referenced_gapRows (id : String) :
    referenced c.gapRows id = referenced c.gapsOut id := by
  rw [Bool.eq_iff_iff, referenced_iff, referenced_iff]
  exact exists_congr fun q => by rw [show fragmentsAt c.gapRows q = fragmentsAt c.gapsOut q from
    fragmentsAt_sort _ _]

lemma hasSpan_revive (y : Row) : hasSpan (reviveRow c.gapsOut y).1 = hasSpan y.1 := by
  obtain ⟨-, -, h1, h2⟩ := reviveRow_same c.gapsOut y
  simp [hasSpan, h1, h2]

variable {y : Row}

/-- Settling moves no span. -/
lemma settled_of_span (h : hasSpan y.1 = true) :
    (c.settled y).1.fromPos = y.1.fromPos ∧ (c.settled y).1.toPos = y.1.toPos := by
  obtain ⟨-, -, h1, h2⟩ := reviveRow_same c.gapsOut y
  rcases seatRow_cases c.gapRows (reviveRow c.gapsOut y) with ⟨-, hs⟩ | ⟨hs, -⟩
  · simp [settled, hs, h1, h2]
  · rw [hasSpan_revive, h] at hs
    simp at hs

/-- A settled row without a span stands at a gap with one of its fragments, or it has
none and stands where it stood. -/
lemma settled_bare (hy : y.1.fromPos = y.1.toPos) :
    (c.settled y).1.fromPos = (c.settled y).1.toPos ∧
      (Owns (fragmentsAt c.gapRows (c.settled y).1.fromPos) y.1.id ∨
        (referenced c.gapRows y.1.id = false ∧ (c.settled y).1.fromPos = y.1.fromPos)) := by
  obtain ⟨hid, -, h1, h2⟩ := reviveRow_same c.gapsOut y
  rcases seatRow_cases c.gapRows (reviveRow c.gapsOut y) with ⟨hs, -⟩ | ⟨-, h⟩
  · rw [hasSpan_revive, hasSpan_iff] at hs
    omega
  · rw [hid] at h
    rcases h with ⟨g, hg, ho, hf, ht⟩ | ⟨hr, hs⟩
    · refine ⟨?_, .inl ?_⟩
      · rcases ht with ht | ⟨-, ht⟩
        · rw [settled, hf, ht]
        · rw [settled, ht, h1, h2, hy]
      · exact owns_fragmentsAt.2 ⟨g, hg, hf.symm, ho⟩
    · rw [settled, hs, h1, h2]
      exact ⟨hy, .inr ⟨hr, rfl⟩⟩

lemma settled_covers (hy : y.1.fromPos ≤ y.1.toPos) (q : ℕ) :
    (c.settled y).1.covers q ↔ y.1.covers q := by
  rcases hy.eq_or_lt with h | h
  · have h' := (settled_bare (c := c) h).1
    simp only [ChangeRecord.covers]
    omega
  · obtain ⟨h1, h2⟩ := settled_of_span (c := c) ((hasSpan_iff _).2 h)
    simp only [ChangeRecord.covers, h1, h2]

lemma settled_emptied : (c.settled y).1.emptied = true ↔
    y.1.emptied = true ∧ referenced c.gapRows y.1.id = false := by
  rw [settled, (seatRow_same _ _).2.2, reviveRow_emptied, referenced_gapRows]

lemma liveRow_revive :
    liveRow c.gapsOut (reviveRow c.gapsOut y) = true ↔
      hasSpan y.1 = true ∨ referenced c.gapRows y.1.id = true ∨ y.1.emptied = true := by
  rw [liveRow, Bool.or_eq_true, Bool.or_eq_true, hasSpan_revive, reviveRow_emptied,
    (reviveRow_same _ _).1, ← referenced_gapRows]
  cases hasSpan y.1 <;> cases referenced c.gapRows y.1.id <;> cases y.1.emptied <;> simp

/-! The ids of the plan's rows. -/

lemma taken_le_made : c.taken ≤ c.made.2 := by
  unfold made mineOf
  split
  · split <;> simp
  · simp

lemma out_ids : c.out.map (·.1.id) =
    (c.changes.map (·.1.id)).filter
        (fun id => !(c.mine.isSome && decide (id ∈ c.owned) &&
          decide (c.mine.map (·.id) = some id))) ++
      (range' c.made.2 c.halves.length).map c.fresh ++ c.mine.toList.map (·.id) := by
  rw [out, map_append, map_append, flatMap_keepRow_ids, halves, splitRows_ids]
  simp [splitRows]

lemma ids_out (hn : (c.changes.map (·.1.id)).Nodup) (hf : Fresh c.fresh c.taken c.changes) :
    (c.out.map (·.1.id)).Nodup := by
  have hold : ∀ id ∈ c.changes.map (·.1.id), ∀ k, c.taken ≤ k → id ≠ c.fresh k := by
    intro id hid k hk
    obtain ⟨r, hr, rfl⟩ := mem_map.1 hid
    exact hf.new r hr k hk
  have htm := taken_le_made (c := c)
  rw [out_ids]
  refine Nodup.append (Nodup.append (hn.filter _) ?_ ?_) ?_ ?_
  · have hrange : (range' c.made.2 c.halves.length).Nodup := nodup_range'
    exact hrange.map hf.inj
  · intro id hid hnew
    obtain ⟨k, hk, rfl⟩ := mem_map.1 hnew
    simp only [mem_range'_1] at hk
    exact hold _ (mem_of_mem_filter hid) k (by omega) rfl
  · cases c.mine <;> simp
  · cases hm : c.mine with
    | none => simp
    | some m =>
      simp only [Option.toList_some, map_cons, map_nil, disjoint_singleton, mem_append, not_or]
      rcases mine_id hn hm with ⟨ho, hmade⟩ | ⟨ho, hid, hmade⟩
      · obtain ⟨r, hr, hrid, -⟩ := (owned_row ho).2
        have hmem : m.id ∈ c.changes.map (·.1.id) := hrid ▸ mem_map_of_mem hr
        refine ⟨by simp [ho], fun hnew => ?_⟩
        obtain ⟨k, hk, hk'⟩ := mem_map.1 hnew
        simp only [mem_range'_1] at hk
        exact hold _ hmem k (by omega) hk'.symm
      · refine ⟨fun h => ?_, fun hnew => ?_⟩
        · exact hold _ (mem_of_mem_filter h) c.taken le_rfl hid
        · obtain ⟨k, hk, hk'⟩ := mem_map.1 hnew
          simp only [mem_range'_1] at hk
          have := hf.inj (hk'.trans hid)
          omega

lemma ids_rows (hn : (c.changes.map (·.1.id)).Nodup) (hf : Fresh c.fresh c.taken c.changes) :
    (c.rows.map (·.1.id)).Nodup := by
  have hseat : ∀ l : List Row, (l.map (seatRow c.gapRows)).map (·.1.id) = l.map (·.1.id) := by
    intro l
    simp [(seatRow_same _ _).1]
  have hrevive : (c.out.map (reviveRow c.gapsOut)).map (·.1.id) = c.out.map (·.1.id) := by
    simp [(reviveRow_same _ _).1]
  have h : (c.rows.map (·.1.id)).Perm
      (((c.out.map (reviveRow c.gapsOut)).filter (liveRow c.gapsOut)).map (·.1.id)) := by
    refine Perm.trans (Perm.of_eq (hseat _)) ((sortByKey_perm _ _).map _)
  rw [h.nodup_iff]
  have hout := ids_out hn hf
  rw [← hrevive] at hout
  exact hout.sublist (filter_sublist.map _)

lemma taken_le_placeMerged (fresh : ℕ → String) (pos : ℕ) (merged : List Fragment)
    (out : List GapRow) (ids : List String) (n : ℕ) :
    n ≤ (placeMerged fresh pos merged out ids n).2.2 := by
  unfold placeMerged takeId
  split
  · exact le_rfl
  split
  · exact le_rfl
  · cases ids <;> simp

lemma taken_le_placeAfter (fresh : ℕ → String) (pos : ℕ) (after : List Fragment)
    (out : List GapRow) (ids : List String) (n : ℕ) :
    n ≤ (placeAfter fresh pos after out ids n).2 := by
  unfold placeAfter takeId
  split
  · exact le_rfl
  · cases ids <;> simp

lemma made_le_ids : c.made.2 + c.halves.length ≤ c.ids :=
  (taken_le_placeMerged _ _ _ _ _ _).trans (taken_le_placeAfter _ _ _ _ _ _)

lemma fresh_rows (hn : (c.changes.map (·.1.id)).Nodup)
    (hf : Fresh c.fresh c.taken c.changes) : Fresh c.fresh c.ids c.rows := by
  refine ⟨hf.inj, fun x hx k hk => ?_⟩
  obtain ⟨y, hy, -, rfl⟩ := mem_rows.1 hx
  rw [(settled_same y).1]
  have h1 := made_le_ids (c := c)
  have h2 := taken_le_made (c := c)
  rcases mem_out.1 hy with ⟨r, hr, hk'⟩ | hh | ⟨m, hm, rfl⟩
  · rw [(keepRow_same hk').1]
    exact hf.new r hr k (by omega)
  · obtain ⟨r, -, -, i, -, hi, rfl⟩ := mem_splitRows hh
    intro he
    have := hf.inj he
    simp only [halves] at h1
    omega
  · rcases mine_id hn hm with ⟨ho, -⟩ | ⟨-, hid, hmade⟩
    · obtain ⟨r, hr, hrid, -⟩ := (owned_row ho).2
      exact hrid ▸ hf.new r hr k (by omega)
    · intro he
      have := hf.inj (hid.symm.trans he)
      omega

end Call

/-- A call the loop of `plan_edits` can make: the rows are valid for the text, the edit
fits it, and the emptied rows stand before the edit. -/
structure Call.Ready (c : Call) : Prop where
  valid : Valid c.cur.length c.changes c.gaps
  fresh : Fresh c.fresh c.taken c.changes
  fits : c.edit.Fits c.cur.length
  passed : ∀ r ∈ c.changes, r.1.emptied = true → r.1.toPos ≤ c.edit.ef

namespace Call
variable {c : Call}

/-- The text after the edit. -/
def text (c : Call) : List Char := splice c.cur c.edit.ef c.edit.et c.edit.insert

lemma length_text (h : c.edit.Fits c.cur.length) :
    c.text.length = c.edit.stop + (c.cur.length - c.edit.et) := by
  rw [text, length_splice _ _ _ _ h.le h.bound]
  rfl

lemma Ready.ids (h : c.Ready) : (c.changes.map (·.1.id)).Nodup := h.valid.ids

lemma row_ext (hn : (c.changes.map (·.1.id)).Nodup) (hr : r ∈ c.changes) (hs : s ∈ c.changes)
    (hid : r.1.id = s.1.id) : r = s :=
  inj_on_of_nodup_map hn hr hs hid

variable {y x : Row} {q : ℕ} {m : ChangeRecord}

/-- A row of `out` with a span comes from a row whose survivors it holds, or it is the
edit's own. -/
lemma origin (he : c.edit.ef ≤ c.edit.et) (hy : y ∈ c.out) (hs : hasSpan y.1 = true) :
    (∃ r ∈ c.changes, absorbedBy c.mine c.owned r.1 = false ∧
        (y ∈ keepRow c.edit c.mine c.owned r ∨
          ∃ i, (c.changes.filter (splitsRow c.edit c.mine c.owned))[i]? = some r ∧
            y = rightCopy c.edit (c.fresh (c.made.2 + i)) r.1) ∧
        ∀ q, y.1.covers q → ∃ p, c.edit.Moves p q ∧ r.1.covers p) ∨
      c.mine = some y.1 := by
  rcases mem_out.1 hy with ⟨r, hr, hk⟩ | hh | ⟨m, hm, rfl⟩
  · cases ha : absorbedBy c.mine c.owned r.1 with
    | true =>
      simp only [keepRow, ha, if_true] at hk
      split_ifs at hk
      · simp at hk
      · simp only [mem_singleton] at hk
        subst hk
        simp [emptiedRow] at hs
    | false =>
      exact .inl ⟨r, hr, ha, .inl hk, fun q hq =>
        (keepRow_covers he ha q "").1 (.inl ⟨y, hk, hq⟩)⟩
  · obtain ⟨r, hr, hsp, i, hi, -, rfl⟩ := mem_splitRows hh
    have ha : absorbedBy c.mine c.owned r.1 = false := by
      simp only [splitsRow, Bool.and_eq_true, Bool.not_eq_true'] at hsp
      exact hsp.1
    exact .inl ⟨r, hr, ha, .inr ⟨i, hi, rfl⟩, fun q hq =>
      (keepRow_covers he ha q (c.fresh (c.made.2 + i))).1 (.inr ⟨hsp, hq⟩)⟩
  · exact .inr hm

/-- A kept row and the right-hand copy of the same split row hold no common character. -/
lemma keepRow_disjoint_copy {e : OneEdit} {mine : Option ChangeRecord} {owned : List String}
    (he : e.ef ≤ e.et) (hs : splitsRow e mine owned r = true) (hx : x ∈ keepRow e mine owned r)
    (h1 : x.1.covers q) (h2 : (rightCopy e id r.1).1.covers q) : False := by
  simp only [splitsRow, Bool.and_eq_true, Bool.not_eq_true', decide_eq_true_eq] at hs
  have hspan : hasSpan r.1 = true := by
    rw [hasSpan_iff]
    have := h2.2
    simp only [rightCopy, OneEdit.shift] at this
    have := h2.1
    simp only [rightCopy, OneEdit.stop] at this
    omega
  simp only [keepRow, hs.1, hspan, Bool.false_eq_true, if_false, Bool.not_true] at hx
  rw [hasSpan_iff] at hspan
  simp only [ChangeRecord.covers, rightCopy, OneEdit.stop, OneEdit.shift] at h1 h2
  split_ifs at hx <;> simp only [mem_singleton] at hx <;> subst hx <;>
    simp only [emptiedRow, OneEdit.stop, OneEdit.shift] at h1 <;> omega

lemma Ready.first_unabsorbed (h : c.Ready) (hm : c.mine = some m) {d : ChangeRecord}
    (hd : firstSpan c.changes c.me c.edit = some d) (hr : r ∈ c.changes)
    (ha : absorbedBy c.mine c.owned r.1 = false) (hp : r.1.covers p) : ¬ d.covers p := by
  intro hdp
  obtain ⟨⟨s, hs⟩, -⟩ := firstSpan_spec hd
  have he : r.1 = d := h.valid.eq_of_covers hr hs hp hdp
  have ho := firstSpan_owned (untracked_of_mine hm) hd
  simp [absorbedBy, hm, he, ho] at ha

/-- The rows of `out` hold disjoint spans. -/
lemma Ready.out_disjoint (h : c.Ready) {z : Row} (hy : y ∈ c.out) (hz : z ∈ c.out)
    (hyq : y.1.covers q) (hzq : z.1.covers q) : y.1.id = z.1.id := by
  have key : ∀ {x : Row}, (∃ r ∈ c.changes, absorbedBy c.mine c.owned r.1 = false ∧
      (x ∈ keepRow c.edit c.mine c.owned r ∨
        ∃ i, (c.changes.filter (splitsRow c.edit c.mine c.owned))[i]? = some r ∧
          x = rightCopy c.edit (c.fresh (c.made.2 + i)) r.1) ∧
      ∀ q, x.1.covers q → ∃ p, c.edit.Moves p q ∧ r.1.covers p) → x.1.covers q →
      ∀ {m : ChangeRecord}, c.mine = some m → ¬ m.covers q := by
    rintro x ⟨r, hr, ha, -, hx⟩ hxq m hm hmq
    obtain ⟨p, hp, hrp⟩ := hx q hxq
    rcases (mine_covers h.ids h.fits.le hm q).1 hmq with hi | ⟨d, p', hd, hp', hdp⟩
    · exact hp.not_inserted h.fits.le hi
    · rw [hp.inj h.fits.le hp'] at hrp
      exact h.first_unabsorbed hm hd hr ha hrp hdp
  rcases origin h.fits.le hy hyq.hasSpan with hy' | hy' <;>
    rcases origin h.fits.le hz hzq.hasSpan with hz' | hz'
  · obtain ⟨r, hr, ha, hry, hyr⟩ := hy'
    obtain ⟨s, hs, hb, hsz, hzs⟩ := hz'
    obtain ⟨p, hp, hrp⟩ := hyr q hyq
    obtain ⟨p', hp', hsp⟩ := hzs q hzq
    rw [← hp.inj h.fits.le hp'] at hsp
    have heq : r = s := row_ext h.ids hr hs (h.valid.disjoint r hr s hs p hrp hsp)
    subst heq
    have hsplit : ∀ {i}, (c.changes.filter (splitsRow c.edit c.mine c.owned))[i]? = some r →
        splitsRow c.edit c.mine c.owned r = true := fun hi =>
      (List.mem_filter.1 (List.mem_of_getElem? hi)).2
    rcases hry with hry | ⟨i, hi, rfl⟩ <;> rcases hsz with hsz | ⟨j, hj, rfl⟩
    · rw [(keepRow_same hry).1, (keepRow_same hsz).1]
    · exact (keepRow_disjoint_copy h.fits.le (hsplit hj) hry hyq hzq).elim
    · exact (keepRow_disjoint_copy h.fits.le (hsplit hi) hsz hzq hyq).elim
    · have hnd := (List.Nodup.of_map _ h.ids).filter (splitsRow c.edit c.mine c.owned)
      have hlt := (List.getElem?_eq_some_iff.1 hi).1
      rw [(List.getElem?_inj hlt hnd).1 (hi.trans hj.symm)]
  · exact (key hy' hyq hz' hzq).elim
  · exact (key hz' hzq hy' hyq).elim
  · rw [hy', Option.some.injEq] at hz'
    rw [hz']

/-! The owners of the plan's fragments. -/

/-- A fragment of the plan belongs to a change it belonged to before, or to the edit's
change. -/
lemma owns_gapRows (he : c.edit.ef ≤ c.edit.et) (h : Owns (fragmentsAt c.gapRows q) id) :
    (∃ p, Owns (fragmentsAt c.gaps p) id ∧ (c.mine = none ∨ id ∉ c.owned)) ∨
      ∃ m, c.mine = some m ∧ id = m.id := by
  have old : ∀ {l : List Fragment} {p : ℕ}, (∀ x, Owns l x → Owns (fragmentsAt c.gaps p) x) →
      Owns (l.map (relabel c.mine c.owned)) id →
      (∃ p, Owns (fragmentsAt c.gaps p) id ∧ (c.mine = none ∨ id ∉ c.owned)) ∨
        ∃ m, c.mine = some m ∧ id = m.id := by
    intro l p hl ho
    obtain ⟨x, hx, hid⟩ := owns_relabel.1 ho
    unfold newOwner at hid
    split at hid
    · rename_i m hm
      split at hid <;> rename_i hxo
      · exact .inr ⟨m, hm, hid.symm⟩
      · exact .inl ⟨p, hl id (hid ▸ hx), .inr (hid ▸ hxo)⟩
    · rename_i hm
      exact .inl ⟨p, hl id (hid ▸ hx), .inl hm⟩
  rw [(gapRows_regrouped he q).owns, layout, owns_append, owns_append] at h
  rcases h with (h | h) | h
  · rw [fragmentsAt_keepGap he] at h
    split_ifs at h
    · exact old (fun _ hx => hx) h
    · exact old (fun _ hx => hx) h
    · simp at h
  · split at h
    · obtain ⟨f, hf, rfl⟩ := h
      obtain ⟨p, -, -, hf⟩ := mem_joinRange.1 hf
      rw [pieces, mem_append] at hf
      rcases hf with hf | hf
      · split at hf
        · simp at hf
        · exact old (fun _ hx => hx) ⟨f, hf, rfl⟩
      · unfold originalPiece at hf
        split at hf
        · rename_i m ch hm _
          split at hf
          · exact .inr ⟨m, hm, by rw [mem_singleton.1 hf]⟩
          · simp at hf
        · simp at hf
    · simp at h
  · split at h
    · exact old (fun _ hx => hx) h
    · simp at h

lemma nonempty_of_owns (h : Owns (fragmentsAt gaps q) id) : q ∈ points gaps := by
  by_contra hq
  rw [fragmentsAt_eq_nil hq] at h
  simp at h

/-- Every owner that the plan's fragments name is a live row of the plan. -/
lemma Ready.owned (h : c.Ready) (ho : Owns (fragmentsAt c.gapRows q) id) :
    ∃ x ∈ c.rows, x.1.id = id ∧ x.1.emptied = false := by
  have href : referenced c.gapRows id = true := referenced_iff.2 ⟨q, ho⟩
  have settle : ∀ y ∈ c.out, y.1.id = id → ∃ x ∈ c.rows, x.1.id = id ∧ x.1.emptied = false := by
    intro y hy hid
    refine ⟨c.settled y, mem_rows.2 ⟨y, hy, ?_, rfl⟩, (settled_same y).1.trans hid, ?_⟩
    · exact liveRow_revive.2 (.inr (.inl (hid ▸ href)))
    · rw [← Bool.not_eq_true, settled_emptied, hid, href]
      simp
  rcases owns_gapRows h.fits.le ho with ⟨p, hp, hno⟩ | ⟨m, hm, rfl⟩
  · obtain ⟨r, hr, rfl, -⟩ := h.valid.owned p id hp
    have ha : absorbedBy c.mine c.owned r.1 = false := by
      rcases hno with hno | hno <;> simp [absorbedBy, hno]
    have hk := keepRow_ids c.edit c.mine c.owned r
    rw [if_neg (by simp [ha])] at hk
    obtain ⟨y, hy, hid⟩ : ∃ y ∈ keepRow c.edit c.mine c.owned r, y.1.id = r.1.id := by
      have hmem : r.1.id ∈ (keepRow c.edit c.mine c.owned r).map (·.1.id) := by simp [hk]
      exact mem_map.1 hmem
    exact settle y (mem_out.2 (.inl ⟨r, hr, hy⟩)) hid
  · exact settle (m, .set) (mem_out.2 (.inr (.inr ⟨m, hm, rfl⟩))) rfl

/-! The offsets of the plan. -/

lemma Ready.out_ordered (h : c.Ready) (hy : y ∈ c.out) : y.1.fromPos ≤ y.1.toPos := by
  have he := h.fits.le
  rcases mem_out.1 hy with ⟨r, hr, hk⟩ | hh | ⟨m, hm, rfl⟩
  · have hr' := h.valid.ordered r hr
    simp only [keepRow] at hk
    split_ifs at hk <;> simp only [not_mem_nil, mem_singleton] at hk <;> subst hk <;>
      first | exact hr' | (simp only [emptiedRow, OneEdit.shift, OneEdit.stop] at *; omega)
  · obtain ⟨r, hr, hsp, i, -, -, rfl⟩ := mem_splitRows hh
    simp only [splitsRow, Bool.and_eq_true, decide_eq_true_eq] at hsp
    simp only [rightCopy, OneEdit.shift, OneEdit.stop]
    omega
  · obtain ⟨-, -, -, hf, ht, -⟩ := mine_spec h.ids hm
    have h1 : m.fromPos ≤ c.edit.ef := hf ▸ (widenFrom_le h.ids).2 (.inl le_rfl)
    have h2 : ¬ m.toPos < c.edit.stop := by
      intro hlt
      rw [ht] at hlt
      exact lt_irrefl _ ((lt_widenTo h.ids).2 (.inl hlt))
    simp only [OneEdit.stop] at h2
    dsimp only
    omega

lemma Ready.out_emptied (h : c.Ready) (hy : y ∈ c.out) (hem : y.1.emptied = true) :
    y.1.fromPos = y.1.toPos ∧ y.1.toPos ≤ c.edit.stop := by
  rcases mem_out.1 hy with ⟨r, hr, hk⟩ | hh | ⟨m, hm, rfl⟩
  · have hold : r.1.emptied = true → r.1.fromPos = r.1.toPos ∧ r.1.toPos ≤ c.edit.stop := by
      intro hr'
      have h1 := h.valid.emptied r hr hr'
      have h2 := h.valid.ordered r hr
      have h3 := h.passed r hr hr'
      simp only [hasSpan, decide_eq_false_iff_not] at h1
      simp only [OneEdit.stop]
      omega
    rcases keepRow_emptied hk hem with rfl | hr'
    · exact ⟨rfl, le_rfl⟩
    · have hspan := h.valid.emptied r hr hr'
      simp only [keepRow, hspan, Bool.not_false, if_true] at hk
      split_ifs at hk <;> simp only [not_mem_nil, mem_singleton] at hk <;> subst hk
      · exact ⟨rfl, le_rfl⟩
      · exact hold hr'
  · obtain ⟨r, hr, hsp, i, -, -, rfl⟩ := mem_splitRows hh
    have hspan := h.valid.emptied r hr hem
    simp only [splitsRow, Bool.and_eq_true, decide_eq_true_eq] at hsp
    simp only [hasSpan, decide_eq_false_iff_not] at hspan
    have := h.fits.le
    omega
  · obtain ⟨-, -, hne, -⟩ := mine_spec h.ids hm
    simp [hne] at hem

lemma Ready.gapInText (h : c.Ready) (hq : q ∈ points c.gapRows) : q ≤ c.text.length := by
  have hlen := length_text h.fits
  have hpos := pos_le (c := c)
  have hle := h.fits.le
  have hb := h.fits.bound
  rcases mem_points_gapRows hq with ⟨h1, -⟩ | ⟨p, hp, h1, h2, rfl⟩ | ⟨rfl, -⟩ | ⟨rfl, -⟩
  · simp only [OneEdit.stop] at hlen
    omega
  · have := h.valid.gapInText p hp
    simp only [OneEdit.stop, OneEdit.shift] at *
    omega
  · simp only [OneEdit.stop] at hlen
    omega
  · omega

lemma Moves_lt_text (h : c.edit.Fits c.cur.length) (hp : p < c.cur.length)
    (hm : c.edit.Moves p q) : q < c.text.length := by
  have hlen := length_text h
  have hle := h.le
  have hb := h.bound
  simp only [OneEdit.Moves, OneEdit.shift, OneEdit.stop] at *
  omega

lemma Ready.inText (h : c.Ready) (hx : x ∈ c.rows) : x.1.toPos ≤ c.text.length := by
  obtain ⟨y, hy, hl, rfl⟩ := mem_rows.1 hx
  have hstop : c.edit.stop ≤ c.text.length := by
    rw [length_text h.fits]
    omega
  rcases (h.out_ordered hy).eq_or_lt with hb | hs
  · obtain ⟨heq, ho | ⟨hr, hfrom⟩⟩ := settled_bare (c := c) hb
    · exact heq ▸ h.gapInText (nonempty_of_owns ho)
    · rw [← heq, hfrom, hb]
      rw [liveRow_revive, hr] at hl
      have hspan : hasSpan y.1 = false := by simp [hasSpan, hb]
      simp only [hspan, Bool.false_eq_true, false_or] at hl
      exact (h.out_emptied hy hl).2.trans hstop
  · rw [(settled_of_span ((hasSpan_iff _).2 hs)).2]
    have hcov : Covered c.out (y.1.toPos - 1) := ⟨y, hy, by constructor <;> omega⟩
    rcases (covered_out h.ids h.fits.le _).1 hcov with ⟨-, hi⟩ | ⟨p, hm, r, hr, hp⟩
    · omega
    · have := h.valid.inText r hr
      have := hp.2
      have := Moves_lt_text h.fits (p := p) (by omega) hm
      omega

/-- An edit inside one span merges nothing: there is neither a gap nor original text. -/
lemma Ready.merged_inside (h : c.Ready) (hr : r ∈ c.changes) (h1 : r.1.fromPos < c.edit.ef)
    (h2 : c.edit.et < r.1.toPos) : c.merged = [] := by
  have hgap : ∀ p, c.edit.ef ≤ p → p ≤ c.edit.et → fragmentsAt c.gaps p = [] := fun p hp hp' =>
    fragmentsAt_eq_nil fun hm => h.valid.outside p hm r hr ⟨by omega, by omega⟩
  have hpieces : joinRange c.pieces c.edit.ef (c.edit.et + 1) = [] := by
    refine joinRange_eq_nil fun p hp hp' => ?_
    have hcov : ¬ (p < c.edit.et ∧ spanEndAt c.changes p = none) := by
      rw [spanEndAt_eq_none]
      exact fun hh => hh.2 ⟨r, hr, by constructor <;> omega⟩
    simp only [pieces, hgap p hp (by omega), map_nil, ite_self, nil_append,
      originalPiece, hcov, if_false]
    split <;> rfl
  have hm := (merged_regrouped (c := c)).owns
  rw [hpieces] at hm
  cases hmerged : c.merged with
  | nil => rfl
  | cons f l =>
    have := (hm f.change).1 (by rw [hmerged]; simp)
    simp at this

lemma Ready.after_points (h : c.Ready) (ha : c.after ≠ []) : c.edit.et ∈ points c.gaps := by
  by_contra hq
  refine ha ?_
  have hr := (after_regrouped (c := c) h.fits.le).owns
  rw [fragmentsAt_eq_nil hq, map_nil, ite_self] at hr
  cases hafter : c.after with
  | nil => rfl
  | cons f l =>
    have := (hr f.change).1 (by rw [hafter]; simp)
    simp at this

lemma Moves_of_shift (e : OneEdit) (he : e.ef ≤ e.et) (h : e.et < p) :
    ∃ q, e.shift p = q + 1 ∧ e.Moves (p - 1) q ∧ e.Moves p (q + 1) := by
  refine ⟨e.shift p - 1, ?_⟩
  simp only [OneEdit.Moves, OneEdit.shift]
  omega

/-- A gap where the merged fragments go stands outside every row that is not the edit's
own. -/
lemma Ready.pos_outside (h : c.Ready) (hmg : c.merged ≠ []) (hq : q + 1 = c.pos)
    (hr : r ∈ c.changes) (ha : absorbedBy c.mine c.owned r.1 = false) {p' : ℕ}
    (hp : c.edit.Moves p q) (hp' : c.edit.Moves p' (q + 1)) (h1 : r.1.covers p)
    (h2 : r.1.covers p') : False := by
  have hle := h.fits.le
  have hpos := pos_le (c := c)
  rcases hpos.lt_or_eq with hlt | heq
  · cases hm : c.mine with
    | none => simp [pos, hm] at hlt
    | some m =>
      obtain ⟨-, -, -, hf, -⟩ := mine_spec h.ids hm
      have hposm : c.pos = widenFrom c.changes c.owned c.edit := by simp [pos, hm, hf]
      rcases (widenFrom_le h.ids).1 hposm.ge with hge | ⟨-, d, hd, hdf⟩
      · omega
      · obtain ⟨-, -, -, -, hdt⟩ := firstSpan_spec hd
        refine h.first_unabsorbed hm hd hr ha h2 ⟨?_, ?_⟩ <;>
          (simp only [OneEdit.Moves, OneEdit.shift] at hp'; omega)
  · refine hmg (h.merged_inside hr ?_ ?_)
    · have := h1.1
      simp only [OneEdit.Moves, OneEdit.shift] at hp
      omega
    · have := h2.2
      simp only [OneEdit.Moves, OneEdit.shift] at hp hp'
      omega

/-- No gap of the plan stands inside the edit's own span. -/
lemma Ready.mine_outside (h : c.Ready) (hm : c.mine = some m) (hq : q + 1 ∈ points c.gapRows)
    (h1 : m.covers q) (h2 : m.covers (q + 1)) : False := by
  have hle := h.fits.le
  have old : ∀ {p q}, c.edit.Moves p q → m.covers q → ∃ d, firstSpan c.changes c.me c.edit =
      some d ∧ d.covers p := by
    intro p q hp hq
    rcases (mine_covers h.ids hle hm q).1 hq with hi | ⟨d, p', hd, hp', hdp⟩
    · exact (hp.not_inserted hle hi).elim
    · exact ⟨d, hd, hp.inj hle hp' ▸ hdp⟩
  have both : ∀ {p q}, c.edit.Moves p q → c.edit.Moves (p + 1) (q + 1) → m.covers q →
      m.covers (q + 1) → p + 1 ∉ points c.gaps := by
    intro p q hp hp' hq hq'
    obtain ⟨d, hd, hdp⟩ := old hp hq
    obtain ⟨d', hd', hdp'⟩ := old hp' hq'
    rw [hd, Option.some.injEq] at hd'
    subst hd'
    obtain ⟨⟨s, hs⟩, -⟩ := firstSpan_spec hd
    exact h.valid.not_inside hs hdp hdp'
  rcases mem_points_gapRows hq with ⟨hlt, hg⟩ | ⟨p, hg, hge, hlt, hs⟩ | ⟨heq, -⟩ | ⟨heq, ha⟩
  · exact both (.inl ⟨by omega, rfl⟩) (.inl ⟨hlt, rfl⟩) h1 h2 hg
  · obtain ⟨q', hq', hm1, hm2⟩ := Moves_of_shift c.edit hle hlt
    obtain rfl : q = q' := by omega
    obtain ⟨p, rfl⟩ : ∃ p', p = p' + 1 := ⟨p - 1, by omega⟩
    exact both hm1 hm2 h1 h2 hg
  · have := h1.1
    simp only [pos, hm, Option.map_some, Option.getD_some] at heq
    omega
  · obtain ⟨hsplit, hlen⟩ := splitAtEnd_len ha
    have hmv : c.edit.Moves c.edit.et (q + 1) := by
      simp only [OneEdit.Moves, OneEdit.shift, heq, OneEdit.stop]
      omega
    obtain ⟨d, hd, hdp⟩ := old hmv h2
    obtain ⟨⟨s, hs⟩, hw, hspan, hfe, -⟩ := firstSpan_spec hd
    have ho := firstSpan_owned (untracked_of_mine hm) hd
    have hne : d.fromPos ≠ c.edit.et := by
      intro he
      have hend : ownAtEnd c.changes c.sw c.me c.owned c.edit = true := by
        rw [ownAtEnd, Bool.or_eq_true]
        refine .inl (any_eq_true.2 ⟨(d, s), hs, ?_⟩)
        simp [hw, hspan, he, ho]
      simp [splitAtEnd, hend] at hsplit
    exact h.valid.outside _ (h.after_points ha) _ hs ⟨by dsimp only; omega, hdp.2⟩

/-- No gap of the plan stands inside a span of the plan. -/
lemma Ready.outside (h : c.Ready) (hq : q ∈ points c.gapRows) (hx : x ∈ c.rows) :
    ¬ (x.1.fromPos < q ∧ q < x.1.toPos) := by
  rintro ⟨hlo, hhi⟩
  obtain ⟨y, hy, -, rfl⟩ := mem_rows.1 hx
  have hle := h.fits.le
  have hord := h.out_ordered hy
  obtain ⟨q, rfl⟩ : ∃ q', q = q' + 1 := ⟨q - 1, by omega⟩
  have h1 : y.1.covers q := (settled_covers (c := c) hord q).1 ⟨by omega, by omega⟩
  have h2 : y.1.covers (q + 1) := (settled_covers (c := c) hord (q + 1)).1 ⟨by omega, hhi⟩
  rcases origin hle hy h1.hasSpan with ⟨r, hr, ha, -, hold⟩ | hm
  · obtain ⟨p, hp, hrp⟩ := hold q h1
    obtain ⟨p', hp', hrp'⟩ := hold (q + 1) h2
    have next : ∀ {p₁}, c.edit.Moves p₁ q → c.edit.Moves (p₁ + 1) (q + 1) →
        p₁ + 1 ∉ points c.gaps := by
      intro p₁ hm1 hm2
      rw [hp.inj hle hm1] at hrp
      rw [hp'.inj hle hm2] at hrp'
      exact h.valid.not_inside hr hrp hrp'
    rcases mem_points_gapRows hq with ⟨hlt, hg⟩ | ⟨p₁, hg, hge, hlt, hs⟩ | ⟨heq, hmg⟩ | ⟨heq, haft⟩
    · exact next (.inl ⟨by omega, rfl⟩) (.inl ⟨hlt, rfl⟩) hg
    · obtain ⟨q', hq', hm1, hm2⟩ := Moves_of_shift c.edit hle hlt
      obtain rfl : q = q' := by omega
      obtain ⟨p₁, rfl⟩ : ∃ p', p₁ = p' + 1 := ⟨p₁ - 1, by omega⟩
      exact next hm1 hm2 hg
    · exact h.pos_outside hmg heq hr ha hp hp' hrp hrp'
    · have hlen := (splitAtEnd_len haft).2
      refine hp.not_inserted hle ?_
      simp only [OneEdit.stop] at heq ⊢
      omega
  · exact h.mine_outside hm hq h1 h2

lemma Ready.seated (h : c.Ready) (hx : x ∈ c.rows) (hs : hasSpan x.1 = false)
    (hem : x.1.emptied = false) : Owns (fragmentsAt c.gapRows x.1.fromPos) x.1.id := by
  obtain ⟨y, hy, hl, rfl⟩ := mem_rows.1 hx
  have hord := h.out_ordered hy
  have hbare : y.1.fromPos = y.1.toPos := by
    by_contra hne
    have hspan : hasSpan y.1 = true := (hasSpan_iff _).2 (by omega)
    obtain ⟨h1, h2⟩ := settled_of_span (c := c) hspan
    simp only [hasSpan, h1, h2, decide_eq_false_iff_not] at hs
    omega
  rw [(settled_same y).1]
  rcases (settled_bare (c := c) hbare).2 with ho | ⟨hr, -⟩
  · exact ho
  · have hspan : hasSpan y.1 = false := by simp [hasSpan, hbare]
    rw [liveRow_revive, hr, hspan] at hl
    simp only [Bool.false_eq_true, false_or] at hl
    rw [settled_emptied.2 ⟨hl, hr⟩] at hem
    simp at hem

lemma Ready.full (h : c.Ready) (q : ℕ) : ∀ f ∈ fragmentsAt c.gapRows q, f.text ≠ [] := by
  refine (gapRows_regrouped h.fits.le q).full ?_
  have old : ∀ p, ∀ f ∈ (fragmentsAt c.gaps p).map (relabel c.mine c.owned), f.text ≠ [] := by
    intro p f hf
    obtain ⟨g, hg, rfl⟩ := mem_map.1 hf
    exact h.valid.full p g hg
  intro f hf
  rw [layout, mem_append, mem_append] at hf
  rcases hf with (hf | hf) | hf
  · rw [fragmentsAt_keepGap h.fits.le] at hf
    split_ifs at hf
    · exact old _ f hf
    · exact old _ f hf
    · simp at hf
  · split at hf
    · obtain ⟨p, -, -, hf⟩ := mem_joinRange.1 hf
      rw [pieces, mem_append] at hf
      rcases hf with hf | hf
      · split at hf
        · simp at hf
        · exact old _ f hf
      · unfold originalPiece at hf
        split at hf
        · split at hf
          · simp [mem_singleton.1 hf]
          · simp at hf
        · simp at hf
    · simp at hf
  · split at hf
    · exact old _ f hf
    · simp at hf

/-- One edit keeps the invariant. -/
lemma Ready.step (h : c.Ready) :
    Valid c.text.length c.rows c.gapRows ∧ Fresh c.fresh c.ids c.rows ∧
      ∀ x ∈ c.rows, x.1.emptied = true → x.1.toPos ≤ c.edit.stop := by
  have hemptied : ∀ x ∈ c.rows, x.1.emptied = true →
      hasSpan x.1 = false ∧ x.1.toPos ≤ c.edit.stop := by
    intro x hx hem
    obtain ⟨y, hy, -, rfl⟩ := mem_rows.1 hx
    obtain ⟨hy', hr⟩ := settled_emptied.1 hem
    obtain ⟨heq, hle⟩ := h.out_emptied hy hy'
    obtain ⟨hb, ho | ⟨-, hf⟩⟩ := settled_bare (c := c) heq
    · rw [referenced_iff.2 ⟨_, ho⟩] at hr
      simp at hr
    · simp only [hasSpan, decide_eq_false_iff_not]
      omega
  refine ⟨⟨ids_rows h.ids h.fresh, ?_, fun _ => h.inText, ?_, fun _ => h.gapInText,
    fun _ hq _ => h.outside hq, h.full, fun _ _ => h.owned,
    fun _ => h.seated, fun x hx hem => (hemptied x hx hem).1⟩,
    fresh_rows h.ids h.fresh, fun x hx hem => (hemptied x hx hem).2⟩
  · intro x hx
    obtain ⟨y, hy, -, rfl⟩ := mem_rows.1 hx
    rcases (h.out_ordered hy).eq_or_lt with hb | hs
    · exact (settled_bare hb).1.le
    · obtain ⟨h1, h2⟩ := settled_of_span (c := c) ((hasSpan_iff _).2 hs)
      omega
  · intro x hx z hz p hxp hzp
    obtain ⟨y, hy, -, rfl⟩ := mem_rows.1 hx
    obtain ⟨w, hw, -, rfl⟩ := mem_rows.1 hz
    rw [settled_covers (h.out_ordered hy)] at hxp
    rw [settled_covers (h.out_ordered hw)] at hzp
    rw [(settled_same y).1, (settled_same w).1]
    exact h.out_disjoint hy hw hxp hzp

end Call

end LibrePaper.Track
