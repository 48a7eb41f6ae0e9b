import LibrePaper.Track.Planner

/-!
# What one edit does to the rows

A character of the old text at `p` that survives an edit stands at `q` of the new
one when `e.Moves p q`. The lemmas say which characters the rows of the plan cover
in these terms, and which ids and authors they carry.
-/
namespace LibrePaper.Track
open Library List

namespace OneEdit

/-- The edit fits a text of `n` characters. -/
structure Fits (e : OneEdit) (n : ℕ) : Prop where
  le : e.ef ≤ e.et
  bound : e.et ≤ n

/-- The character at `p` survives the edit and stands at `q` after it. -/
def Moves (e : OneEdit) (p q : ℕ) : Prop :=
  (p < e.ef ∧ q = p) ∨ (e.et ≤ p ∧ q = e.shift p)

variable {e : OneEdit} {p q : ℕ}

lemma Moves.inj {p' : ℕ} (he : e.ef ≤ e.et) (h : e.Moves p q) (h' : e.Moves p' q) : p = p' := by
  simp only [Moves, shift] at h h'
  omega

lemma Moves.not_inserted (he : e.ef ≤ e.et) (h : e.Moves p q) : ¬ (e.ef ≤ q ∧ q < e.stop) := by
  simp only [Moves, shift, stop] at *
  omega

/-- A position of the new text holds an inserted character or a survivor. -/
lemma moves_or_inserted (he : e.ef ≤ e.et) (q : ℕ) :
    (e.ef ≤ q ∧ q < e.stop) ∨ ∃ p, e.Moves p q := by
  by_cases h1 : q < e.ef
  · exact .inr ⟨q, .inl ⟨h1, rfl⟩⟩
  · by_cases h2 : q < e.stop
    · exact .inl ⟨by omega, h2⟩
    · refine .inr ⟨q + (e.et - e.ef) - e.len, .inr ?_⟩
      simp only [stop, shift] at *
      omega

end OneEdit

/-- The arguments of one call of `planOne`. -/
structure Call where
  fresh : ℕ → String
  cur : List Char
  changes : List Row
  gaps : List GapRow
  edit : OneEdit
  me : Author
  run : Option String
  now : ℤ
  untracked : Bool
  taken : ℕ

namespace Call

/-! The intermediate values of `planOne`, by the names they have there. -/

def sw (c : Call) : List Gap := swallowed c.gaps c.edit
def owned (c : Call) : List String := ownedIds c.changes c.gaps c.me c.edit c.untracked
def records (c : Call) : Bool := recordsChange c.changes c.edit c.untracked
def made (c : Call) : Option ChangeRecord × ℕ :=
  mineOf c.fresh c.changes c.owned c.edit c.me c.run c.now c.records c.taken
def mine (c : Call) : Option ChangeRecord := c.made.1
def splitAtEnd (c : Call) : Bool :=
  decide (0 < c.edit.len) && !ownAtEnd c.changes c.sw c.me c.owned c.edit
def merged (c : Call) : List Fragment :=
  mergedFragments c.cur c.changes c.sw c.mine c.owned c.edit c.splitAtEnd
def after (c : Call) : List Fragment := afterFragments c.sw c.mine c.owned c.edit c.splitAtEnd
def halves (c : Call) : List Row :=
  splitRows c.fresh c.edit c.mine c.owned c.changes c.made.2
def out (c : Call) : List Row :=
  c.changes.flatMap (keepRow c.edit c.mine c.owned) ++ c.halves ++
    c.mine.toList.map fun m => (m, .set)
def pos (c : Call) : ℕ := (c.mine.map ChangeRecord.fromPos).getD c.edit.ef
def placed (c : Call) : List GapRow × List String × ℕ :=
  placeMerged c.fresh c.pos c.merged (c.gaps.filterMap (keepGap c.edit)) (c.sw.map Gap.id)
    (c.made.2 + c.halves.length)
def all (c : Call) : List GapRow × ℕ :=
  placeAfter c.fresh c.edit.stop c.after c.placed.1 c.placed.2.1 c.placed.2.2
def gapsOut (c : Call) : List GapRow := c.all.1.map (relabelGap c.mine c.owned)
def rows (c : Call) : List Row := (settle c.out c.gapsOut).1
def gapRows (c : Call) : List GapRow := (settle c.out c.gapsOut).2
def ids (c : Call) : ℕ := c.all.2

end Call

variable {id : String} {changes : List Row} {me : Author} {e : OneEdit} {p a : ℕ}
  {l : List ChangeRecord} {mine : Option ChangeRecord} {owned : List String} {r x : Row}

lemma mem_pushUnique {ids : List String} {x : String} :
    x ∈ pushUnique ids id ↔ x ∈ ids ∨ x = id := by
  unfold pushUnique
  split <;> rename_i h
  · constructor
    · exact .inl
    · rintro (hx | rfl) <;> assumption
  · simp

lemma mem_foldl_pushUnique (p : String → Bool) (fs : List Fragment) (ids : List String)
    (x : String) :
    x ∈ fs.foldl (fun ids f => if p f.change then pushUnique ids f.change else ids) ids ↔
      x ∈ ids ∨ (p x = true ∧ ∃ f ∈ fs, f.change = x) := by
  induction fs generalizing ids with
  | nil => simp
  | cons f fs ih =>
    simp only [foldl_cons, ih]
    by_cases hp : p f.change
    · simp only [hp, if_true, mem_pushUnique, mem_cons, exists_eq_or_imp]
      constructor
      · rintro ((h | rfl) | ⟨h, g⟩)
        · exact .inl h
        · exact .inr ⟨hp, .inl rfl⟩
        · exact .inr ⟨h, .inr g⟩
      · rintro (h | ⟨h, rfl | g⟩)
        · exact .inl (.inl h)
        · exact .inl (.inr rfl)
        · exact .inr ⟨h, g⟩
    · simp only [hp, Bool.false_eq_true, if_false, mem_cons, exists_eq_or_imp]
      constructor
      · rintro (h | ⟨h, g⟩)
        · exact .inl h
        · exact .inr ⟨h, .inr g⟩
      · rintro (h | ⟨h, rfl | g⟩)
        · exact .inl h
        · exact absurd h hp
        · exact .inr ⟨h, g⟩

lemma ownBare_iff :
    ownBare changes me id = true ↔ ∃ c, findRow changes id = some c ∧ c.who = me.who ∧
      hasSpan c = false ∧ c.orphan = false := by
  unfold ownBare
  cases h : findRow changes id with
  | none => simp
  | some c => simp [and_assoc]

lemma mem_touchedIds {gaps : List GapRow} :
    id ∈ touchedIds changes gaps me e ↔
      (∃ c, firstSpan changes me e = some c ∧ c.id = id) ∨
      (ownBare changes me id = true ∧
        ∃ g ∈ swallowed gaps e, ∃ f ∈ g.fragments, f.change = id) := by
  rw [touchedIds, mem_foldl_pushUnique]
  simp only [Option.mem_toList, Option.map_eq_some_iff, mem_flatMap]
  constructor
  · rintro (h | ⟨h, f, ⟨g, hg, hf⟩, rfl⟩)
    · exact .inl h
    · exact .inr ⟨h, g, hg, f, hf, rfl⟩
  · rintro (h | ⟨h, g, hg, f, hf, rfl⟩)
    · exact .inl h
    · exact .inr ⟨h, f, ⟨g, hg, hf⟩, rfl⟩

lemma firstSpan_spec {c : ChangeRecord} (h : firstSpan changes me e = some c) :
    (∃ s, (c, s) ∈ changes) ∧ c.who = me.who ∧ hasSpan c = true ∧ c.fromPos ≤ e.et ∧
      e.ef ≤ c.toPos := by
  have hm := firstMin_mem h
  simp only [mem_map, mem_filter, decide_eq_true_eq] at hm
  obtain ⟨r, ⟨hr, hw, hs, hf, ht⟩, rfl⟩ := hm
  exact ⟨⟨r.2, hr⟩, hw, hs, hf, ht⟩

lemma spanEndAt_eq_none : spanEndAt changes p = none ↔ ¬ Covered changes p := by
  simp only [spanEndAt, Option.map_eq_none_iff, find?_eq_none, Bool.and_eq_true,
    decide_eq_true_eq, Covered, not_exists, not_and]
  exact ⟨fun h r hr hc => h r hr hc.hasSpan hc, fun h r hr _ => h r hr⟩

lemma removesOriginal_iff :
    removesOriginal changes e = true ↔ ∃ p, e.ef ≤ p ∧ p < e.et ∧ ¬ Covered changes p := by
  simp only [removesOriginal, any_eq_true, mem_range'_1, Option.isNone_iff_eq_none,
    spanEndAt_eq_none]
  constructor
  · rintro ⟨p, ⟨h1, h2⟩, h3⟩
    exact ⟨p, h1, by omega, h3⟩
  · rintro ⟨p, h1, h2, h3⟩
    exact ⟨p, ⟨h1, by omega⟩, h3⟩

lemma recordsChange_iff {untracked : Bool} :
    recordsChange changes e untracked = true ↔ untracked = false ∧
      ((∃ p, e.ef ≤ p ∧ p < e.et ∧ ¬ Covered changes p) ∨ 0 < e.len) := by
  simp [recordsChange, removesOriginal_iff]

/-! The owned changes of a call. -/

namespace Call
variable {c : Call}

lemma owned_row (h : id ∈ c.owned) :
    c.untracked = false ∧ ∃ r ∈ c.changes, r.1.id = id ∧ r.1.who = c.me.who := by
  unfold owned ownedIds at h
  split at h <;> rename_i hu
  · simp at h
  · refine ⟨by simpa using hu, ?_⟩
    rw [mem_touchedIds] at h
    rcases h with ⟨d, hd, rfl⟩ | ⟨hb, _⟩
    · obtain ⟨⟨s, hs⟩, hw, _⟩ := firstSpan_spec hd
      exact ⟨(d, s), hs, rfl, hw⟩
    · obtain ⟨d, hd, hw, _⟩ := ownBare_iff.1 hb
      obtain ⟨⟨s, hs⟩, hid⟩ := findRow_some hd
      exact ⟨(d, s), hs, hid, hw⟩

/-- The only owned change with a span is the first own span at the edit. -/
lemma owned_span (hn : (c.changes.map (·.1.id)).Nodup) {r : Row} (hr : r ∈ c.changes)
    (ho : r.1.id ∈ c.owned) (hs : hasSpan r.1 = true) :
    firstSpan c.changes c.me c.edit = some r.1 := by
  have hu := (owned_row ho).1
  have hf := findRow_of_mem hn hr
  simp only [owned, ownedIds, hu, Bool.false_eq_true, if_false, mem_touchedIds] at ho
  rcases ho with ⟨d, hd, hid⟩ | ⟨hb, _⟩
  · obtain ⟨⟨s, hm⟩, _⟩ := firstSpan_spec hd
    have hfd := findRow_of_mem hn hm
    simp only [hid, hf, Option.some.injEq] at hfd
    rw [hd, hfd]
  · obtain ⟨d, hd, _, hsd, _⟩ := ownBare_iff.1 hb
    rw [hf, Option.some.injEq] at hd
    subst hd
    simp [hs] at hsd

variable {d : ChangeRecord}

lemma firstSpan_owned (hu : c.untracked = false) (h : firstSpan c.changes c.me c.edit = some d) :
    d.id ∈ c.owned := by
  simp only [owned, ownedIds, hu, Bool.false_eq_true, if_false, mem_touchedIds]
  exact .inl ⟨d, h, rfl⟩

/-- The records the edit's span is widened over, besides those with no span. -/
lemma mem_ownedRecords (hn : (c.changes.map (·.1.id)).Nodup) :
    d ∈ c.owned.filterMap (findRow c.changes) ∧ hasSpan d = true ↔
      c.untracked = false ∧ firstSpan c.changes c.me c.edit = some d := by
  constructor
  · rintro ⟨hd, hs⟩
    obtain ⟨id, hid, hf⟩ := mem_filterMap.1 hd
    obtain ⟨⟨s, hm⟩, rfl⟩ := findRow_some hf
    exact ⟨(owned_row hid).1, owned_span hn hm hid hs⟩
  · rintro ⟨hu, h⟩
    obtain ⟨⟨s, hm⟩, _, hs, _⟩ := firstSpan_spec h
    exact ⟨mem_filterMap.2 ⟨d.id, firstSpan_owned hu h, findRow_of_mem hn hm⟩, hs⟩

end Call

lemma foldl_min_le :
    l.foldl (fun x c => if hasSpan c then min x c.fromPos else x) a ≤ p ↔
      a ≤ p ∨ ∃ c ∈ l, hasSpan c = true ∧ c.fromPos ≤ p := by
  induction l generalizing a with
  | nil => simp
  | cons c l ih =>
    simp only [foldl_cons, ih, mem_cons, exists_eq_or_imp]
    by_cases h : hasSpan c = true
    · simp only [h, if_true, true_and, min_le_iff, or_assoc]
    · simp [h]

lemma lt_foldl_max :
    p < l.foldl (fun x c => if hasSpan c ∧ e.et < c.toPos then max x (e.shift c.toPos) else x) a ↔
      p < a ∨ ∃ c ∈ l, (hasSpan c = true ∧ e.et < c.toPos) ∧ p < e.shift c.toPos := by
  induction l generalizing a with
  | nil => simp
  | cons c l ih =>
    simp only [foldl_cons, ih, mem_cons, exists_eq_or_imp]
    by_cases h : hasSpan c = true ∧ e.et < c.toPos
    · rw [if_pos h]
      simp only [h, true_and, lt_max_iff, or_assoc, and_self]
    · rw [if_neg h]
      simp only [h, false_and, false_or]

namespace Call
variable {c : Call}

lemma widenFrom_le (hn : (c.changes.map (·.1.id)).Nodup) :
    widenFrom c.changes c.owned c.edit ≤ p ↔ c.edit.ef ≤ p ∨ c.untracked = false ∧
      ∃ d, firstSpan c.changes c.me c.edit = some d ∧ d.fromPos ≤ p := by
  rw [widenFrom, foldl_min_le]
  constructor
  · rintro (h | ⟨d, hd, hs, hp⟩)
    · exact .inl h
    · obtain ⟨hu, hf⟩ := (mem_ownedRecords hn).1 ⟨hd, hs⟩
      exact .inr ⟨hu, d, hf, hp⟩
  · rintro (h | ⟨hu, d, hf, hp⟩)
    · exact .inl h
    · obtain ⟨hd, hs⟩ := (mem_ownedRecords hn).2 ⟨hu, hf⟩
      exact .inr ⟨d, hd, hs, hp⟩

lemma lt_widenTo (hn : (c.changes.map (·.1.id)).Nodup) :
    p < widenTo c.changes c.owned c.edit ↔ p < c.edit.stop ∨ c.untracked = false ∧
      ∃ d, firstSpan c.changes c.me c.edit = some d ∧ c.edit.et < d.toPos ∧
        p < c.edit.shift d.toPos := by
  rw [widenTo, lt_foldl_max]
  constructor
  · rintro (h | ⟨d, hd, ⟨hs, ht⟩, hp⟩)
    · exact .inl h
    · obtain ⟨hu, hf⟩ := (mem_ownedRecords hn).1 ⟨hd, hs⟩
      exact .inr ⟨hu, d, hf, ht, hp⟩
  · rintro (h | ⟨hu, d, hf, ht, hp⟩)
    · exact .inl h
    · obtain ⟨hd, hs⟩ := (mem_ownedRecords hn).2 ⟨hu, hf⟩
      exact .inr ⟨d, hd, ⟨hs, ht⟩, hp⟩

variable {m : ChangeRecord}

/-- What the change that the edit writes looks like. -/
lemma mine_spec (hn : (c.changes.map (·.1.id)).Nodup) (h : c.mine = some m) :
    c.records = true ∧ m.who = c.me.who ∧ m.emptied = false ∧
      m.fromPos = widenFrom c.changes c.owned c.edit ∧
      m.toPos = widenTo c.changes c.owned c.edit ∧
      ((∃ d, firstOwned c.changes c.owned = some d ∧ m.id = d.id ∧ c.made.2 = c.taken) ∨
        (firstOwned c.changes c.owned = none ∧ m.id = c.fresh c.taken ∧
          c.made.2 = c.taken + 1)) := by
  unfold mine made mineOf at h
  split at h <;> rename_i hr
  · refine ⟨hr, ?_⟩
    cases hf : firstOwned c.changes c.owned with
    | some d =>
      simp only [hf, Option.some.injEq] at h
      obtain ⟨id, hid, hrow⟩ := mem_filterMap.1 (firstMin_mem hf)
      obtain ⟨r, hr', rfl, hw⟩ := (owned_row hid).2
      rw [findRow_of_mem hn hr', Option.some.injEq] at hrow
      subst hrow h
      exact ⟨hw, rfl, rfl, rfl, .inl ⟨r.1, rfl, rfl, by simp [made, mineOf, hr, hf]⟩⟩
    | none =>
      simp only [hf, Option.some.injEq] at h
      subst h
      exact ⟨rfl, rfl, rfl, rfl, .inr ⟨rfl, rfl, by simp [made, mineOf, hr, hf]⟩⟩
  · simp at h

lemma mine_isSome : c.mine.isSome = c.records := by
  unfold mine made mineOf
  cases c.records with
  | true => cases hf : firstOwned c.changes c.owned <;> simp
  | false => simp

lemma mine_eq_none : c.mine = none ↔ c.records = false := by
  rw [← mine_isSome]
  cases c.mine <;> simp

lemma untracked_of_mine (h : c.mine = some m) : c.untracked = false := by
  have hr : c.records = true := by rw [← mine_isSome, h]; rfl
  exact (recordsChange_iff.1 hr).1

/-- The id of the edit's change is an owned one or the next fresh one. -/
lemma mine_id (hn : (c.changes.map (·.1.id)).Nodup) (h : c.mine = some m) :
    (m.id ∈ c.owned ∧ c.made.2 = c.taken) ∨
      (c.owned = [] ∧ m.id = c.fresh c.taken ∧ c.made.2 = c.taken + 1) := by
  obtain ⟨-, -, -, -, -, ⟨d, hd, hid, hk⟩ | ⟨hno, hid, hk⟩⟩ := mine_spec hn h
  · obtain ⟨id, ho, hrow⟩ := mem_filterMap.1 (firstMin_mem hd)
    exact .inl ⟨by rw [hid, (findRow_some hrow).2]; exact ho, hk⟩
  · refine .inr ⟨?_, hid, hk⟩
    rw [firstOwned, firstMin_eq_none, filterMap_eq_nil_iff] at hno
    by_contra hne
    obtain ⟨id, ho⟩ := exists_mem_of_ne_nil _ hne
    obtain ⟨r, hr, rfl, -⟩ := (owned_row ho).2
    simpa [findRow_of_mem hn hr] using hno _ ho

/-- The edit's own span holds the inserted text and what is left of the first own
span at the edit. -/
lemma mine_covers (hn : (c.changes.map (·.1.id)).Nodup) (he : c.edit.ef ≤ c.edit.et)
    (h : c.mine = some m) (q : ℕ) :
    m.covers q ↔ (c.edit.ef ≤ q ∧ q < c.edit.stop) ∨
      ∃ d p, firstSpan c.changes c.me c.edit = some d ∧ c.edit.Moves p q ∧ d.covers p := by
  obtain ⟨hr, -, -, hf, ht, -⟩ := mine_spec hn h
  have hu := untracked_of_mine h
  simp only [ChangeRecord.covers, hf, ht, widenFrom_le hn, lt_widenTo hn, hu, true_and]
  cases hd : firstSpan c.changes c.me c.edit with
  | none => simp
  | some d =>
    obtain ⟨-, -, hs, h1, h2⟩ := firstSpan_spec hd
    simp only [hasSpan_iff] at hs
    simp only [Option.some.injEq, exists_eq_left', OneEdit.Moves, OneEdit.stop, OneEdit.shift]
    constructor
    · rintro ⟨ha, hb⟩
      by_cases h3 : q < c.edit.ef
      · exact .inr ⟨d, q, rfl, .inl ⟨h3, rfl⟩, by omega⟩
      · by_cases h4 : q < c.edit.ef + c.edit.len
        · exact .inl ⟨by omega, h4⟩
        · refine .inr ⟨d, q + (c.edit.et - c.edit.ef) - c.edit.len, rfl, .inr ?_, ?_⟩ <;> omega
    · rintro (⟨ha, hb⟩ | ⟨d', p, rfl, hm, hc⟩) <;> omega

end Call

/-! The rows that stay, and the copies that splitting a span makes. -/

/-- The rows a row leaves behind cover what is left of its span. -/
lemma keepRow_covers (he : e.ef ≤ e.et) (ha : absorbedBy mine owned r.1 = false) (q : ℕ)
    (id : String) :
    ((∃ x ∈ keepRow e mine owned r, x.1.covers q) ∨
        (splitsRow e mine owned r = true ∧ (rightCopy e id r.1).1.covers q)) ↔
      ∃ p, e.Moves p q ∧ r.1.covers p := by
  have key : ∀ f t : ℕ, ((∃ p, e.Moves p q ∧ f ≤ p ∧ p < t) ↔
      (q < e.ef ∧ f ≤ q ∧ q < t) ∨
        (e.stop ≤ q ∧ f + e.len ≤ q + (e.et - e.ef) ∧ q + (e.et - e.ef) < t + e.len)) := by
    intro f t
    simp only [OneEdit.Moves, OneEdit.shift, OneEdit.stop]
    constructor
    · rintro ⟨p, hp⟩
      omega
    · rintro (h | h)
      · exact ⟨q, by omega⟩
      · exact ⟨q + (e.et - e.ef) - e.len, by omega⟩
  simp only [ChangeRecord.covers, key, splitsRow, ha, Bool.not_false, Bool.true_and,
    Bool.and_eq_true, decide_eq_true_eq, rightCopy]
  simp only [keepRow, ha, Bool.false_eq_true, if_false]
  split
  · rename_i hs
    simp only [Bool.not_eq_true', ← Bool.not_eq_true, hasSpan_iff] at hs
    simp only [mem_singleton, exists_eq_left, OneEdit.stop, OneEdit.shift]
    omega
  split
  · simp only [mem_singleton, exists_eq_left, OneEdit.stop, OneEdit.shift]
    omega
  split
  · simp only [mem_singleton, exists_eq_left, OneEdit.stop, OneEdit.shift]
    omega
  split
  · simp only [mem_singleton, exists_eq_left, OneEdit.stop, OneEdit.shift]
    omega
  · simp only [OneEdit.stop, OneEdit.shift]
    split_ifs <;> simp only [mem_singleton, exists_eq_left, emptiedRow, OneEdit.stop] <;> omega

/-- Two records of one change: who made it, in which run and when. -/
def SameChange (x r : ChangeRecord) : Prop :=
  x.who = r.who ∧ x.author = r.author ∧ x.run = r.run ∧ x.stamp = r.stamp

lemma keepRow_same (h : x ∈ keepRow e mine owned r) : x.1.id = r.1.id ∧ SameChange x.1 r.1 := by
  simp only [keepRow] at h
  split_ifs at h <;> simp only [not_mem_nil, mem_singleton] at h <;> subst h <;>
    exact ⟨rfl, rfl, rfl, rfl, rfl⟩

lemma keepRow_emptied (h : x ∈ keepRow e mine owned r) (hx : x.1.emptied = true) :
    x = emptiedRow r.1 e ∨ r.1.emptied = true := by
  simp only [keepRow] at h
  split_ifs at h <;> simp only [not_mem_nil, mem_singleton] at h <;> subst h <;>
    first | exact .inl rfl | exact .inr hx

lemma keepRow_ids (e : OneEdit) (mine : Option ChangeRecord) (owned : List String) (r : Row) :
    (keepRow e mine owned r).map (·.1.id) =
      if absorbedBy mine owned r.1 ∧ mine.map ChangeRecord.id = some r.1.id then []
      else [r.1.id] := by
  simp only [keepRow]
  split_ifs <;> simp_all [emptiedRow]

lemma flatMap_keepRow_ids (e : OneEdit) (mine : Option ChangeRecord) (owned : List String)
    (rows : List Row) :
    (rows.flatMap (keepRow e mine owned)).map (·.1.id) =
      (rows.map (·.1.id)).filter
        fun id => !(mine.isSome && decide (id ∈ owned) && decide (mine.map (·.id) = some id)) := by
  induction rows with
  | nil => rfl
  | cons r rows ih =>
    simp only [flatMap_cons, map_append, ih, keepRow_ids, map_cons, filter_cons, absorbedBy]
    by_cases h1 : mine.isSome = true <;> by_cases h2 : r.1.id ∈ owned <;>
      by_cases h3 : mine.map ChangeRecord.id = some r.1.id <;> simp [h1, h2, h3]

lemma mem_splitRows {fresh : ℕ → String} {n : ℕ} (h : x ∈ splitRows fresh e mine owned changes n) :
    ∃ r ∈ changes, splitsRow e mine owned r = true ∧
      ∃ i, (changes.filter (splitsRow e mine owned))[i]? = some r ∧
        i < (splitRows fresh e mine owned changes n).length ∧
        x = rightCopy e (fresh (n + i)) r.1 := by
  obtain ⟨i, hi, rfl⟩ := mem_mapIdx.1 h
  have hm := getElem_mem (l := changes.filter (splitsRow e mine owned)) hi
  obtain ⟨hr, hs⟩ := mem_filter.1 hm
  exact ⟨_, hr, hs, i, getElem?_eq_getElem hi, by simpa [splitRows] using hi, rfl⟩

lemma splitRows_of_mem (fresh : ℕ → String) (n : ℕ) (hr : r ∈ changes)
    (hs : splitsRow e mine owned r = true) :
    ∃ i, i < (splitRows fresh e mine owned changes n).length ∧
      rightCopy e (fresh (n + i)) r.1 ∈ splitRows fresh e mine owned changes n := by
  obtain ⟨i, hi, he⟩ := mem_iff_getElem.1 (mem_filter.2 ⟨hr, hs⟩)
  exact ⟨i, by simpa [splitRows] using hi, mem_mapIdx.2 ⟨i, hi, by simp [he]⟩⟩

lemma splitRows_ids (fresh : ℕ → String) (e : OneEdit) (mine : Option ChangeRecord)
    (owned : List String) (changes : List Row) (n : ℕ) :
    (splitRows fresh e mine owned changes n).map (·.1.id) =
      (range' n (splitRows fresh e mine owned changes n).length).map fresh := by
  apply ext_getElem
  · simp
  · intro i h1 h2
    simp [splitRows, rightCopy]

namespace Call
variable {c : Call}

/-- A row of the plan before it settles is a kept row, a right-hand copy of a split
span, or the row the edit writes. -/
lemma mem_out : x ∈ c.out ↔
    (∃ r ∈ c.changes, x ∈ keepRow c.edit c.mine c.owned r) ∨ x ∈ c.halves ∨
      ∃ m, c.mine = some m ∧ x = (m, .set) := by
  simp only [out, mem_append, mem_flatMap, mem_map, Option.mem_toList, or_assoc]
  constructor
  · rintro (h | h | ⟨m, hm, rfl⟩)
    · exact .inl h
    · exact .inr (.inl h)
    · exact .inr (.inr ⟨m, hm, rfl⟩)
  · rintro (h | h | ⟨m, hm, rfl⟩)
    · exact .inl h
    · exact .inr (.inl h)
    · exact .inr (.inr ⟨m, hm, rfl⟩)

lemma absorbedBy_iff {d : ChangeRecord} :
    absorbedBy c.mine c.owned d = true ↔ c.records = true ∧ d.id ∈ c.owned := by
  simp [absorbedBy, mine_isSome]

/-- Where the row that holds a surviving character went: it keeps the character under
its own id, it is split and a copy of it holds the character, or the edit's change
took it over. -/
lemma owner_after (hn : (c.changes.map (·.1.id)).Nodup) (he : c.edit.ef ≤ c.edit.et)
    (hr : r ∈ c.changes) {q : ℕ} (hm : c.edit.Moves p q) (hc : r.1.covers p) :
    (absorbedBy c.mine c.owned r.1 = false ∧ ∃ x ∈ c.out, x.1.covers q ∧ SameChange x.1 r.1 ∧
        (x.1.id = r.1.id ∨ (splitsRow c.edit c.mine c.owned r = true ∧
          ∃ k, c.made.2 ≤ k ∧ x.1.id = c.fresh k))) ∨
      (absorbedBy c.mine c.owned r.1 = true ∧ firstSpan c.changes c.me c.edit = some r.1 ∧
        ∃ m, c.mine = some m ∧ m.covers q) := by
  cases ha : absorbedBy c.mine c.owned r.1 with
  | true =>
    obtain ⟨hrec, ho⟩ := absorbedBy_iff.1 ha
    have hf := owned_span hn hr ho hc.hasSpan
    obtain ⟨m, hmine⟩ : ∃ m, c.mine = some m := by
      rw [← Option.isSome_iff_exists, mine_isSome, hrec]
    exact .inr ⟨rfl, hf, m, hmine, (mine_covers hn he hmine q).2 (.inr ⟨r.1, p, hf, hm, hc⟩)⟩
  | false =>
    refine .inl ⟨rfl, ?_⟩
    rcases (keepRow_covers he ha q "").2 ⟨p, hm, hc⟩ with ⟨x, hx, hq⟩ | ⟨hs, hq⟩
    · exact ⟨x, mem_out.2 (.inl ⟨r, hr, hx⟩), hq, (keepRow_same hx).2,
        .inl (keepRow_same hx).1⟩
    · obtain ⟨i, -, hi⟩ := splitRows_of_mem c.fresh c.made.2 hr hs
      exact ⟨_, mem_out.2 (.inr (.inl hi)), hq, ⟨rfl, rfl, rfl, rfl⟩,
        .inr ⟨hs, c.made.2 + i, by omega, rfl⟩⟩

/-- What a row of the plan came from: a row whose surviving characters it holds, or
the edit itself. -/
lemma owner_before (he : c.edit.ef ≤ c.edit.et) (hx : x ∈ c.out) :
    (∃ r ∈ c.changes, SameChange x.1 r.1 ∧
        (x.1.id = r.1.id ∨ ∃ k, c.made.2 ≤ k ∧ x.1.id = c.fresh k) ∧
        ∀ q, x.1.covers q → ∃ p, c.edit.Moves p q ∧ r.1.covers p) ∨
      c.mine = some x.1 := by
  rcases mem_out.1 hx with ⟨r, hr, hk⟩ | hh | ⟨m, hm, rfl⟩
  · refine .inl ⟨r, hr, (keepRow_same hk).2, .inl (keepRow_same hk).1, fun q hc => ?_⟩
    cases ha : absorbedBy c.mine c.owned r.1 with
    | true =>
      have hspan := hc.hasSpan
      simp only [keepRow, ha, if_true] at hk
      split_ifs at hk
      · simp at hk
      · simp only [mem_singleton] at hk
        subst hk
        simp [emptiedRow] at hspan
    | false => exact (keepRow_covers he ha q "").1 (.inl ⟨x, hk, hc⟩)
  · obtain ⟨r, hr, hs, i, -, -, rfl⟩ := mem_splitRows hh
    have ha : absorbedBy c.mine c.owned r.1 = false := by
      simp only [splitsRow, Bool.and_eq_true, Bool.not_eq_true'] at hs
      exact hs.1
    exact .inl ⟨r, hr, ⟨rfl, rfl, rfl, rfl⟩, .inr ⟨c.made.2 + i, by omega, rfl⟩,
      fun q hc => (keepRow_covers he ha q (c.fresh (c.made.2 + i))).1 (.inr ⟨hs, hc⟩)⟩
  · exact .inr hm

/-- The rows of the plan cover the inserted text of a tracked edit and the survivors
that the old rows covered. -/
lemma covered_out (hn : (c.changes.map (·.1.id)).Nodup) (he : c.edit.ef ≤ c.edit.et) (q : ℕ) :
    Covered c.out q ↔ (c.records = true ∧ c.edit.ef ≤ q ∧ q < c.edit.stop) ∨
      ∃ p, c.edit.Moves p q ∧ Covered c.changes p := by
  constructor
  · rintro ⟨x, hx, hc⟩
    rcases owner_before he hx with ⟨r, hr, -, -, hq⟩ | hm
    · obtain ⟨p, hm, hp⟩ := hq q hc
      exact .inr ⟨p, hm, r, hr, hp⟩
    · rcases (mine_covers hn he hm q).1 hc with hi | ⟨d, p, hd, hp, hc'⟩
      · exact .inl ⟨by rw [← mine_isSome, hm]; rfl, hi⟩
      · obtain ⟨⟨s, hs⟩, -⟩ := firstSpan_spec hd
        exact .inr ⟨p, hp, (d, s), hs, hc'⟩
  · rintro (⟨hrec, hi⟩ | ⟨p, hm, r, hr, hp⟩)
    · obtain ⟨m, hmine⟩ : ∃ m, c.mine = some m := by
        rw [← Option.isSome_iff_exists, mine_isSome, hrec]
      exact ⟨(m, .set), mem_out.2 (.inr (.inr ⟨m, hmine, rfl⟩)),
        (mine_covers hn he hmine q).2 (.inl hi)⟩
    · rcases owner_after hn he hr hm hp with ⟨-, x, hx, hq, -⟩ | ⟨-, -, m, hmine, hq⟩
      · exact ⟨x, hx, hq⟩
      · exact ⟨(m, .set), mem_out.2 (.inr (.inr ⟨m, hmine, rfl⟩)), hq⟩

end Call

end LibrePaper.Track
