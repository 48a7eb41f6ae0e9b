import LibrePaper.Comments.Paging

/-!
# What a page holds

A page of comments holds the first rows behind its cursor, and each comment on it the first of its
replies. It is never empty while rows are behind its cursor, however large they are, and it tells
whether it is the last.
-/
namespace LibrePaper.Comments
open Library List

variable {p : Position} {a b : Row}

lemma whole_nanos (h : p.created.nanos % 1000 = 0) :
    p.created.nanos.tdiv 1000 * 1000 = p.created.nanos := by
  have hdvd : (1000 : ℤ) ∣ p.created.nanos := Int.dvd_of_emod_eq_zero h
  exact Int.tdiv_mul_cancel hdvd

/-- A position in whole microseconds comes back from the wire. -/
lemma fromMicros_micros (h : p.created.nanos % 1000 = 0) :
    Position.fromMicros p.micros p.id = some p := by
  have hback := whole_nanos h
  have hlow := p.created.low
  have hhigh := p.created.high
  unfold minNanos at hlow
  unfold maxNanos at hhigh
  have hmicros : p.micros.toInt = p.created.nanos.tdiv 1000 :=
    Int64.toInt_ofInt_of_le (by omega) (by omega)
  rw [← hmicros] at hback
  unfold Position.fromMicros
  simp only [hback]
  rw [dif_pos ⟨p.created.low, p.created.high⟩]

section Cursors

variable {codec : Codec} {document : Uuid} {thread : Option Uuid} {p : Position}

lemma decode_encode (hcodec : codec.Lawful) (h : p.created.nanos % 1000 = 0) :
    decodeCursor codec (encodeCursor codec document thread p) document thread = .ok p := by
  rw [decodeCursor, encodeCursor, hcodec]
  dsimp only
  rw [if_neg (by simp), fromMicros_micros h]

lemma decode_elsewhere (hcodec : codec.Lawful) {document' : Uuid} {thread' : Option Uuid}
    (h : document ≠ document' ∨ thread ≠ thread') :
    decodeCursor codec (encodeCursor codec document thread p) document' thread' =
      .error "that pagination cursor is not for this request" := by
  rw [decodeCursor, encodeCursor, hcodec]
  dsimp only
  rw [if_pos (.inr h)]

end Cursors

lemma Row.key_eq (h : a.key = b.key) : a.id = b.id := congrArg (fun k => (ofLex k).2) h

/-- Every row is behind the first position. -/
lemma Row.start_lt (r : Row) : Position.start.key < r.key := by
  have hwhole := r.whole
  have hlater := r.later
  have hpos : 0 < r.created.nanos.tdiv 1000 := by
    rw [Int.tdiv_eq_ediv_of_nonneg hlater.le]
    omega
  exact Prod.Lex.toLex_lt_toLex.2 (.inl hpos)

/-- Where a page begins. -/
def floorOf : Option Key → WithBot Key
  | none => ⊥
  | some c => c

namespace Table

variable {t : Table} {owner : Uuid} {cursor : Option Key}

/-- A row of an owner has this key. -/
def Holds (t : Table) (owner : Uuid) (k : Key) : Prop :=
  ∃ r ∈ t.rows, r.owner = owner ∧ r.key = k

lemma eq_of_id (ha : a ∈ t.rows) (hb : b ∈ t.rows) (h : a.id = b.id) : a = b :=
  inj_on_of_nodup_map t.distinct ha hb h

lemma nodup (t : Table) : t.rows.Nodup := t.distinct.of_map

lemma all_iff (cursor : Option Key) (k : Key) :
    cursor.all (· < k) = true ↔ floorOf cursor < k := by
  cases cursor with
  | none => exact ⟨fun _ => WithBot.bot_lt_coe k, fun _ => rfl⟩
  | some c => exact decide_eq_true_iff.trans WithBot.coe_lt_coe.symm

lemma mem_behind {r : Row} : r ∈ t.behind owner cursor ↔
    r ∈ t.rows ∧ r.owner = owner ∧ floorOf cursor < r.key := by
  rw [behind, mem_sortByKey, mem_filter, decide_eq_true_iff, all_iff]

/-- Rows of a table in the order of their keys rise. -/
lemma rising_sort (p : Row → Bool) :
    (sortByKey Row.key (t.rows.filter p)).Pairwise fun a b => a.key < b.key := by
  have hnodup : (sortByKey Row.key (t.rows.filter p)).Nodup :=
    (sortByKey_perm _ _).nodup_iff.2 (t.nodup.filter p)
  refine ((sortByKey_pairwise Row.key _).and hnodup).imp_of_mem fun ha hb hab => ?_
  have hin : ∀ {r}, r ∈ sortByKey Row.key (t.rows.filter p) → r ∈ t.rows := fun hr =>
    (mem_filter.1 ((mem_sortByKey _ _ _).1 hr)).1
  exact lt_of_le_of_ne hab.1 fun heq => hab.2 (eq_of_id (hin ha) (hin hb) (Row.key_eq heq))

lemma behind_rising (t : Table) (owner : Uuid) (cursor : Option Key) :
    (t.behind owner cursor).Pairwise fun a b => a.key < b.key := rising_sort _

variable {l : List Row}

lemma sort_eq (hl : l.Pairwise fun a b => a.key < b.key) {p : Row → Bool}
    (h : ∀ r, r ∈ l ↔ r ∈ t.rows ∧ p r = true) : sortByKey Row.key (t.rows.filter p) = l := by
  refine eq_of_rising (sortByKey_pairwise Row.key _) hl ((sortByKey_perm _ _).trans ?_)
  refine (perm_ext_iff_of_nodup (t.nodup.filter p) ?_).2 fun r => ?_
  · exact hl.imp fun hab heq => absurd (heq ▸ hab) (lt_irrefl _)
  · rw [mem_filter, h]

/-- Looking rows up by their ids finds them. -/
lemma byId_eq (hl : l.Pairwise fun a b => a.key < b.key) (hsub : ∀ r ∈ l, r ∈ t.rows)
    {q : Row → Bool} (hq : ∀ r ∈ l, q r = true) :
    sortByKey Row.key (t.rows.filter fun r => q r && decide (r.id ∈ l.map Row.id)) = l := by
  refine sort_eq hl fun r => ⟨fun hr => ⟨hsub r hr, ?_⟩, fun ⟨hr, hin⟩ => ?_⟩
  · rw [hq r hr, Bool.true_and, decide_eq_true_iff]
    exact mem_map_of_mem hr
  · obtain ⟨s, hs, hid⟩ := mem_map.1 (of_decide_eq_true (Bool.and_eq_true_iff.1 hin).2)
    exact eq_of_id (hsub s hs) hr hid ▸ hs

lemma holds_iff {k : Key} : t.Holds owner k ∧ floorOf cursor < k ↔
    k ∈ (t.behind owner cursor).map Row.key := by
  rw [mem_map]
  constructor
  · rintro ⟨⟨r, hr, howner, rfl⟩, hlt⟩
    exact ⟨r, mem_behind.2 ⟨hr, howner, hlt⟩, rfl⟩
  · rintro ⟨r, hr, rfl⟩
    obtain ⟨hr, howner, hlt⟩ := mem_behind.1 hr
    exact ⟨⟨r, hr, howner, rfl⟩, hlt⟩

end Table

section Budgets

lemma spend_le (overhead : ℕ) (sizes : List ℤ) (left taken : ℕ) :
    (spend overhead left taken sizes).1 ≤ taken + sizes.length := by
  induction sizes generalizing left taken with
  | nil => exact Nat.le_refl _
  | cons size sizes ih =>
    rw [spend, length_cons]
    split_ifs
    · omega
    · exact Nat.le_add_right _ _
    · have := ih (left - (size.toNat + overhead)) (taken + 1)
      omega

lemma le_spend (overhead : ℕ) (sizes : List ℤ) (left taken : ℕ) :
    taken ≤ (spend overhead left taken sizes).1 := by
  induction sizes generalizing left taken with
  | nil => exact Nat.le_refl _
  | cons size sizes ih =>
    rw [spend]
    split_ifs
    · omega
    · exact Nat.le_refl _
    · exact (Nat.le_succ _).trans (ih _ _)

lemma admitRows_le (sizes : List ℤ) (overhead budget : ℕ) :
    (admitRows sizes overhead budget).1 ≤ sizes.length :=
  (spend_le overhead sizes budget 0).trans (Nat.zero_add _).le

/-- A page is not empty when a row is there, however large it is. -/
lemma admitRows_pos {sizes : List ℤ} (h : sizes ≠ []) (overhead budget : ℕ) :
    1 ≤ (admitRows sizes overhead budget).1 := by
  obtain ⟨size, sizes, rfl⟩ := exists_cons_of_ne_nil h
  rw [admitRows, spend]
  rw [if_pos rfl]
  split_ifs
  · exact Nat.le_refl 1
  · exact le_spend _ _ _ _

lemma affordThread_take (budget : ℕ) (rows : List Row) :
    ∃ n, (affordThread budget rows).2 = rows.take n := by
  induction rows generalizing budget with
  | nil => exact ⟨0, rfl⟩
  | cons r rows ih =>
    rw [affordThread]
    dsimp only
    split_ifs
    · exact ⟨0, rfl⟩
    · obtain ⟨n, hn⟩ := ih (budget - (r.bytes.toNat + replyOverheadBytes))
      exact ⟨n + 1, by rw [hn, take_succ_cons]⟩

variable {thread : Uuid → List Row}

lemma affordReplies_cons (thread : Uuid → List Row) (budget : ℕ) (id : Uuid) (ids : List Uuid) :
    ∃ n rest, affordReplies thread budget (id :: ids) = (thread id).take n ++ rest ∧
      (rest = [] ∨ ∃ budget', rest = affordReplies thread budget' ids) := by
  obtain ⟨n, hn⟩ := affordThread_take budget (thread id)
  rw [affordReplies]
  rw [hn]
  split_ifs
  · exact ⟨n, [], (append_nil _).symm, .inl rfl⟩
  · exact ⟨n, _, rfl, .inr ⟨_, rfl⟩⟩

variable {ids : List Uuid}

lemma mem_affordReplies {budget : ℕ} {r : Row} (h : r ∈ affordReplies thread budget ids) :
    ∃ id ∈ ids, r ∈ thread id := by
  induction ids generalizing budget with
  | nil => exact absurd h not_mem_nil
  | cons id ids ih =>
    obtain ⟨n, rest, heq, hrest⟩ := affordReplies_cons thread budget id ids
    rw [heq] at h
    rcases mem_append.1 h with h | h
    · exact ⟨id, mem_cons_self, mem_of_mem_take h⟩
    · rcases hrest with rfl | ⟨budget', rfl⟩
      · exact absurd h not_mem_nil
      · obtain ⟨id', hid, hr⟩ := ih h
        exact ⟨id', mem_cons_of_mem id hid, hr⟩

/-- Of each thread the first replies are afforded. -/
lemma filter_affordReplies (hown : ∀ id, ∀ r ∈ thread id, r.owner = id) (budget : ℕ)
    (hids : ids.Nodup) (id : Uuid) :
    ∃ n, (affordReplies thread budget ids).filter (fun r => r.owner = id) = (thread id).take n := by
  induction ids generalizing budget with
  | nil => exact ⟨0, rfl⟩
  | cons first ids ih =>
    obtain ⟨hfirst, hids⟩ := nodup_cons.1 hids
    obtain ⟨n, rest, heq, hrest⟩ := affordReplies_cons thread budget first ids
    rw [heq, filter_append]
    by_cases hid : first = id
    · subst hid
      have hall : ((thread first).take n).filter (fun r => r.owner = first) =
          (thread first).take n :=
        filter_eq_self.2 fun r hr =>
          decide_eq_true (hown first r (mem_of_mem_take hr))
      have hnone : rest.filter (fun r => r.owner = first) = [] := by
        refine filter_eq_nil_iff.2 fun r hr hrow => ?_
        rcases hrest with rfl | ⟨budget', rfl⟩
        · exact absurd hr not_mem_nil
        · obtain ⟨id', hid', hr⟩ := mem_affordReplies hr
          exact hfirst ((hown id' r hr).symm.trans (of_decide_eq_true hrow) ▸ hid')
      exact ⟨n, by rw [hall, hnone, append_nil]⟩
    · have hnone : ((thread first).take n).filter (fun r => r.owner = id) = [] :=
        filter_eq_nil_iff.2 fun r hr hrow =>
          hid ((hown first r (mem_of_mem_take hr)).symm.trans (of_decide_eq_true hrow))
      rw [hnone, nil_append]
      rcases hrest with rfl | ⟨budget', rfl⟩
      · exact ⟨0, rfl⟩
      · exact ih budget' hids

lemma length_affordReplies (most : ℕ) (hmost : ∀ id, (thread id).length ≤ most) (budget : ℕ)
    (ids : List Uuid) : (affordReplies thread budget ids).length ≤ ids.length * most := by
  induction ids generalizing budget with
  | nil => exact Nat.zero_le _
  | cons id ids ih =>
    obtain ⟨n, rest, heq, hrest⟩ := affordReplies_cons thread budget id ids
    have hthread := (length_take_le' n (thread id)).trans (hmost id)
    have hlength : rest.length ≤ ids.length * most := by
      rcases hrest with rfl | ⟨budget', rfl⟩
      · exact Nat.zero_le _
      · exact ih budget'
    rw [heq, length_append, length_cons, Nat.succ_mul]
    omega

end Budgets

section Pages

variable {codec : Codec} {budget : ℕ} {db : Database} {document : Uuid}

lemma clampLimit_spec (limit most : ℕ) (h : 1 ≤ most) :
    1 ≤ clampLimit limit most ∧ clampLimit limit most ≤ most := by
  unfold clampLimit
  omega

/-- The replies of a comment, and what its page tells of them. -/
structure Previews (codec : Codec) (db : Database) (document : Uuid) (c : Comment) : Prop where
  replies : ∃ n, c.replies = (db.replies.behind c.row.id none).take n
  total : c.replyTotal = (db.replies.behind c.row.id none).length
  cursor : c.replyCursor = if c.replies.length < c.replyTotal then
    some (encodeCursor codec document (some c.row.id)
      ((c.replies.getLast?.map Row.position).getD Position.start)) else none

lemma length_behind (t : Table) (owner : Uuid) :
    (t.behind owner none).length = (t.rows.filter fun r => r.owner = owner).length := by
  rw [Table.behind, (sortByKey_perm _ _).length_eq]
  refine congrArg length (filter_congr fun r _ => ?_)
  exact decide_eq_decide.2 (and_iff_left rfl)

variable {ids : List Uuid} {id : Uuid} {cursor : Option Key} {sizes : List Row}

/-- A thread's summary counts its replies. -/
lemma summary_total {summaries : List ReplySummary} (h : replySummaries db ids = .ok summaries)
    (hid : id ∈ ids) :
    ((summaries.find? fun s => s.annotation = id).map ReplySummary.replies).getD 0 =
      (db.replies.behind id none).length := by
  have hne : ids ≠ [] := ne_nil_of_mem hid
  unfold replySummaries at h
  rw [if_neg hne] at h
  split at h
  next => cases h
  next =>
    cases h
    have hsame : ((db.replies.rows.filter fun r => r.owner ∈ ids).filter fun r => r.owner = id) =
        db.replies.rows.filter fun r => r.owner = id := by
      rw [filter_filter]
      refine filter_congr fun r _ => ?_
      by_cases howner : r.owner = id
      · simp [howner, hid]
      · simp [howner]
    rw [length_behind]
    rw [find?_map]
    cases hfind : find? ((fun s => decide (s.annotation = id)) ∘ summaryOf
        (db.replies.rows.filter fun r => r.owner ∈ ids))
        (((db.replies.rows.filter fun r => r.owner ∈ ids).map Row.owner).dedup) with
    | none =>
      refine (length_eq_zero_iff.2 (filter_eq_nil_iff.2 fun r hr howner => ?_)).symm
      have howner := of_decide_eq_true howner
      refine find?_eq_none.1 hfind id (mem_dedup.2 (mem_map.2 ⟨r, ?_, howner⟩)) (decide_eq_true rfl)
      exact mem_filter.2 ⟨hr, decide_eq_true (howner ▸ hid)⟩
    | some found =>
      have hfound :
          ReplySummary.annotation (summaryOf (db.replies.rows.filter fun r => r.owner ∈ ids) found) =
          id := by simpa using find?_some hfind
      obtain rfl : found = id := hfound
      change (filter _ _).length = _
      rw [hsame]

lemma flatMap_single {f : Uuid → List Row} (hids : ids.Nodup) (hid : id ∈ ids)
    (h : ∀ i ∈ ids, i ≠ id → f i = []) : ids.flatMap f = f id := by
  obtain ⟨first, last, rfl⟩ := append_of_mem hid
  obtain ⟨-, hlast, hapart⟩ := nodup_append.1 hids
  have hnone : ∀ i ∈ first, f i = [] := fun i hi =>
    h i (mem_append_left _ hi) (hapart i hi id mem_cons_self)
  have hnone' : ∀ i ∈ last, f i = [] := fun i hi =>
    h i (mem_append_right _ (mem_cons_of_mem id hi)) fun heq => (nodup_cons.1 hlast).1 (heq ▸ hi)
  rw [flatMap_append, flatMap_cons, flatMap_eq_nil_iff.2 hnone,
    flatMap_eq_nil_iff.2 hnone', nil_append, append_nil]

lemma behind_owner {t : Table} {owner : Uuid} {r : Row} (h : r ∈ t.behind owner cursor) :
    r.owner = owner := (Table.mem_behind.1 h).2.1

/-- The rows that were sized for one thread. -/
lemma preview_thread (hids : ids.Nodup) (hid : id ∈ ids) (n : ℕ) :
    (sortByKey Row.key (ids.flatMap fun i => (db.replies.behind i none).take n)).filter
        (fun r => r.owner = id) = (db.replies.behind id none).take n := by
  have hrising := (db.replies.behind_rising id none).sublist (take_sublist n _)
  refine eq_of_rising ((sortByKey_pairwise Row.key _).filter _) hrising ?_
  refine ((sortByKey_perm _ _).filter _).trans (Perm.of_eq ?_)
  rw [filter_flatMap, flatMap_single hids hid fun i _ hne => ?_]
  · refine filter_eq_self.2 fun r hr => ?_
    exact decide_eq_true (behind_owner (mem_of_mem_take hr))
  · refine filter_eq_nil_iff.2 fun r hr howner => ?_
    exact hne ((behind_owner (mem_of_mem_take hr)).symm.trans (of_decide_eq_true howner))

/-- The replies that were loaded for one thread are its first ones. -/
lemma loaded_thread (hids : ids.Nodup) (hid : id ∈ ids) {wanted loaded : List Row} {left : ℕ}
    (hwanted : wanted = affordReplies (fun id => (sortByKey Row.key (ids.flatMap fun i =>
      (db.replies.behind i none).take replyPreview)).filter fun r => r.owner = id) left ids)
    (hloaded : repliesById db (wanted.map Row.id) = .ok loaded) :
    ∃ n, loaded.filter (fun r => r.owner = id) = (db.replies.behind id none).take n := by
  have hown : ∀ id, ∀ r ∈ (sortByKey Row.key (ids.flatMap fun i =>
      (db.replies.behind i none).take replyPreview)).filter (fun r => r.owner = id),
      r.owner = id := fun id r hr => of_decide_eq_true (mem_filter.1 hr).2
  obtain ⟨n, hn⟩ := filter_affordReplies hown left hids id
  rw [← hwanted, preview_thread hids hid] at hn
  have hrows : ∀ r ∈ wanted, r ∈ db.replies.rows := by
    intro r hr
    rw [hwanted] at hr
    obtain ⟨i, -, hr⟩ := mem_affordReplies hr
    obtain ⟨j, -, hr⟩ := mem_flatMap.1 ((mem_sortByKey _ _ _).1 (mem_filter.1 hr).1)
    exact (Table.mem_behind.1 (mem_of_mem_take hr)).1
  have hrising : (((db.replies.behind id none).take replyPreview).take n).Pairwise
      fun a b => a.key < b.key :=
    ((db.replies.behind_rising id none).sublist (take_sublist _ _)).sublist (take_sublist n _)
  refine ⟨min n replyPreview, ?_⟩
  rw [← take_take]
  unfold repliesById at hloaded
  split at hloaded
  next hnil =>
    cases hloaded
    rw [← hn, map_eq_nil_iff.1 hnil]
  next =>
    split at hloaded
    next => cases hloaded
    next =>
      cases hloaded
      refine eq_of_rising ((sortByKey_pairwise Row.key _).filter _) hrising ?_
      refine ((sortByKey_perm _ _).filter _).trans ?_
      refine (perm_ext_iff_of_nodup ((db.replies.nodup.filter _).filter _) ?_).2 fun r => ?_
      · exact hrising.imp fun hab heq => absurd (heq ▸ hab) (lt_irrefl _)
      · rw [← hn, mem_filter, mem_filter, mem_filter]
        refine and_congr_left fun _ => ⟨fun ⟨hr, hin⟩ => ?_, fun hr => ⟨hrows r hr, ?_⟩⟩
        · obtain ⟨s, hs, hsid⟩ := mem_map.1 (of_decide_eq_true hin)
          exact Table.eq_of_id (hrows s hs) hr hsid ▸ hs
        · exact decide_eq_true (mem_map_of_mem hr)

lemma annotationsById_ok {l : List Row}
    (hl : Sublist l (db.annotations.behind document cursor))
    (hmost : l.length ≤ annotationPageMax) :
    annotationsById db document (l.map Row.id) = .ok l := by
  unfold annotationsById
  split
  next hnil => rw [map_eq_nil_iff.1 hnil]
  next =>
    rw [if_neg (by rw [length_map]; exact Nat.not_lt.2 hmost)]
    have hrows : ∀ r ∈ l, r ∈ db.annotations.rows ∧ r.owner = document := fun r hr =>
      ⟨(Table.mem_behind.1 (hl.subset hr)).1, behind_owner (hl.subset hr)⟩
    refine congrArg Except.ok ((congrArg (sortByKey Row.key)
      (filter_congr fun r _ => Bool.decide_and _ _)).trans (Table.byId_eq
        ((db.annotations.behind_rising document cursor).sublist hl) (fun r hr => (hrows r hr).1)
          fun r hr => decide_eq_true (hrows r hr).2))

lemma replySummaries_ok (db : Database) (h : ids.length ≤ annotationPageMax) :
    ∃ summaries, replySummaries db ids = .ok summaries := by
  unfold replySummaries
  split
  · exact ⟨_, rfl⟩
  · rw [if_neg (Nat.not_lt.2 h)]
    exact ⟨_, rfl⟩

lemma repliesById_ok (db : Database) (h : ids.length ≤ replyLookupMax) :
    ∃ loaded, repliesById db ids = .ok loaded := by
  unfold repliesById
  split
  · exact ⟨_, rfl⟩
  · rw [if_neg (Nat.not_lt.2 h)]
    exact ⟨_, rfl⟩

/-- A page loads the first of its rows, and previews their replies. -/
lemma loadPage_spec (codec : Codec) (budget : ℕ)
    (hsizes : Sublist sizes (db.annotations.behind document cursor)) (hne : sizes ≠ [])
    (hmost : sizes.length ≤ commentPageMax) (moreRows : Bool) :
    ∃ p k, loadPage codec budget db document sizes moreRows = .ok p ∧ 1 ≤ k ∧ k ≤ sizes.length ∧
      p.comments.map Comment.row = sizes.take k ∧
      p.complete = (!moreRows && decide (k = sizes.length)) ∧
      p.next = (if p.complete then none else (sizes.take k).getLast?.map Row.position) ∧
      ∀ c ∈ p.comments, Previews codec db document c := by
  obtain ⟨admitted, hadmitted⟩ : ∃ admitted,
      admitRows (sizes.map Row.bytes) rowOverheadBytes budget = admitted := ⟨_, rfl⟩
  have hpos : 1 ≤ admitted.1 := by
    rw [← hadmitted]
    exact admitRows_pos (fun hnil => hne (map_eq_nil_iff.1 hnil)) _ _
  have hle : admitted.1 ≤ sizes.length := by
    rw [← hadmitted]
    exact (admitRows_le _ _ _).trans (length_map _).le
  have hlength : (sizes.take admitted.1).length ≤ commentPageMax :=
    (length_take_le' _ _).trans hmost
  have hmax : commentPageMax ≤ annotationPageMax := by decide
  have hsub := (take_sublist admitted.1 sizes).trans hsizes
  have hrows := annotationsById_ok hsub (hlength.trans hmax)
  have hids : ((sizes.take admitted.1).map Row.id).Nodup := by
    refine pairwise_map.2 (((db.annotations.behind_rising document cursor).sublist
      hsub).imp_of_mem fun ha hb hab heq => ?_)
    have hrow := Table.eq_of_id (Table.mem_behind.1 (hsub.subset ha)).1
      (Table.mem_behind.1 (hsub.subset hb)).1 heq
    exact absurd (hrow ▸ hab) (lt_irrefl _)
  have hlengths : ((sizes.take admitted.1).map Row.id).length ≤ commentPageMax :=
    (length_map _).le.trans hlength
  obtain ⟨summaries, hsummaries⟩ := replySummaries_ok db (hlengths.trans hmax)
  have hsome : (sizes.take admitted.1).map Row.id ≠ [] := by
    intro hnil
    rw [map_eq_nil_iff, take_eq_nil_iff] at hnil
    rcases hnil with hzero | hnil
    · omega
    · exact hne hnil
  have hpreviews : replyPreviewSizes db ((sizes.take admitted.1).map Row.id) replyPreview =
      .ok (((sizes.take admitted.1).map Row.id).flatMap fun id =>
        (db.replies.behind id none).take replyPreview) := by
    unfold replyPreviewSizes
    rw [if_neg (not_or.2 ⟨hsome, by decide⟩), if_neg (not_or.2
      ⟨Nat.not_lt.2 (hlengths.trans hmax), not_not.2 (by decide)⟩)]
  obtain ⟨wanted, hwanted⟩ : ∃ wanted, wanted = affordReplies (fun id =>
      (sortByKey Row.key (((sizes.take admitted.1).map Row.id).flatMap fun i =>
        (db.replies.behind i none).take replyPreview)).filter fun r => r.owner = id)
      (budget - ((sizes.take admitted.1).map fun r => r.bytes.toNat + rowOverheadBytes).sum)
      ((sizes.take admitted.1).map Row.id) := ⟨_, rfl⟩
  have hfew : (wanted.map Row.id).length ≤ replyLookupMax := by
    rw [length_map, hwanted]
    refine (length_affordReplies replyPreview (fun id => ?_) _ _).trans
      ((Nat.mul_le_mul_right _ hlengths).trans (by decide))
    by_cases hid : id ∈ (sizes.take admitted.1).map Row.id
    · rw [preview_thread hids hid]
      exact length_take_le _ _
    · rw [filter_eq_nil_iff.2 fun r hr howner => ?_]
      · exact Nat.zero_le _
      · obtain ⟨j, hj, hr⟩ := mem_flatMap.1 ((mem_sortByKey _ _ _).1 hr)
        have hrow := behind_owner (mem_of_mem_take hr)
        exact hid (hrow.symm.trans (of_decide_eq_true howner) ▸ hj)
  obtain ⟨loaded, hloaded⟩ := repliesById_ok db hfew
  refine ⟨⟨(sizes.take admitted.1).map (previewed codec document summaries loaded),
    if !moreRows && decide (admitted.1 = sizes.length) then none else
      ((sizes.take admitted.1).getLast?.or (sizes.take admitted.1).getLast?).map Row.position,
    !moreRows && decide (admitted.1 = sizes.length), admitted.2⟩, admitted.1, ?_, hpos, hle, ?_,
    rfl, ?_, fun c hc => ?_⟩
  · unfold loadPage
    dsimp only [bind, Except.bind]
    rw [hadmitted, hrows]
    dsimp only
    rw [hsummaries, hpreviews]
    dsimp only
    rw [← hwanted, hloaded]
    rfl
  · exact (map_map).trans (map_id _)
  · rw [Option.or_self]
  · obtain ⟨row, hrow, rfl⟩ := mem_map.1 hc
    have hid : row.id ∈ (sizes.take admitted.1).map Row.id := mem_map_of_mem hrow
    exact ⟨loaded_thread hids hid hwanted hloaded, summary_total hsummaries hid, rfl⟩

/-- A page of replies loads the first of its rows. -/
lemma loadThread_spec (budget : ℕ) {comment : Uuid}
    (hsizes : Sublist sizes (db.replies.behind comment cursor)) (hne : sizes ≠ [])
    (hmost : sizes.length ≤ threadPageMax) (moreRows : Bool) (total : ℕ) :
    ∃ p k, loadThread budget db sizes moreRows total = .ok p ∧ 1 ≤ k ∧ k ≤ sizes.length ∧
      p.replies = sizes.take k ∧ p.complete = (!moreRows && decide (k = sizes.length)) ∧
      p.next = (if p.complete then none else (sizes.take k).getLast?.map Row.position) := by
  obtain ⟨admitted, hadmitted⟩ : ∃ admitted,
      admitRows (sizes.map Row.bytes) replyOverheadBytes budget = admitted := ⟨_, rfl⟩
  have hpos : 1 ≤ admitted.1 := by
    rw [← hadmitted]
    exact admitRows_pos (fun hnil => hne (map_eq_nil_iff.1 hnil)) _ _
  have hle : admitted.1 ≤ sizes.length := by
    rw [← hadmitted]
    exact (admitRows_le _ _ _).trans (length_map _).le
  have hmax : threadPageMax ≤ replyLookupMax := by decide
  have hsub := (take_sublist admitted.1 sizes).trans hsizes
  have hrows : repliesById db ((sizes.take admitted.1).map Row.id) =
      .ok (sizes.take admitted.1) := by
    unfold repliesById
    split
    next hnil => rw [map_eq_nil_iff.1 hnil]
    next =>
      rw [if_neg (by
        rw [length_map]
        exact Nat.not_lt.2 ((length_take_le' _ _).trans (hmost.trans hmax)))]
      refine congrArg Except.ok ?_
      have hfound := Table.byId_eq (t := db.replies) (q := fun _ => true)
        ((db.replies.behind_rising comment cursor).sublist hsub)
        (fun r hr => (Table.mem_behind.1 (hsub.subset hr)).1) fun _ _ => rfl
      simpa using hfound
  have hlast : sizes[admitted.1 - 1]? = (sizes.take admitted.1).getLast? := by
    rw [getLast?_eq_getElem?, length_take, min_eq_left hle, getElem?_take,
      if_pos (by omega)]
  refine ⟨⟨sizes.take admitted.1, if !moreRows && decide (admitted.1 = sizes.length) then none
    else (sizes.take admitted.1).getLast?.map Row.position,
    !moreRows && decide (admitted.1 = sizes.length), total, admitted.2⟩, admitted.1, ?_, hpos, hle,
    rfl, rfl, rfl⟩
  unfold loadThread
  dsimp only [bind, Except.bind]
  rw [hadmitted, hrows, hlast]
  rfl

/-- One row more than a page tells whether it is the last. -/
lemma sized_spec {rows : List Row} {limit k : ℕ} (hk : k ≤ (rows.take limit).length) :
    (rows.take limit).take k = rows.take k ∧
      ((!decide ((rows.take (limit + 1)).length > limit) &&
        decide (k = (rows.take limit).length)) = true ↔ rows.length ≤ k) := by
  rw [length_take] at hk
  refine ⟨?_, ?_⟩
  · rw [take_take, min_eq_left (hk.trans (min_le_left _ _))]
  · rw [Bool.and_eq_true_iff, Bool.not_eq_true', decide_eq_false_iff_not, decide_eq_true_iff,
      length_take, length_take]
    omega

lemma page_spec (codec : Codec) (budget : ℕ) (db : Database) (document : Uuid)
    (after : Option Position) (limit : ℕ) :
    ∃ p k, page codec budget db document after limit = .ok p ∧
      p.comments.map Comment.row =
        (db.annotations.behind document (after.map Position.key)).take k ∧
      (p.complete = true ↔ (db.annotations.behind document (after.map Position.key)).length ≤ k) ∧
      (p.complete = false → 1 ≤ k) ∧
      p.next = (if p.complete then none else
        ((db.annotations.behind document (after.map Position.key)).take k).getLast?.map
          Row.position) ∧
      ∀ c ∈ p.comments, Previews codec db document c := by
  obtain ⟨hlow, hhigh⟩ := clampLimit_spec limit commentPageMax (by decide)
  obtain ⟨most, hclamp⟩ : ∃ most, clampLimit limit commentPageMax = most := ⟨_, rfl⟩
  obtain ⟨rows, hbehind⟩ : ∃ rows, db.annotations.behind document (after.map Position.key) = rows :=
    ⟨_, rfl⟩
  rw [hclamp] at hlow hhigh
  have hmax : commentPageMax + 1 ≤ annotationPageMax := by decide
  have hfound : annotationSizes db document (after.map Position.key) (most + 1) =
      .ok (rows.take (most + 1)) := by
    unfold annotationSizes sizesBehind
    rw [if_pos ⟨by omega, by omega⟩, hbehind]
  have htake : (rows.take (most + 1)).take most = rows.take most := by
    rw [take_take, min_eq_left (Nat.le_succ most)]
  unfold page
  dsimp only [bind, Except.bind]
  rw [hclamp, hfound, hbehind]
  dsimp only
  rw [htake]
  by_cases hnil : rows.take most = []
  · rw [if_pos hnil]
    have hrows : rows = [] := (take_eq_nil_iff.1 hnil).resolve_left (by omega)
    refine ⟨_, 0, rfl, rfl, ⟨fun _ => by rw [hrows]; exact Nat.le_refl 0, fun _ => rfl⟩,
      Bool.noConfusion, rfl, fun c hc => absurd hc not_mem_nil⟩
  · rw [if_neg hnil]
    have hsub : Sublist (rows.take most)
        (db.annotations.behind document (after.map Position.key)) :=
      hbehind ▸ take_sublist most rows
    obtain ⟨p, k, hp, hpos, hle, hrows, hcomplete, hnext, hprevious⟩ := loadPage_spec codec budget
      hsub hnil ((length_take_le _ _).trans hhigh)
      (decide ((rows.take (most + 1)).length > most))
    obtain ⟨htook, hlast⟩ := sized_spec hle
    rw [htook] at hrows hnext
    exact ⟨p, k, hp, hrows, by rw [hcomplete]; exact hlast, fun _ => hpos, hnext, hprevious⟩

lemma threadPage_spec (budget : ℕ) (db : Database) (comment : Uuid) (after : Option Position)
    (limit : ℕ) :
    ∃ p k, threadPage budget db comment after limit = .ok p ∧
      p.replies = (db.replies.behind comment (after.map Position.key)).take k ∧
      (p.complete = true ↔ (db.replies.behind comment (after.map Position.key)).length ≤ k) ∧
      (p.complete = false → 1 ≤ k) ∧
      p.next = (if p.complete then none else
        ((db.replies.behind comment (after.map Position.key)).take k).getLast?.map
          Row.position) := by
  obtain ⟨hlow, hhigh⟩ := clampLimit_spec limit threadPageMax (by decide)
  obtain ⟨most, hclamp⟩ : ∃ most, clampLimit limit threadPageMax = most := ⟨_, rfl⟩
  obtain ⟨rows, hbehind⟩ : ∃ rows, db.replies.behind comment (after.map Position.key) = rows :=
    ⟨_, rfl⟩
  rw [hclamp] at hlow hhigh
  have hmax : threadPageMax + 1 ≤ replyPageMax := by decide
  have hfound : threadReplySizes db comment (after.map Position.key) (most + 1) =
      .ok (rows.take (most + 1)) := by
    unfold threadReplySizes sizesBehind
    rw [if_pos ⟨by omega, by omega⟩, hbehind]
  have htake : (rows.take (most + 1)).take most = rows.take most := by
    rw [take_take, min_eq_left (Nat.le_succ most)]
  have hone : [comment].length ≤ annotationPageMax := by
    change 1 ≤ annotationPageMax
    decide
  obtain ⟨summaries, hsummaries⟩ := replySummaries_ok db hone
  unfold threadPage
  dsimp only [bind, Except.bind]
  rw [hclamp, hsummaries, hfound, hbehind]
  dsimp only
  rw [htake]
  by_cases hnil : rows.take most = []
  · rw [if_pos hnil]
    have hrows : rows = [] := (take_eq_nil_iff.1 hnil).resolve_left (by omega)
    exact ⟨_, 0, rfl, rfl, ⟨fun _ => by rw [hrows]; exact Nat.le_refl 0, fun _ => rfl⟩,
      Bool.noConfusion, rfl⟩
  · rw [if_neg hnil]
    have hsub : Sublist (rows.take most)
        (db.replies.behind comment (after.map Position.key)) :=
      hbehind ▸ take_sublist most rows
    obtain ⟨p, k, hp, hpos, hle, hrows, hcomplete, hnext⟩ := loadThread_spec budget hsub hnil
      ((length_take_le _ _).trans hhigh) (decide ((rows.take (most + 1)).length > most))
      ((summaries.head?.map ReplySummary.replies).getD 0)
    obtain ⟨htook, hlast⟩ := sized_spec hle
    rw [htook] at hrows hnext
    exact ⟨p, k, hp, hrows, by rw [hcomplete]; exact hlast, fun _ => hpos, hnext⟩

end Pages

end LibrePaper.Comments
