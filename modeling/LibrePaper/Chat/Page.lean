import LibrePaper.Library.Newest

/-!
# Pages of chat

Messages are stored, or wait in a room's buffer, or both. A page is read from the store and merged with
the buffer.
-/
namespace LibrePaper.Chat
open Library List

/-- A message. Ids are in the order that they were minted in. -/
structure ChatRecord where
  id : ℕ
  authorAccountId : Option ℕ
  authorLabel : String
  body : String
  createdAt : ℤ
deriving DecidableEq

/-- Older than the position that was asked for. -/
def older (before : Option ℕ) (r : ChatRecord) : Bool :=
  match before with
  | none => true
  | some before => r.id < before

/-- Up to `limit` stored messages, oldest first, and whether there are older ones. -/
def chatPage (stored : List ChatRecord) (before : Option ℕ) (limit : ℤ) :
    List ChatRecord × Bool :=
  let limit := limit.toNat
  let rows := ((stored.filter (older before)).insertionSort fun a b => b.id ≤ a.id).take (limit + 1)
  ((rows.take limit).reverse, limit < rows.length)

/-- Keeps the first of neighbours with one id. -/
def dedupById (rows : List ChatRecord) : List ChatRecord :=
  rows.foldr (fun a acc => match acc with
    | b :: rest => if a.id = b.id then a :: rest else a :: b :: rest
    | [] => [a]) []

/-- Merges stored messages with buffered ones into the newest `limit`, oldest first. -/
def mergePage (stored : List ChatRecord) (storedMore : Bool) (buffered : List ChatRecord)
    (before : Option ℕ) (limit : ℕ) : List ChatRecord × Bool :=
  let rows := dedupById
    ((stored ++ buffered.filter (older before)).insertionSort fun a b => a.id ≤ b.id)
  let dropped := rows.length - limit
  (rows.drop dropped, storedMore || 0 < dropped)

def pageLocked (stored buffered : List ChatRecord) (before : Option ℕ) (limit : ℤ) :
    List ChatRecord × Bool :=
  let (rows, more) := chatPage stored before limit
  mergePage rows more buffered before limit.toNat

/-- The ids of the messages older than a position. -/
def idsOlder (rows : List ChatRecord) (before : Option ℕ) : Finset ℕ :=
  ((rows.filter (older before)).map ChatRecord.id).toFinset

variable {rows stored : List ChatRecord}

lemma mem_idsOlder {before : Option ℕ} {i : ℕ} :
    i ∈ idsOlder rows before ↔ ∃ r ∈ rows, older before r ∧ r.id = i := by
  unfold idsOlder
  rw [mem_toFinset, mem_map]
  simp only [mem_filter, and_assoc]

lemma dedupById_cons (a : ChatRecord) (rows : List ChatRecord) :
    dedupById (a :: rows) = match dedupById rows with
      | b :: rest => if a.id = b.id then a :: rest else a :: b :: rest
      | [] => [a] := rfl

/-- Of messages in order every id is kept once. -/
lemma dedupById_spec (h : (rows.map ChatRecord.id).Pairwise (· ≤ ·)) :
    ((dedupById rows).map ChatRecord.id).Pairwise (· < ·) ∧
      (∀ i, i ∈ (dedupById rows).map ChatRecord.id ↔ i ∈ rows.map ChatRecord.id) ∧
      ∀ r ∈ dedupById rows, r ∈ rows := by
  induction rows with
  | nil => exact ⟨Pairwise.nil, fun _ => Iff.rfl, fun _ h => h⟩
  | cons a rows ih =>
    rw [map_cons, pairwise_cons] at h
    obtain ⟨hsorted, hids, hrows⟩ := ih h.2
    rw [dedupById_cons]
    cases hd : dedupById rows with
    | nil =>
      rw [hd] at hids
      refine ⟨pairwise_singleton _ _, fun i => ?_, fun r hr => ?_⟩
      · rw [map_cons, map_cons, mem_cons, mem_cons, hids]
      · rw [mem_singleton.1 hr]
        exact mem_cons_self ..
    | cons b rest =>
      rw [hd] at hsorted hids hrows
      have hb : b.id ∈ rows.map ChatRecord.id := mem_map_of_mem (hrows b (mem_cons_self ..))
      simp only
      by_cases hsame : a.id = b.id
      · rw [if_pos hsame]
        refine ⟨?_, fun i => ?_, fun r hr => ?_⟩
        · rw [map_cons, hsame]
          exact hsorted
        · rw [map_cons, map_cons, mem_cons, mem_cons, ← hids, map_cons,
            mem_cons, ← hsame]
          tauto
        · rw [mem_cons] at hr ⊢
          exact hr.imp_right fun hr => hrows r (mem_cons_of_mem _ hr)
      · rw [if_neg hsame]
        refine ⟨?_, fun i => ?_, fun r hr => ?_⟩
        · rw [map_cons, pairwise_cons]
          refine ⟨fun i hi => ?_, hsorted⟩
          have hlt : a.id < b.id := lt_of_le_of_ne (h.1 _ hb) hsame
          rw [map_cons, mem_cons] at hi
          obtain rfl | hi := hi
          · exact hlt
          · rw [map_cons, pairwise_cons] at hsorted
            exact hlt.trans (hsorted.1 i hi)
        · rw [map_cons, mem_cons, hids, map_cons, mem_cons]
        · rw [mem_cons] at hr ⊢
          exact hr.imp_right (hrows r)

/-- A page of the store: the newest of it, and whether there is more. -/
lemma chatPage_spec (hnodup : (stored.map ChatRecord.id).Nodup) (before : Option ℕ) (limit : ℤ) :
    IsNewest limit.toNat (idsOlder stored before)
        ((chatPage stored before limit).1.map ChatRecord.id) ∧
      (∀ r ∈ (chatPage stored before limit).1, r ∈ stored ∧ older before r) ∧
      ((chatPage stored before limit).2 = true ↔ limit.toNat < (idsOlder stored before).card) := by
  generalize hsorted : (stored.filter (older before)).insertionSort
    (fun a b : ChatRecord => b.id ≤ a.id) = rows
  have hperm : rows.Perm (stored.filter (older before)) := hsorted ▸ perm_insertionSort _ _
  have hids : idsOlder stored before = (rows.map ChatRecord.id).toFinset := by
    unfold idsOlder
    exact (toFinset_eq_of_perm _ _ (hperm.map _)).symm
  have hdistinct : (rows.map ChatRecord.id).Nodup := by
    rw [(hperm.map _).nodup_iff]
    exact hnodup.sublist (filter_sublist.map _)
  have horder : (rows.map ChatRecord.id).Pairwise (· > ·) := by
    have hge : (rows.map ChatRecord.id).Pairwise (· ≥ ·) :=
      pairwise_map.2 (hsorted ▸ pairwise_insertionSort _ _)
    exact hge.imp₂ (fun _ _ h hne => lt_of_le_of_ne h (Ne.symm hne)) hdistinct
  have hpage : chatPage stored before limit =
      ((rows.take limit.toNat).reverse, decide (limit.toNat < (rows.take (limit.toNat + 1)).length)) := by
    unfold chatPage
    simp only
    rw [hsorted, take_take, min_eq_left (Nat.le_succ _)]
  rw [hpage, hids]
  refine ⟨?_, fun r hr => ?_, ?_⟩
  · rw [map_reverse, map_take]
    exact isNewest_take_reverse horder _
  · have hmem := hperm.mem_iff.1 (mem_of_mem_take (mem_reverse.1 hr))
    exact ⟨mem_of_mem_filter hmem, of_mem_filter hmem⟩
  · rw [toFinset_card_of_nodup hdistinct, length_map, decide_eq_true_iff,
      length_take]
    omega

lemma sorted_ids (rows : List ChatRecord) :
    ((rows.insertionSort fun a b => a.id ≤ b.id).map ChatRecord.id).Pairwise (· ≤ ·) :=
  pairwise_map.2 (pairwise_insertionSort _ _)

/-- What a merged page has: the newest of what is stored or waits, each once, and whether there is
more. -/
lemma page_is_newest (hnodup : (stored.map ChatRecord.id).Nodup) (buffered : List ChatRecord)
    (before : Option ℕ) (limit : ℤ) : let all := idsOlder stored before ∪ idsOlder buffered before
    let page := pageLocked stored buffered before limit
    IsNewest limit.toNat all (page.1.map ChatRecord.id) ∧
      (∀ r ∈ page.1, r ∈ stored ∨ r ∈ buffered) ∧
      (page.2 = true ↔ ∃ i ∈ all, i ∉ page.1.map ChatRecord.id) := by
  intro all page
  obtain ⟨hstored, hrows, hmore⟩ := chatPage_spec hnodup before limit
  generalize hread : chatPage stored before limit = read at hstored hrows hmore
  generalize hmerged : (read.1 ++ buffered.filter (older before)).insertionSort
    (fun a b : ChatRecord => a.id ≤ b.id) = merged
  have hperm : merged.Perm (read.1 ++ buffered.filter (older before)) :=
    hmerged ▸ perm_insertionSort _ _
  obtain ⟨hsorted, hids, hsub⟩ := dedupById_spec (hmerged ▸ sorted_ids _)
  have hpage : page = ((dedupById merged).drop ((dedupById merged).length - limit.toNat),
      read.2 || decide (0 < (dedupById merged).length - limit.toNat)) := by
    show pageLocked stored buffered before limit = _
    unfold pageLocked mergePage
    rw [hread]
    simp only
    rw [hmerged]
  have hmem : ∀ i, i ∈ (dedupById merged).map ChatRecord.id ↔
      i ∈ read.1.map ChatRecord.id ∨ i ∈ idsOlder buffered before := by
    intro i
    rw [hids, (hperm.map _).mem_iff, map_append, mem_append]
    unfold idsOlder
    rw [mem_toFinset]
  have hnewest : IsNewest limit.toNat all (page.1.map ChatRecord.id) := by
    have hlength : ((dedupById merged).map ChatRecord.id).length = (dedupById merged).length :=
      length_map _
    rw [hpage, map_drop, ← hlength]
    exact hstored.merge hsorted hmem
  refine ⟨hnewest, fun r hr => ?_, ?_⟩
  · rw [hpage] at hr
    have hr := hperm.mem_iff.1 (hsub r (mem_of_mem_drop hr))
    rw [mem_append] at hr
    exact hr.imp (fun h => (hrows r h).1) mem_of_mem_filter
  · have hcard : ((dedupById merged).map ChatRecord.id).toFinset.card =
        (dedupById merged).length := by
      rw [toFinset_card_of_nodup (hsorted.imp ne_of_lt), length_map]
    have hin : ((dedupById merged).map ChatRecord.id).toFinset ⊆ all := by
      intro i hi
      rw [Finset.mem_union]
      exact ((hmem i).1 (mem_toFinset.1 hi)).imp (hstored.sub i) id
    have hle := Finset.card_le_card hin
    have hlarger : (idsOlder stored before).card ≤ all.card :=
      Finset.card_le_card Finset.subset_union_left
    rw [hnewest.exists_left_out_iff, hpage, Bool.or_eq_true, decide_eq_true_iff, hmore]
    constructor
    · rintro (hread | hdropped) <;> omega
    · intro hall
      by_cases hread : limit.toNat < (idsOlder stored before).card
      · exact .inl hread
      · right
        have heq : all ⊆ ((dedupById merged).map ChatRecord.id).toFinset := by
          intro i hi
          rw [mem_toFinset, hmem]
          exact (Finset.mem_union.1 hi).imp (hstored.mem_of_card_le (not_lt.1 hread)) id
        have hge := Finset.card_le_card heq
        omega

end LibrePaper.Chat
