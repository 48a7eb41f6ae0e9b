import LibrePaper.Comments.Pages

/-!
# Every comment is delivered

Following the cursors to the end delivers the comments and the replies that are stored throughout
exactly once, in order, whatever comes and goes between the pages.
-/
namespace LibrePaper.Comments
open Library List

/-- A request for a page, with what is stored when it is served. -/
structure Request where
  db : Database
  limit : ℕ

/-- The listing cursor is followed to the end. -/
inductive CommentWalk (codec : Codec) (budget : ℕ) (document : Uuid) :
    Option Position → List Request → List Comment → Prop
  | last {after : Option Position} {q : Request} {p : CommentPage} :
      page codec budget q.db document after q.limit = .ok p → p.next = none →
      CommentWalk codec budget document after [q] p.comments
  | more {after : Option Position} {q : Request} {p : CommentPage} {place next : Position}
      {requests : List Request} {comments : List Comment} :
      page codec budget q.db document after q.limit = .ok p → p.next = some place →
      decodeCursor codec (encodeCursor codec document none place) document none = .ok next →
      CommentWalk codec budget document (some next) requests comments →
      CommentWalk codec budget document after (q :: requests) (p.comments ++ comments)

/-- A thread's cursor is followed to the end. -/
inductive ThreadWalk (codec : Codec) (budget : ℕ) (document comment : Uuid) :
    Option String → List Request → List Row → Prop
  | done : ThreadWalk codec budget document comment none [] []
  | more {raw : String} {place : Position} {q : Request} {p : ReplyPage}
      {requests : List Request} {replies : List Row} :
      decodeCursor codec raw document (some comment) = .ok place →
      threadPage budget q.db comment (some place) q.limit = .ok p →
      ThreadWalk codec budget document comment
        (p.next.map (encodeCursor codec document (some comment))) requests replies →
      ThreadWalk codec budget document comment (some raw) (q :: requests) (p.replies ++ replies)

section Keys

variable {t : Table} {owner : Uuid} {cursor : Option Key}

lemma rising_keys (t : Table) (owner : Uuid) (cursor : Option Key) :
    ((t.behind owner cursor).map Row.key).Pairwise (· < ·) :=
  pairwise_map.2 (t.behind_rising owner cursor)

lemma mem_keys (k : Key) :
    k ∈ (t.behind owner cursor).map Row.key ↔ t.Holds owner k ∧ floorOf cursor < k :=
  Table.holds_iff.symm

/-- The keys of a page of rows. -/
def pageOf (t : Table) (owner : Uuid) (rows : List Row) (complete : Bool) : Keyset.Page Key :=
  ⟨t.Holds owner, rows.map Row.key, complete⟩

lemma serves_page (t : Table) (owner : Uuid) (cursor : Option Key) (k : ℕ) (complete : Bool)
    (h : complete = true → (t.behind owner cursor).length ≤ k) :
    Keyset.Serves (floorOf cursor) (pageOf t owner ((t.behind owner cursor).take k) complete) := by
  unfold pageOf
  rw [map_take]
  exact Keyset.serves_take (rising_keys t owner cursor) mem_keys
    fun hcomplete => (length_map _).le.trans (h hcomplete)

/-- The next page begins behind the last row. -/
lemma continues_page {k : ℕ} {complete : Bool} {last : Row}
    (h : ((t.behind owner cursor).take k).getLast? = some last) :
    Keyset.Continues (floorOf cursor)
      (pageOf t owner ((t.behind owner cursor).take k) complete) last.key := by
  unfold pageOf
  rw [map_take]
  refine Keyset.continues_last (rising_keys t owner cursor) mem_keys ?_
  rw [← map_take, getLast?_map, h]
  rfl

end Keys

section Walks

variable {codec : Codec} {budget : ℕ} {document comment : Uuid}

variable {rows replies : List Row} {k : ℕ} {complete : Bool} {next after : Option Position}
  {comments : List Comment} {requests : List Request} {raw : String} {place : Position}
  {db : Database} {c : Comment} {t : Table} {owner : Uuid}

/-- A page is the last one, or the next one begins behind its last row. -/
lemma next_cases (hcomplete : complete = true ↔ rows.length ≤ k) (hpos : complete = false → 1 ≤ k)
    (hnext : next = if complete then none else (rows.take k).getLast?.map Row.position) :
    (complete = true ∧ next = none) ∨ (complete = false ∧ ∃ last ∈ rows,
      (rows.take k).getLast? = some last ∧ next = some last.position) := by
  cases complete with
  | true => exact .inl ⟨rfl, hnext⟩
  | false =>
    have hone := hpos rfl
    have hmore : k < rows.length := Nat.lt_of_not_le fun hle =>
      Bool.false_ne_true (hcomplete.2 hle)
    have hne : rows.take k ≠ [] := by
      rw [Ne, take_eq_nil_iff]
      rintro (hzero | rfl)
      · omega
      · exact absurd hmore (Nat.not_lt_zero k)
    obtain ⟨last, hlast⟩ := Option.ne_none_iff_exists'.1 (mt getLast?_eq_none_iff.1 hne)
    refine .inr ⟨rfl, last, mem_of_mem_take (mem_of_getLast? hlast), hlast, ?_⟩
    rw [hnext, hlast]
    rfl

lemma decode_row (hcodec : codec.Lawful) (thread : Option Uuid) (r : Row) :
    decodeCursor codec (encodeCursor codec document thread r.position) document thread =
      .ok r.position := decode_encode hcodec r.whole

lemma map_row_key (h : comments.map Comment.row = rows) :
    rows.map Row.key = comments.map fun c => c.row.key := by
  rw [← h, map_map]
  rfl

/-- A walk over comments is a walk over their keys. -/
lemma CommentWalk.walked (hcodec : codec.Lawful)
    (h : CommentWalk codec budget document after requests comments) :
    ∃ pages : List (Keyset.Page Key), Keyset.Walked (floorOf (after.map Position.key)) pages ∧
      Keyset.served pages = comments.map (fun c => c.row.key) ∧
      pages.map Keyset.Page.stored = requests.map fun q => q.db.annotations.Holds document := by
  induction h with
  | @last after q p hpage hnone =>
    obtain ⟨p', k, hpage', hrows, hcomplete, hpos, hnext, -⟩ :=
      page_spec codec budget q.db document after q.limit
    obtain rfl : p = p' := Except.ok.inj (hpage.symm.trans hpage')
    rcases next_cases hcomplete hpos hnext with ⟨htrue, -⟩ | ⟨-, last, -, -, hsome⟩
    · refine ⟨[_], Keyset.Walked.last (serves_page _ _ _ _ _ hcomplete.1) htrue, ?_, rfl⟩
      rw [Keyset.served, flatMap_singleton, ← map_row_key hrows]
      rfl
    · cases hnone.symm.trans hsome
  | @more after q p place next requests comments hpage hplace hdecode _ ih =>
    obtain ⟨p', k, hpage', hrows, hcomplete, hpos, hnext, -⟩ :=
      page_spec codec budget q.db document after q.limit
    obtain rfl : p = p' := Except.ok.inj (hpage.symm.trans hpage')
    obtain ⟨pages, hwalked, hserved, hstored⟩ := ih
    rcases next_cases hcomplete hpos hnext with ⟨-, hno⟩ | ⟨-, last, -, hlast, hsome⟩
    · cases hno.symm.trans hplace
    · obtain rfl := Option.some.inj (hplace.symm.trans hsome)
      obtain rfl := Except.ok.inj ((decode_row hcodec none last).symm.trans hdecode)
      refine ⟨_ :: pages, Keyset.Walked.more (serves_page _ _ _ _ _ hcomplete.1)
        (continues_page hlast) hwalked, ?_, ?_⟩
      · rw [Keyset.served, flatMap_cons, map_append, ← hserved, ← map_row_key hrows]
        rfl
      · rw [map_cons, map_cons, hstored]
        rfl

/-- A walk over a thread is a walk over the keys of its replies. -/
lemma ThreadWalk.walked (hcodec : codec.Lawful)
    (h : ThreadWalk codec budget document comment (some raw) requests replies)
    (hraw : decodeCursor codec raw document (some comment) = .ok place) :
    ∃ pages : List (Keyset.Page Key), Keyset.Walked (place.key : WithBot Key) pages ∧
      Keyset.served pages = replies.map Row.key ∧
      pages.map Keyset.Page.stored = requests.map fun q => q.db.replies.Holds comment := by
  obtain ⟨cursor, hcursor⟩ : ∃ cursor, some raw = cursor := ⟨_, rfl⟩
  rw [hcursor] at h
  induction h generalizing raw place with
  | done => cases hcursor
  | @more raw' place' q p requests replies hdecode hpage hrest ih =>
    cases hcursor
    obtain rfl : place = place' := Except.ok.inj (hraw.symm.trans hdecode)
    obtain ⟨p', k, hpage', hrows, hcomplete, hpos, hnext⟩ :=
      threadPage_spec budget q.db comment (some place) q.limit
    obtain rfl : p = p' := Except.ok.inj (hpage.symm.trans hpage')
    rcases next_cases hcomplete hpos hnext with ⟨htrue, hnone⟩ | ⟨-, last, -, hlast, hsome⟩
    · rw [hnone] at hrest
      cases hrest
      refine ⟨[_], Keyset.Walked.last (serves_page _ _ _ _ _ hcomplete.1) htrue, ?_, rfl⟩
      rw [Keyset.served, flatMap_singleton, append_nil, hrows]
      rfl
    · rw [hsome] at ih
      obtain ⟨pages, hwalked, hserved, hstored⟩ := ih (decode_row hcodec (some comment) last) rfl
      refine ⟨_ :: pages, Keyset.Walked.more (serves_page _ _ _ _ _ hcomplete.1)
        (continues_page hlast) hwalked, ?_, ?_⟩
      · rw [Keyset.served, flatMap_cons, map_append, ← hserved, hrows]
        rfl
      · rw [map_cons, map_cons, hstored]
        rfl

/-- The preview of a comment and its thread's other pages are one walk. -/
lemma Previews.walked (hcodec : codec.Lawful) (hc : Previews codec db document c)
    (h : ThreadWalk codec budget document c.row.id c.replyCursor requests replies) :
    ∃ pages : List (Keyset.Page Key), Keyset.Walked ⊥ pages ∧
      Keyset.served pages = (c.replies ++ replies).map Row.key ∧
      pages.map Keyset.Page.stored =
        db.replies.Holds c.row.id :: requests.map fun q => q.db.replies.Holds c.row.id := by
  obtain ⟨n, hn⟩ := hc.replies
  have hcursor := hc.cursor
  have htotal := hc.total
  split at hcursor
  next hmore =>
    rw [hcursor] at h
    cases hlast : c.replies.getLast? with
    | some last =>
      rw [hlast] at h
      obtain ⟨pages, hwalked, hserved, hstored⟩ :=
        h.walked hcodec (decode_row hcodec (some c.row.id) last)
      rw [hn] at hlast
      refine ⟨_ :: pages, Keyset.Walked.more (serves_page _ _ none n false
        Bool.noConfusion) (continues_page hlast) hwalked, ?_, ?_⟩
      · rw [Keyset.served, flatMap_cons, map_append, ← hserved, hn]
        rfl
      · rw [map_cons, hstored]
        rfl
    | none =>
      rw [hlast] at h
      have hnil := getLast?_eq_none_iff.1 hlast
      have hstart : decodeCursor codec (encodeCursor codec document (some c.row.id)
          Position.start) document (some c.row.id) = .ok Position.start :=
        decode_encode hcodec rfl
      obtain ⟨pages, hwalked, hserved, hstored⟩ := h.walked hcodec hstart
      refine ⟨⟨db.replies.Holds c.row.id, [], false⟩ :: pages, Keyset.Walked.more
        ⟨Pairwise.nil, fun k hk => absurd hk not_mem_nil,
          fun k _ _ _ => ⟨rfl, fun j hj => absurd hj not_mem_nil⟩⟩
        ⟨fun k hk => absurd hk not_mem_nil, fun k hk _ _ => ?_, bot_le⟩ hwalked, ?_, ?_⟩
      · obtain ⟨r, -, -, rfl⟩ := hk
        exact WithBot.coe_lt_coe.2 r.start_lt
      · rw [Keyset.served, flatMap_cons, hnil]
        exact hserved
      · rw [map_cons, hstored]
  next hall =>
    rw [hcursor] at h
    cases h
    have hlong : (db.replies.behind c.row.id none).length ≤ n := by
      rw [hn, htotal, length_take] at hall
      omega
    refine ⟨[_], Keyset.Walked.last (serves_page _ _ none n true fun _ => hlong) rfl, ?_, rfl⟩
    rw [Keyset.served, flatMap_singleton, append_nil, hn]
    rfl

/-- Fewer rows are behind a row than behind a cursor before it. -/
lemma length_behind_lt {cursor : Option Key} {last : Row} (h : last ∈ t.behind owner cursor) :
    (t.behind owner (some last.key)).length < (t.behind owner cursor).length := by
  have hnodup : (last :: t.behind owner (some last.key)).Nodup := by
    refine nodup_cons.2 ⟨fun hin => ?_, ?_⟩
    · exact absurd (WithBot.coe_lt_coe.1 (Table.mem_behind.1 hin).2.2) (lt_irrefl _)
    · exact (t.behind_rising owner _).imp fun hab heq => absurd (heq ▸ hab) (lt_irrefl _)
  refine (subperm_of_subset hnodup fun r hr => ?_).length_le
  rcases mem_cons.1 hr with rfl | hr
  · exact h
  · obtain ⟨hmem, howner, hlt⟩ := Table.mem_behind.1 hr
    exact Table.mem_behind.2 ⟨hmem, howner, (Table.mem_behind.1 h).2.2.trans hlt⟩

/-- A walk ends while nothing is written. -/
lemma CommentWalk.ends (hcodec : codec.Lawful) (q : Request) (after : Option Position) :
    ∃ n comments, CommentWalk codec budget document after (replicate n q) comments := by
  obtain ⟨count, hcount⟩ : ∃ count,
      (q.db.annotations.behind document (after.map Position.key)).length = count := ⟨_, rfl⟩
  induction count using Nat.strong_induction_on generalizing after with
  | _ count ih =>
    obtain ⟨p, k, hpage, hrows, hcomplete, hpos, hnext, -⟩ :=
      page_spec codec budget q.db document after q.limit
    rcases next_cases hcomplete hpos hnext with ⟨-, hnone⟩ | ⟨-, last, hlast, -, hsome⟩
    · exact ⟨1, _, CommentWalk.last hpage hnone⟩
    · have hless := length_behind_lt hlast
      rw [hcount] at hless
      obtain ⟨n, comments, hwalk⟩ := ih _ hless (some last.position) rfl
      exact ⟨n + 1, _, CommentWalk.more hpage hsome (decode_row hcodec none last) hwalk⟩

/-- A thread's walk ends while nothing is written. -/
lemma ThreadWalk.ends (hcodec : codec.Lawful) (q : Request)
    (hraw : decodeCursor codec raw document (some comment) = .ok place) :
    ∃ n replies, ThreadWalk codec budget document comment (some raw) (replicate n q) replies := by
  obtain ⟨count, hcount⟩ : ∃ count,
      (q.db.replies.behind comment (some place.key)).length = count := ⟨_, rfl⟩
  induction count using Nat.strong_induction_on generalizing raw place with
  | _ count ih =>
    obtain ⟨p, k, hpage, hrows, hcomplete, hpos, hnext⟩ :=
      threadPage_spec budget q.db comment (some place) q.limit
    rcases next_cases hcomplete hpos hnext with ⟨-, hnone⟩ | ⟨-, last, hlast, -, hsome⟩
    · exact ⟨1, _, ThreadWalk.more hraw hpage (by rw [hnone]; exact ThreadWalk.done)⟩
    · have hless := length_behind_lt hlast
      rw [Option.map_some, hcount] at hless
      obtain ⟨n, replies, hwalk⟩ := ih _ hless (decode_row hcodec (some comment) last) rfl
      exact ⟨n + 1, _, ThreadWalk.more hraw hpage (by rw [hsome]; exact hwalk)⟩

/-- A page that is not the last has rows, and the next one begins further on. A page is the last
when it has all rows behind its cursor. -/
structure Tells (t : Table) (owner : Uuid) (after : Option Position) (keys : List Key)
    (complete : Bool) (next : Option Position) : Prop where
  complete_iff : complete = true ↔
    ∀ k, t.Holds owner k → floorOf (after.map Position.key) < k → k ∈ keys
  progress : (complete = true ∧ next = none) ∨ (complete = false ∧ keys ≠ [] ∧
    ∃ place, next = some place ∧ floorOf (after.map Position.key) < place.key)

lemma tells_of_take
    (hcomplete : complete = true ↔ (t.behind owner (after.map Position.key)).length ≤ k)
    (hpos : complete = false → 1 ≤ k) (hnext : next = if complete then none else
      ((t.behind owner (after.map Position.key)).take k).getLast?.map Row.position) :
    Tells t owner after (((t.behind owner (after.map Position.key)).take k).map Row.key) complete
      next := by
  refine ⟨hcomplete.trans ⟨fun hle j hj hlt => ?_, fun hall => ?_⟩, ?_⟩
  · rw [take_of_length_le hle]
    exact (mem_keys j).2 ⟨hj, hlt⟩
  · have hnodup : ((t.behind owner (after.map Position.key)).map Row.key).Nodup :=
      (rising_keys t owner _).imp ne_of_lt
    have hsub := (subperm_of_subset hnodup fun j hj =>
      hall j ((mem_keys j).1 hj).1 ((mem_keys j).1 hj).2).length_le
    rw [length_map, length_map] at hsub
    exact hsub.trans (length_take_le _ _)
  · rcases next_cases hcomplete hpos hnext with hlast | ⟨hfalse, last, hmem, hlast, hsome⟩
    · exact .inl hlast
    · refine .inr ⟨hfalse, ?_, last.position, hsome, (Table.mem_behind.1 hmem).2.2⟩
      exact ne_nil_of_mem (mem_map_of_mem (mem_of_getLast? hlast))

/-- Keys in order: those stored throughout, and none that was never stored. -/
structure Delivers (keys : List Key) (stored : List (Key → Prop)) : Prop where
  rising : keys.Pairwise (· < ·)
  throughout : ∀ k, (∀ s ∈ stored, s k) → k ∈ keys
  stored : ∀ k ∈ keys, ∃ s ∈ stored, s k

lemma delivers_of_walked {pages : List (Keyset.Page Key)} {keys : List Key}
    {stored : List (Key → Prop)} (h : Keyset.Walked ⊥ pages) (hkeys : Keyset.served pages = keys)
    (hstored : pages.map Keyset.Page.stored = stored) : Delivers keys stored := by
  subst hkeys hstored
  refine ⟨h.rising.1, fun k hk => h.mem_served (WithBot.bot_lt_coe k) fun p hp =>
    hk _ (mem_map_of_mem hp), fun k hk => ?_⟩
  obtain ⟨p, hp, hstored⟩ := h.was_stored hk
  exact ⟨p.stored, mem_map_of_mem hp, hstored⟩

/-- A comment has no reply cursor when it has all its replies. -/
lemma Previews.cursor_none (h : Previews codec db document c) :
    c.replyCursor = none ↔ ∀ k, db.replies.Holds c.row.id k → k ∈ c.replies.map Row.key := by
  obtain ⟨n, hn⟩ := h.replies
  have hcount : c.replies.length < c.replyTotal ↔
      ¬(db.replies.behind c.row.id none).length ≤ n := by
    rw [hn, h.total, length_take]
    omega
  have hnone : c.replyCursor = none ↔ (db.replies.behind c.row.id none).length ≤ n := by
    rw [h.cursor]
    split
    next hmore => exact ⟨nofun, fun hle => absurd hle (hcount.1 hmore)⟩
    next hall => exact ⟨fun _ => not_not.1 (mt hcount.2 hall), fun _ => rfl⟩
  rw [hnone, hn]
  constructor
  · intro hle k hk
    rw [take_of_length_le hle]
    have hfirst : floorOf none < k := WithBot.bot_lt_coe k
    exact (mem_keys k).2 ⟨hk, hfirst⟩
  · intro hall
    have hnodup : ((db.replies.behind c.row.id none).map Row.key).Nodup :=
      (rising_keys _ _ _).imp ne_of_lt
    have hsub := (subperm_of_subset hnodup fun j hj =>
      hall j ((mem_keys j).1 hj).1).length_le
    rw [length_map, length_map] at hsub
    exact hsub.trans (length_take_le _ _)

end Walks

/-- The listing cursor and the reply cursors deliver every comment and every reply that is stored
throughout once and in order, every page tells whether it is the last or goes on, a walk ends while
nothing is written, and a cursor belongs to its document and its thread. -/
theorem paging_complete (codec : Codec) (hcodec : codec.Lawful) (budget : ℕ) (document : Uuid) :
    (∀ requests comments, CommentWalk codec budget document none requests comments →
      Delivers (comments.map fun c => c.row.key)
        (requests.map fun q => q.db.annotations.Holds document)) ∧
    (∀ q after, ∃ n comments, CommentWalk codec budget document after (replicate n q) comments) ∧
    (∀ db after limit, ∃ p, page codec budget db document after limit = .ok p ∧
      Tells db.annotations document after (p.comments.map fun c => c.row.key) p.complete p.next ∧
      ∀ c ∈ p.comments,
        (c.replyCursor = none ↔ ∀ k, db.replies.Holds c.row.id k → k ∈ c.replies.map Row.key) ∧
        ∀ requests replies,
          ThreadWalk codec budget document c.row.id c.replyCursor requests replies →
          Delivers ((c.replies ++ replies).map Row.key) (db.replies.Holds c.row.id ::
            requests.map fun q => q.db.replies.Holds c.row.id)) ∧
    (∀ db comment after limit, ∃ p, threadPage budget db comment after limit = .ok p ∧
      Tells db.replies comment after (p.replies.map Row.key) p.complete p.next) ∧
    (∀ q comment raw place, decodeCursor codec raw document (some comment) = .ok place →
      ∃ n replies, ThreadWalk codec budget document comment (some raw) (replicate n q) replies) ∧
    (∀ thread (place : Position), place.created.nanos % 1000 = 0 → decodeCursor codec
      (encodeCursor codec document thread place) document thread = .ok place) ∧
    (∀ thread place document' thread', document ≠ document' ∨ thread ≠ thread' →
      decodeCursor codec (encodeCursor codec document thread place) document' thread' =
        .error "that pagination cursor is not for this request") := by
  refine ⟨fun requests comments h => ?_, fun q => CommentWalk.ends hcodec q,
    fun db after limit => ?_, fun db comment after limit => ?_,
    fun q _ _ _ => ThreadWalk.ends hcodec q,
    fun _ _ => decode_encode hcodec,
    fun _ _ _ _ => decode_elsewhere hcodec⟩
  · obtain ⟨pages, hwalked, hserved, hstored⟩ := h.walked hcodec
    exact delivers_of_walked hwalked hserved hstored
  · obtain ⟨p, k, hpage, hrows, hcomplete, hpos, hnext, hpreviews⟩ :=
      page_spec codec budget db document after limit
    refine ⟨p, hpage, ?_, fun c hc => ⟨(hpreviews c hc).cursor_none, fun requests replies h => ?_⟩⟩
    · rw [← map_row_key hrows]
      exact tells_of_take hcomplete hpos hnext
    · obtain ⟨pages, hwalked, hserved, hstored⟩ := (hpreviews c hc).walked hcodec h
      exact delivers_of_walked hwalked hserved hstored
  · obtain ⟨p, k, hpage, hrows, hcomplete, hpos, hnext⟩ :=
      threadPage_spec budget db comment after limit
    refine ⟨p, hpage, ?_⟩
    rw [hrows]
    exact tells_of_take hcomplete hpos hnext

/-- A number for every cursor. -/
def Wire.number (w : Wire) : ℕ :=
  Nat.pair w.v.toNat (Nat.pair w.d (Nat.pair ((w.t.map fun t => t.val + 1).getD 0)
    (Nat.pair w.micros.toUInt64.toNat w.id)))

lemma Wire.number_injective : Function.Injective Wire.number := by
  rintro ⟨v, d, t, ⟨micros⟩, id⟩ ⟨v', d', t', ⟨micros'⟩, id'⟩ h
  simp only [Wire.number, Nat.pair_eq_pair] at h
  obtain ⟨hv, hd, ht, hmicros, hid⟩ := h
  obtain rfl := UInt8.toNat_inj.1 hv
  obtain rfl := Fin.ext hd
  obtain rfl := Fin.ext hid
  obtain rfl := UInt64.toNat_inj.1 hmicros
  cases t with
  | none =>
    cases t' with
    | none => rfl
    | some t' => exact absurd ht.symm (Nat.succ_ne_zero _)
  | some t =>
    cases t' with
    | none => exact absurd ht (Nat.succ_ne_zero _)
    | some t' => rw [Fin.ext (Nat.succ.inj ht)]

/-- The cursor behind the first of the notes below. -/
def sampleWire : Wire := ⟨1, 1, none, 1000000, 2⟩

def sampleText : String :=
  "eyJ2IjoxLCJkIjoi" ++
    ("MDAwMDAwMDAtMDAwMC0wMDAwLTAwMDAtMDAwMDAwMDAwMDAxIiwiYXQiOjEwMDAwMDAsImlkIjoi" ++
    "MDAwMDAwMDAtMDAwMC0wMDAwLTAwMDAtMDAwMDAwMDAwMDAyIn0")

/-- The text of the sample cursor, and texts of their own for the others. -/
def sampleEncode (w : Wire) : String :=
  if w = sampleWire then sampleText else String.ofList (List.replicate w.number 'A')

lemma sampleEncode_injective : Function.Injective sampleEncode := by
  have happart : ∀ n, String.ofList (replicate n 'A') ≠ sampleText := by
    intro n h
    have hlist := congrArg String.toList h
    rw [String.toList_ofList] at hlist
    have hmem : 'e' ∈ replicate n 'A' := by
      rw [hlist, sampleText, String.toList_append]
      exact mem_append_left _ (by decide)
    exact absurd (eq_of_mem_replicate hmem) (by decide)
  intro w w' h
  unfold sampleEncode at h
  split at h <;> split at h
  next hw hw' => exact hw.trans hw'.symm
  next => exact absurd h.symm (happart _)
  next => exact absurd h (happart _)
  next =>
    have hlist := congrArg String.toList h
    rw [String.toList_ofList, String.toList_ofList] at hlist
    have hlength := congrArg length hlist
    rw [length_replicate, length_replicate] at hlength
    exact Wire.number_injective hlength

open Classical in
/-- Reads what `sampleEncode` writes. -/
noncomputable def sampleCodec : Codec where
  encode := sampleEncode
  decode raw := if h : ∃ w, sampleEncode w = raw then some h.choose else none

lemma sampleCodec_lawful : sampleCodec.Lawful := by
  intro w
  have h : ∃ w', sampleEncode w' = sampleEncode w := ⟨w, rfl⟩
  unfold sampleCodec
  dsimp only
  rw [dif_pos h]
  exact congrArg some (sampleEncode_injective h.choose_spec)

def sampleRow (owner id : Uuid) (seconds : ℕ) (bytes : ℤ)
    (h : 0 < seconds ∧ seconds ≤ 253402300799) : Row where
  owner := owner
  id := id
  created := ⟨seconds * 10 ^ 9, by unfold minNanos; omega, by unfold maxNanos; omega⟩
  bytes := bytes
  updated := 0
  body := "note"
  whole := by
    change ((seconds : ℤ) * 10 ^ 9) % 1000 = 0
    omega
  later := by
    change 0 < (seconds : ℤ) * 10 ^ 9
    omega

def firstNote : Row := sampleRow 1 2 1 600000 (by decide)

def secondNote : Row := sampleRow 1 3 2 10 (by decide)

def bothNotes : Database := ⟨⟨[secondNote, firstNote], by decide⟩, ⟨[], List.nodup_nil⟩⟩

def oneNote : Database := ⟨⟨[secondNote], by decide⟩, ⟨[], List.nodup_nil⟩⟩

/-- The first note does not fit a page, and is deleted before the next one. -/
theorem notes_delivered :
    CommentWalk sampleCodec pageBytesMax 1 none [⟨bothNotes, 50⟩, ⟨oneNote, 50⟩]
        [⟨firstNote, [], 0, none, 0⟩, ⟨secondNote, [], 0, none, 0⟩] ∧
      encodeCursor sampleCodec 1 none firstNote.position = sampleText ∧
      Delivers [firstNote.key, secondNote.key]
        [bothNotes.annotations.Holds 1, oneNote.annotations.Holds 1] := by
  have hfirst : page sampleCodec pageBytesMax bothNotes 1 none 50 =
      .ok ⟨[⟨firstNote, [], 0, none, 0⟩], some firstNote.position, false, true⟩ := rfl
  have hsecond : page sampleCodec pageBytesMax oneNote 1 (some firstNote.position) 50 =
      .ok ⟨[⟨secondNote, [], 0, none, 0⟩], none, true, false⟩ := rfl
  have hcursor : decodeCursor sampleCodec (encodeCursor sampleCodec 1 none firstNote.position) 1
      none = .ok firstNote.position := decode_row sampleCodec_lawful none firstNote
  have hwire : (⟨1, 1, none, firstNote.position.micros, firstNote.position.id⟩ : Wire) =
      sampleWire := by decide
  have hwalk := CommentWalk.more (q := ⟨bothNotes, 50⟩) hfirst rfl hcursor
    (CommentWalk.last (q := ⟨oneNote, 50⟩) hsecond rfl)
  have htext : sampleEncode ⟨1, 1, none, firstNote.position.micros, firstNote.position.id⟩ =
      sampleText := by rw [hwire, sampleEncode, if_pos rfl]
  exact ⟨hwalk, htext, (paging_complete sampleCodec sampleCodec_lawful pageBytesMax 1).1 _ _ hwalk⟩

end LibrePaper.Comments
