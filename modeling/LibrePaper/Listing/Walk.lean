import LibrePaper.Listing.Pages

/-!
# What a walk over the listing delivers

A page serves the first projects behind a position. As long as the project that a cursor names
stands where it stood, a walk delivers what is visible throughout once, and in order.
-/
namespace LibrePaper.Listing
open Library List

/-- The caller may see a project in the listing. -/
def Visible (db : Database) (account : Option ℕ) (templates : Bool) (d : Document) : Prop :=
  d ∈ db.documents ∧ (owns account d || granted db account d) = true ∧ d.listed templates = true

/-- A visible project stands at this key. -/
def Holds (db : Database) (account : Option ℕ) (templates : Bool) (k : Key) : Prop :=
  ∃ d, Visible db account templates d ∧ d.key = k

/-- The floor of a page. -/
def floorOf (before : Option Key) : WithBot Key := before.elim ⊥ (↑)

section Pages

variable {db : Database} {account : Option ℕ} {templates : Bool} {before : Option Key} {limit : ℕ}

variable {d e : Document} {cursor : Option ListingCursor} {page : List Document × Bool}

lemma Document.key_inj (h : d.key = e.key) : d.updated = e.updated ∧ d.id = e.id :=
  Prod.mk.inj (toLex.injective (OrderDual.toDual.injective h))

lemma Document.key_lt_iff :
    d.key < e.key ↔ e.updated < d.updated ∨ e.updated = d.updated ∧ e.id < d.id := by
  unfold Document.key
  rw [OrderDual.toDual_lt_toDual, Prod.Lex.toLex_lt_toLex]

lemma Database.key_nodup (db : Database) : (db.documents.map Document.key).Nodup := by
  refine Nodup.of_map (fun k : Key => (ofLex (OrderDual.ofDual k)).2) ?_
  rw [map_map]
  exact db.ids

lemma Database.eq_of_id (hd : d ∈ db.documents) (he : e ∈ db.documents) (h : d.id = e.id) :
    d = e := inj_on_of_nodup_map db.ids hd he h

/-- What is visible behind a position, in order. -/
def behind (db : Database) (account : Option ℕ) (templates : Bool) (before : Option Key) :
    List Document :=
  sortByKey Document.key (db.documents.filter fun d =>
    owns account d && (d.listed templates && before.all (· < d.key)) ||
      granted db account d && (d.listed templates && before.all (· < d.key)))

lemma mem_behind : d ∈ behind db account templates before ↔
    Visible db account templates d ∧ floorOf before < d.key := by
  unfold behind Visible
  rw [mem_sortByKey, mem_filter, ← Bool.and_or_distrib_right, Bool.and_eq_true, Bool.and_eq_true]
  have hfloor : before.all (· < d.key) = true ↔ floorOf before < d.key := by
    cases before with
    | none => simp [floorOf]
    | some k => simp [floorOf]
  rw [hfloor]
  tauto

lemma behind_rising (db : Database) (account : Option ℕ) (templates : Bool)
    (before : Option Key) :
    ((behind db account templates before).map Document.key).Pairwise (· < ·) := by
  refine pairwise_map.2 (sortByKey_rising ?_)
  exact db.key_nodup.sublist (filter_sublist.map Document.key)

lemma mem_behind_keys (k : Key) : k ∈ (behind db account templates before).map Document.key ↔
    Holds db account templates k ∧ floorOf before < k := by
  rw [mem_map]
  constructor
  · rintro ⟨d, hd, rfl⟩
    obtain ⟨hvisible, hfloor⟩ := mem_behind.1 hd
    exact ⟨⟨d, hvisible, rfl⟩, hfloor⟩
  · rintro ⟨⟨d, hvisible, rfl⟩, hfloor⟩
    exact ⟨d, mem_behind.2 ⟨hvisible, hfloor⟩, rfl⟩

/-- The two access paths, each cut to the page, join to the first of what is visible. -/
lemma visibleDocuments_eq (hlimit : 1 ≤ limit ∧ limit ≤ 201) :
    visibleDocuments db account before limit templates =
      .ok ((behind db account templates before).take limit) := by
  unfold visibleDocuments behind
  rw [if_neg (not_not.2 hlimit)]
  refine congrArg Except.ok (take_sort_cuts db.key_nodup _ _ limit fun d hd => ?_)
  rw [decide_eq_true_iff, map_append, mem_append]
  have hin : ∀ reaches : Document → Bool, d.id ∈ (branch db reaches before limit templates).map
      Document.id ↔ d ∈ branch db reaches before limit templates := by
    intro reaches
    refine ⟨fun hid => ?_, mem_map_of_mem⟩
    obtain ⟨e, he, heq⟩ := mem_map.1 hid
    have hstored := (mem_sortByKey Document.key _ e).1 (mem_of_mem_take he)
    rw [← db.eq_of_id (mem_filter.1 hstored).1 hd heq]
    exact he
  rw [hin, hin]
  rfl

/-- Where the page behind a cursor begins. -/
def begins (db : Database) (account : Option ℕ) : Option ListingCursor → Except String (Option Key)
  | none => .ok none
  | some cursor => (position db account cursor).map some

/-- A page is the first of what is visible behind its position. -/
lemma visiblePage_eq (cursor : Option ListingCursor) (hlimit : 1 ≤ limit ∧ limit ≤ 200) :
    visiblePage db account cursor limit templates = (begins db account cursor).map fun before =>
      ((behind db account templates before).take limit,
        decide (limit < (behind db account templates before).length)) := by
  have hsplit : ∀ before, (visibleDocuments db account before (limit + 1) templates >>= fun rows =>
      .ok (splitPage rows limit)) = .ok ((behind db account templates before).take limit,
        decide (limit < (behind db account templates before).length)) := by
    intro before
    rw [visibleDocuments_eq (by omega)]
    refine congrArg Except.ok (Prod.ext ((take_take ..).trans ?_) ?_)
    · rw [Nat.min_eq_left (Nat.le_succ limit)]
    · show decide (limit < _) = _
      rw [length_take, decide_eq_decide]
      omega
  cases cursor with
  | none => exact hsplit none
  | some cursor =>
    rw [begins]
    cases hpos : position db account cursor with
    | error error =>
      unfold visiblePage
      simp only [hpos]
      rfl
    | ok k =>
      unfold visiblePage
      simp only [hpos]
      exact hsplit (some k)

lemma visiblePage_ok (hlimit : 1 ≤ limit ∧ limit ≤ 200)
    (h : visiblePage db account cursor limit templates = .ok page) :
    ∃ before, begins db account cursor = .ok before ∧
      page.1 = (behind db account templates before).take limit ∧
      page.2 = decide (limit < (behind db account templates before).length) := by
  rw [visiblePage_eq cursor hlimit] at h
  cases hbegins : begins db account cursor with
  | error error => rw [hbegins] at h; cases h
  | ok before =>
    rw [hbegins] at h
    cases h
    exact ⟨before, rfl, rfl, rfl⟩

/-- A page fails only when its cursor names no project that the caller may read. -/
lemma visiblePage_error {error : String} (hlimit : 1 ≤ limit ∧ limit ≤ 200)
    (h : visiblePage db account cursor limit templates = .error error) :
    ∃ c, cursor = some c ∧ ∀ d ∈ db.documents, d.slug = c.afterSlug →
      readableBy db account d = false := by
  rw [visiblePage_eq cursor hlimit] at h
  cases cursor with
  | none => cases h
  | some c =>
    refine ⟨c, rfl, fun d hd hslug => ?_⟩
    by_contra hread
    have hfind : (db.documents.find? fun e => e.slug = c.afterSlug) = some d := by
      cases hfound : db.documents.find? fun e => e.slug = c.afterSlug with
      | none => exact absurd (decide_eq_true hslug) (find?_eq_none.1 hfound d hd)
      | some e =>
        have he : e.slug = c.afterSlug := by simpa using find?_some hfound
        exact congrArg some (inj_on_of_nodup_map db.slugs (mem_of_find?_eq_some hfound)
          hd (he.trans hslug.symm))
    have hpos : position db account c = .ok d.key := by
      unfold position
      rw [hfind]
      show (if (!readableBy db account d) = true then _ else _) = _
      rw [Bool.eq_true_of_not_eq_false hread]
      rfl
    rw [begins, hpos] at h
    cases h

lemma ne_nil_of_more {rows : List Document} (hlimit : 1 ≤ limit)
    (h : decide (limit < rows.length) = true) : rows.take limit ≠ [] := by
  rw [Ne, take_eq_nil_iff]
  rintro (hzero | rfl)
  · omega
  · exact absurd (of_decide_eq_true h) (Nat.not_lt_zero limit)

/-- A page says more when something visible lies behind its last project. -/
lemma more_iff (hlimit : 1 ≤ limit ∧ limit ≤ 200)
    (h : visiblePage db account cursor limit templates = .ok page) :
    page.2 = true ↔ ∃ last d, page.1.getLast? = some last ∧ Visible db account templates d ∧
      last.key < d.key := by
  obtain ⟨before, -, hpage, hmore⟩ := visiblePage_ok hlimit h
  have hrising := behind_rising db account templates before
  rw [hmore, decide_eq_true_iff, hpage]
  constructor
  · intro hlong
    have hne := ne_nil_of_more hlimit.1 (decide_eq_true hlong)
    obtain ⟨last, hlast⟩ := Option.ne_none_iff_exists'.1 (mt getLast?_eq_none_iff.1 hne)
    refine ⟨last, (behind db account templates before)[limit], hlast,
      (mem_behind.1 (getElem_mem hlong)).1, ?_⟩
    rw [← take_append_drop limit (behind db account templates before), map_append] at hrising
    refine (pairwise_append.1 hrising).2.2 _
      (mem_map_of_mem (mem_of_getLast? hlast)) _ (mem_map_of_mem ?_)
    rw [drop_eq_getElem_cons hlong]
    exact mem_cons_self
  · rintro ⟨last, d, hlast, hvisible, hlt⟩
    by_contra hshort
    rw [take_of_length_le (Nat.le_of_not_lt hshort)] at hlast
    have hmem := mem_of_getLast? hlast
    have hd : d ∈ behind db account templates before :=
      mem_behind.2 ⟨hvisible, (mem_behind.1 hmem).2.trans (WithBot.coe_lt_coe.2 hlt)⟩
    obtain ⟨front, hfront⟩ := getLast?_eq_some_iff.1 hlast
    rw [hfront] at hd hrising
    rw [map_append] at hrising
    rcases mem_append.1 hd with hd | hd
    · exact lt_asymm hlt ((pairwise_append.1 hrising).2.2 _ (mem_map_of_mem hd) _
        (mem_map_of_mem (mem_singleton_self last)))
    · rw [mem_singleton.1 hd] at hlt
      exact lt_irrefl _ hlt

end Pages

section Walks

variable {account : Option ℕ} {templates : Bool}

/-- Whenever a page is asked for, the project that the cursor names stands where it stood when the
cursor was given out, unless the page fails. -/
def Steady (account : Option ℕ) (templates : Bool) : Option Document → List Fetch → Prop
  | _, [] => True
  | named, f :: fetches =>
    (∀ d ∈ named, ∀ k, position f.db account d.cursor = .ok k → k = d.key) ∧
    ∀ page, visiblePage f.db account (named.map Document.cursor) f.limit templates = .ok page →
      Steady account templates page.1.getLast? fetches

/-- Between two fetches a project that keeps its address is as it was, or was updated later. -/
def Forward (f g : Fetch) : Prop :=
  ∀ d ∈ f.db.documents, ∀ e ∈ g.db.documents, d.slug = e.slug →
    d.updated < e.updated ∨ d.key = e.key

variable {fetches : List Fetch} {named : Option Document} {page : List Document × Bool}
  {db : Database} {seen : List ListingCursor} {pages : List (List Document)}

/-- A page of a steady walk begins behind the last project of the one before. -/
lemma visiblePage_steady {f : Fetch} (hlimit : 1 ≤ f.limit ∧ f.limit ≤ 200)
    (hsteady : Steady account templates named (f :: fetches))
    (h : visiblePage f.db account (named.map Document.cursor) f.limit templates = .ok page) :
    page.1 = (behind f.db account templates (named.map Document.key)).take f.limit ∧
      page.2 = decide (f.limit < (behind f.db account templates (named.map Document.key)).length) ∧
      Steady account templates page.1.getLast? fetches := by
  obtain ⟨before, hbegins, hpage, hmore⟩ := visiblePage_ok hlimit h
  have hbefore : before = named.map Document.key := by
    cases named with
    | none => exact (Except.ok.inj hbegins).symm
    | some d =>
      change (position f.db account d.cursor).map some = .ok before at hbegins
      cases hpos : position f.db account d.cursor with
      | error error => rw [hpos] at hbegins; cases hbegins
      | ok k =>
        rw [hpos] at hbegins
        rw [← Except.ok.inj hbegins, hsteady.1 d rfl k hpos]
        rfl
  rw [← hbefore]
  exact ⟨hpage, hmore, hsteady.2 page h⟩

/-- The position of a stored project is its own. -/
lemma position_cursor {d : Document} {k : Key} (hd : d ∈ db.documents)
    (h : position db account d.cursor = .ok k) : k = d.key := by
  unfold position at h
  cases hfind : db.documents.find? fun e => e.slug = d.cursor.afterSlug with
  | none => rw [hfind] at h; cases h
  | some e =>
    rw [hfind] at h
    change (if (!readableBy db account e) = true then _ else _) = _ at h
    split at h
    · cases h
    · have hslug : e.slug = d.cursor.afterSlug := by simpa using find?_some hfind
      rw [← Except.ok.inj h, inj_on_of_nodup_map db.slugs (mem_of_find?_eq_some hfind) hd hslug]

/-- A walk is steady when nothing is edited. -/
lemma steady_of_still (hlimits : ∀ f ∈ fetches, 1 ≤ f.limit ∧ f.limit ≤ 200)
    (hstill : ∀ f ∈ fetches, f.db = db) (hnamed : ∀ d ∈ named, d ∈ db.documents) :
    Steady account templates named fetches := by
  induction fetches generalizing named with
  | nil => trivial
  | cons f fetches ih =>
    obtain ⟨hlimit, hlimits⟩ := forall_mem_cons.1 hlimits
    obtain ⟨rfl, hstill⟩ := forall_mem_cons.1 hstill
    refine ⟨fun d hd k => position_cursor (hnamed d hd), fun page hpage => ?_⟩
    obtain ⟨before, -, hrows, -⟩ := visiblePage_ok hlimit hpage
    refine ih hlimits hstill fun d hd => ?_
    have hmem : d ∈ page.1 := mem_of_getLast? hd
    rw [hrows] at hmem
    exact (mem_behind.1 (mem_of_mem_take hmem)).1.1

/-- A page has no next cursor and says that nothing more is there, or names its last project. -/
lemma nextCursor_cases (hpage : page.2 = true → page.1 ≠ []) :
    (page.2 = false ∧ nextCursor page = none) ∨
      ∃ last, page.1.getLast? = some last ∧ nextCursor page = some last.cursor := by
  cases hmore : page.2 with
  | false => exact .inl ⟨rfl, by rw [nextCursor, hmore]; rfl⟩
  | true =>
    obtain ⟨last, hlast⟩ := Option.ne_none_iff_exists'.1 (mt getLast?_eq_none_iff.1 (hpage hmore))
    exact .inr ⟨last, hlast, by rw [nextCursor, hmore, hlast]; rfl⟩

/-- A steady walk is a walk over keys. -/
lemma walked_of_steady (hlimits : ∀ f ∈ fetches, 1 ≤ f.limit ∧ f.limit ≤ 200)
    (hsteady : Steady account templates named fetches)
    (h : walk account templates seen (named.map Document.cursor) fetches = .ok pages) :
    ∃ keys : List (Keyset.Page Key),
      Keyset.Walked (floorOf (named.map Document.key)) keys ∧
      Keyset.served keys = pages.flatten.map Document.key ∧
      keys.map Keyset.Page.stored =
        (fetches.take pages.length).map fun f => Holds f.db account templates := by
  induction fetches generalizing seen named pages with
  | nil => cases h
  | cons f fetches ih =>
    obtain ⟨hlimit, hlimits⟩ := forall_mem_cons.1 hlimits
    rw [walk] at h
    cases hfetch : visiblePage f.db account (named.map Document.cursor) f.limit templates with
    | error error => rw [hfetch] at h; cases h
    | ok page =>
      obtain ⟨hpage, hmore, hrest⟩ := visiblePage_steady hlimit hsteady hfetch
      have hrising := behind_rising f.db account templates (named.map Document.key)
      have hserves : ∀ complete, (complete = true → page.2 = false) →
          Keyset.Serves (floorOf (named.map Document.key))
            ⟨Holds f.db account templates, page.1.map Document.key, complete⟩ := by
        intro complete hcomplete
        rw [hpage, map_take]
        refine Keyset.serves_take hrising mem_behind_keys fun htrue => ?_
        have hshort := hcomplete htrue
        rw [hmore, decide_eq_false_iff_not] at hshort
        rw [length_map]
        exact Nat.le_of_not_lt hshort
      simp only [hfetch] at h
      rcases nextCursor_cases (fun htrue => hpage ▸ ne_nil_of_more hlimit.1 (hmore ▸ htrue)) with
        ⟨hlast, hnone⟩ | ⟨last, hlast, hnext⟩
      · rw [hnone] at h
        cases h
        refine ⟨[_], Keyset.Walked.last (hserves true fun _ => hlast) rfl, ?_, rfl⟩
        rw [Keyset.served, flatMap_singleton, flatten_singleton]
      · rw [hnext] at h
        simp only at h
        by_cases hseen : last.cursor ∈ seen
        · rw [if_pos hseen] at h
          cases h
        rw [if_neg hseen] at h
        rw [hlast] at hrest
        cases hwalk : walk account templates (last.cursor :: seen) (some last.cursor) fetches with
        | error error => rw [hwalk] at h; cases h
        | ok rest =>
          rw [hwalk] at h
          cases h
          obtain ⟨keys, hwalked, hserved, hstored⟩ := ih hlimits hrest hwalk
          refine ⟨_ :: keys, Keyset.Walked.more (hserves false fun hno => by cases hno) ?_ hwalked, ?_, ?_⟩
          · rw [hpage, map_take]
            refine Keyset.continues_last hrising mem_behind_keys ?_
            rw [← map_take, ← hpage, getLast?_map, hlast]
            rfl
          · rw [Keyset.served, flatMap_cons, flatten_cons, map_append, ← hserved]
            rfl
          · rw [map_cons, hstored, length_cons, take_succ_cons, map_cons]

/-- A cursor comes back only when a project went back in time. -/
lemma walk_ne_repeated {earlier : List Fetch}
    (hlimits : ∀ f ∈ fetches, 1 ≤ f.limit ∧ f.limit ≤ 200)
    (hsteady : Steady account templates named fetches) (hforward : fetches.Pairwise Forward)
    (hearlier : ∀ e ∈ earlier, ∀ f ∈ fetches, Forward e f)
    (hseen : ∀ c ∈ seen, ∃ e ∈ earlier, ∃ d ∈ e.db.documents, d.cursor = c ∧
      ∀ k : Key, floorOf (named.map Document.key) < ↑k → d.key < k) :
    walk account templates seen (named.map Document.cursor) fetches ≠ .error .repeated := by
  induction fetches generalizing seen named earlier with
  | nil => exact nofun
  | cons f fetches ih =>
    obtain ⟨hlimit, hlimits⟩ := forall_mem_cons.1 hlimits
    obtain ⟨hfirst, hforward⟩ := pairwise_cons.1 hforward
    rw [walk]
    cases hfetch : visiblePage f.db account (named.map Document.cursor) f.limit templates with
    | error error => exact nofun
    | ok page =>
      obtain ⟨hpage, hmore, hrest⟩ := visiblePage_steady hlimit hsteady hfetch
      simp only
      rcases nextCursor_cases (fun htrue => hpage ▸ ne_nil_of_more hlimit.1 (hmore ▸ htrue)) with
        ⟨-, hnone⟩ | ⟨last, hlast, hnext⟩
      · rw [hnone]
        exact nofun
      · rw [hnext]
        have hmem : last ∈ behind f.db account templates (named.map Document.key) :=
          mem_of_mem_take (hpage ▸ mem_of_getLast? hlast)
        obtain ⟨hvisible, hfloor⟩ := mem_behind.1 hmem
        have hfresh : last.cursor ∉ seen := by
          intro hin
          obtain ⟨e, he, d, hd, hcursor, hbelow⟩ := hseen _ hin
          have hlt := hbelow _ hfloor
          have hslug : d.slug = last.slug := congrArg ListingCursor.afterSlug hcursor
          rcases hearlier e he f mem_cons_self d hd last hvisible.1 hslug with hup | heq
          · rcases Document.key_lt_iff.1 hlt with hdown | ⟨hsame, -⟩
            · exact lt_asymm hup hdown
            · exact hup.ne' hsame
          · exact hlt.ne heq
        simp only [if_neg hfresh]
        rw [hlast] at hrest
        have hnamed : ∀ k : Key, floorOf ((some last).map Document.key) < ↑k → last.key < k :=
          fun _ => WithBot.coe_lt_coe.1
        have hbetween : ∀ e ∈ f :: earlier, ∀ g ∈ fetches, Forward e g := by
          intro e he g hg
          rcases mem_cons.1 he with rfl | he
          · exact hfirst g hg
          · exact hearlier e he g (mem_cons_of_mem f hg)
        have hcursors : ∀ c ∈ last.cursor :: seen, ∃ e ∈ f :: earlier, ∃ d ∈ e.db.documents,
            d.cursor = c ∧ ∀ k : Key, floorOf ((some last).map Document.key) < ↑k → d.key < k := by
          intro c hc
          rcases mem_cons.1 hc with rfl | hc
          · exact ⟨f, mem_cons_self, last, hvisible.1, rfl, hnamed⟩
          · obtain ⟨e, he, d, hd, hcursor, hbelow⟩ := hseen c hc
            exact ⟨e, mem_cons_of_mem f he, d, hd, hcursor,
              fun k hk => (hbelow _ hfloor).trans (hnamed k hk)⟩
        have hnot := ih hlimits hrest hforward hbetween hcursors
        intro h
        cases hwalk : walk account templates (last.cursor :: seen) (some last.cursor) fetches with
        | ok rest => rw [hwalk] at h; cases h
        | error error =>
          rw [hwalk] at h
          exact hnot (hwalk.trans h)

/-- What a walk to the end delivers. -/
structure Delivers (account : Option ℕ) (templates : Bool) (fetches : List Fetch)
    (items : List Document) : Prop where
  ordered : (items.map Document.key).Pairwise (· < ·)
  once : ∀ d : Document, (∀ f ∈ fetches, ∃ e, Visible f.db account templates e ∧ e.key = d.key) →
    items.countP (fun e => e.id = d.id) = 1
  edited : ∀ d e, [d, e].Sublist items → d.id = e.id → d.updated ≠ e.updated

/-- A steady walk that comes to its end delivers what is visible throughout. -/
lemma delivers_of_steady (hlimits : ∀ f ∈ fetches, 1 ≤ f.limit ∧ f.limit ≤ 200)
    (hsteady : Steady account templates none fetches)
    (h : walk account templates [] none fetches = .ok pages) :
    Delivers account templates (fetches.take pages.length) pages.flatten := by
  obtain ⟨keys, hwalked, hserved, hstored⟩ := walked_of_steady hlimits hsteady h
  have hordered : (pages.flatten.map Document.key).Pairwise (· < ·) := hserved ▸ hwalked.rising.1
  refine ⟨hordered, fun d hd => ?_, fun d e hsub hid hupdated => ?_⟩
  · have hthroughout : ∀ p ∈ keys, p.stored d.key := by
      intro p hp
      have hin : p.stored ∈ keys.map Keyset.Page.stored := mem_map_of_mem hp
      rw [hstored] at hin
      obtain ⟨f, hf, heq⟩ := mem_map.1 hin
      rw [← heq]
      exact hd f hf
    have hmem : d.key ∈ pages.flatten.map Document.key :=
      hserved ▸ hwalked.mem_served (WithBot.bot_lt_coe _) hthroughout
    have hsame : ∀ e ∈ pages.flatten, e.id = d.id ↔ e.key = d.key := by
      intro e he
      refine ⟨fun hid => ?_, fun hkey => (Document.key_inj hkey).2⟩
      obtain ⟨p, hp, hwas⟩ := hwalked.was_stored (hserved ▸ mem_map_of_mem he)
      have hin : p.stored ∈ keys.map Keyset.Page.stored := mem_map_of_mem hp
      rw [hstored] at hin
      obtain ⟨f, hf, heq⟩ := mem_map.1 hin
      rw [← heq] at hwas
      obtain ⟨x, hx, hxe⟩ := hwas
      obtain ⟨y, hy, hyd⟩ := hd f hf
      have hxy : x = y := f.db.eq_of_id hx.1 hy.1
        ((Document.key_inj hxe).2.trans (hid.trans (Document.key_inj hyd).2.symm))
      rw [← hxe, hxy, hyd]
    have hcount := count_eq_one_of_mem (hordered.imp ne_of_lt) hmem
    rw [count, countP_map] at hcount
    rw [← hcount]
    refine countP_congr fun e he => ?_
    simp [hsame e he]
  · have hpair := hordered.sublist (hsub.map Document.key)
    refine (pairwise_cons.1 hpair).1 e.key (mem_singleton_self _) |>.ne ?_
    rw [Document.key, Document.key, hupdated, hid]

/-- As long as no project that a cursor names is edited before the next page is read, a walk that
comes to its end delivers what is visible throughout once and in order, and no cursor comes back.
Whatever is edited, a page fails only when the caller may not read the project of its cursor, and
says more exactly when something visible lies behind its last project. -/
theorem walk_complete {fetches : List Fetch}
    (hlimits : ∀ f ∈ fetches, 1 ≤ f.limit ∧ f.limit ≤ 200)
    (hsteady : Steady account templates none fetches) :
    (∀ pages, walk account templates [] none fetches = .ok pages →
      Delivers account templates (fetches.take pages.length) pages.flatten) ∧
    (fetches.Pairwise Forward → walk account templates [] none fetches ≠ .error .repeated) ∧
    ∀ f ∈ fetches, ∀ cursor,
      (∀ error, visiblePage f.db account cursor f.limit templates = .error error →
        ∃ c, cursor = some c ∧ ∀ d ∈ f.db.documents, d.slug = c.afterSlug →
          readableBy f.db account d = false) ∧
      ∀ page, visiblePage f.db account cursor f.limit templates = .ok page →
        (page.2 = true ↔ ∃ last d, page.1.getLast? = some last ∧
          Visible f.db account templates d ∧ last.key < d.key) :=
  ⟨fun _ => delivers_of_steady hlimits hsteady,
    fun hforward => walk_ne_repeated hlimits hsteady hforward (forall_mem_nil _) nofun,
    fun f hf _ => ⟨fun _ => visiblePage_error (hlimits f hf), fun _ => more_iff (hlimits f hf)⟩⟩

end Walks

/-- A project of account 7. -/
def paper (id : ℕ) (slug : String) (updated : ℤ) : Document where
  id := id
  slug := slug
  owner := 7
  unowned := false
  active := true
  moderated := false
  templatePending := false
  template := false
  updated := updated

/-- Five projects, the fourth of them last updated at this second. -/
def shelf (second : ℤ) : Database where
  documents := [paper 1 "one" (10 ^ 6), paper 2 "two" (2 * 10 ^ 6), paper 3 "three" (3 * 10 ^ 6),
    paper 4 "four" (second * 10 ^ 6), paper 5 "five" (5 * 10 ^ 6)]
  grants := []
  links := []
  now := 10 ^ 7
  ids := show [1, 2, 3, 4, 5].Nodup by decide
  slugs := show ["one", "two", "three", "four", "five"].Nodup by decide

/-- The fourth project is edited after the page that names it, and the fifth comes twice. -/
theorem fifth_delivered_twice :
    walk (some 7) false [] none [⟨shelf 4, 2⟩, ⟨shelf 6, 2⟩, ⟨shelf 6, 2⟩] =
      .ok [[paper 5 "five" (5 * 10 ^ 6), paper 4 "four" (4 * 10 ^ 6)],
        [paper 5 "five" (5 * 10 ^ 6), paper 3 "three" (3 * 10 ^ 6)],
        [paper 2 "two" (2 * 10 ^ 6), paper 1 "one" (10 ^ 6)]] ∧
    Visible (shelf 4) (some 7) false (paper 5 "five" (5 * 10 ^ 6)) ∧
    Visible (shelf 6) (some 7) false (paper 5 "five" (5 * 10 ^ 6)) := by
  refine ⟨by decide, ?_, ?_⟩ <;> exact ⟨by decide, by decide, by decide⟩

/-- While nothing is edited the five projects come once each, the newest first. -/
theorem still_walk_delivers :
    Delivers (some 7) false [⟨shelf 4, 2⟩, ⟨shelf 4, 2⟩, ⟨shelf 4, 2⟩]
      [paper 5 "five" (5 * 10 ^ 6), paper 4 "four" (4 * 10 ^ 6), paper 3 "three" (3 * 10 ^ 6),
        paper 2 "two" (2 * 10 ^ 6), paper 1 "one" (10 ^ 6)] := by
  have hlimits : ∀ f ∈ [Fetch.mk (shelf 4) 2, ⟨shelf 4, 2⟩, ⟨shelf 4, 2⟩],
      1 ≤ f.limit ∧ f.limit ≤ 200 := by simp
  have hstill : ∀ f ∈ [Fetch.mk (shelf 4) 2, ⟨shelf 4, 2⟩, ⟨shelf 4, 2⟩], f.db = shelf 4 := by simp
  have hsteady : Steady (some 7) false none [⟨shelf 4, 2⟩, ⟨shelf 4, 2⟩, ⟨shelf 4, 2⟩] :=
    steady_of_still hlimits hstill nofun
  exact (walk_complete hlimits hsteady).1
    [[paper 5 "five" (5 * 10 ^ 6), paper 4 "four" (4 * 10 ^ 6)],
      [paper 3 "three" (3 * 10 ^ 6), paper 2 "two" (2 * 10 ^ 6)], [paper 1 "one" (10 ^ 6)]]
    (by decide)

end LibrePaper.Listing
