import LibrePaper.Anchors.Memory
import LibrePaper.Library.Keyed
import LibrePaper.Library.Nested
import LibrePaper.Library.Utf8
import LibrePaper.Track.Records

/-!
# Records of the earlier model

The earlier model stored a change as one plain record: its span, its deleted text, and the pure
deletions that it swallowed, as points of that text. Such a record is read as the change and the
fragments that it stands for. A record that another one points at has its fragments among those of
the outermost record.
-/
namespace LibrePaper.Track
open Library List

/-- A plain record as it is stored. A field of another type reads as none. -/
structure PlainRecord where
  file : Option String
  deleted : Option (List Char)
  start : Option Bytes
  stop : Option Bytes
  who : Option String
  author : Option String
  run : Option String
  stamp : Option ℚ
  points : List (Option String × Option ℚ)
deriving DecidableEq

inductive Kind
  | change
  | fragment
deriving DecidableEq

/-- A record in a container of its own, as it is stored. -/
structure HeldRecord where
  kind : Option Kind
  file : Option String
  who : Option String
  author : Option String
  run : Option String
  stamp : Option ℚ
  start : Option Bytes
  stop : Option Bytes
  change : Option String
  text : Option (List Char)
  rank : Option ℚ
deriving DecidableEq

/-- A value of the root of changes. -/
inductive Entry
  | plain (v : PlainRecord)
  | held (m : HeldRecord)
  | other
deriving DecidableEq

/-- The root of changes of a document, by record id. -/
abbrev Root := Keyed String Entry

/-- A record of the earlier model: a change with the deleted text it owns, and the pure deletions
it swallowed, each with its offset in that text. -/
structure LegacyRecord where
  deleted : List Char
  start : Bytes
  stop : Option Bytes
  who : String
  author : String
  run : Option String
  stamp : ℤ
  points : List (String × ℕ)
deriving DecidableEq

/-- A number cut off to an integer, towards zero. -/
def cutOff (q : ℚ) : ℤ := if 0 ≤ q then ⌊q⌋ else ⌈q⌉

/-- The character at an offset in UTF-16 units. An offset inside a character names the next one. -/
def characterAt (text : List Char) (units : ℚ) : ℕ :=
  ceilAt Anchors.charLenUtf16 text (cutOff (max units 0)).toNat

/-- Reads a plain record of a file. -/
def legacyRecord (file : String) (v : PlainRecord) : Option LegacyRecord :=
  if v.file = some file then
    v.deleted.bind fun deleted => v.start.map fun start =>
      { deleted := deleted
        start := start
        stop := v.stop
        who := v.who.getD ""
        author := v.author.getD ""
        run := v.run
        stamp := (v.stamp.map cutOff).getD 0
        points := v.points.filterMap fun p =>
          p.2.bind fun units => p.1.map fun id => (id, characterAt deleted units) }
  else none

/-- The records of the earlier model that belong to a file, by id. -/
def legacyRecords (root : Root) (file : String) : List (String × LegacyRecord) :=
  root.entries.filterMap fun e =>
    match e.2 with
    | .plain v => (legacyRecord file v).map fun r => (e.1, r)
    | _ => none

section Records

variable (records : List (String × LegacyRecord))

/-- The record under an id. -/
def recordAt (id : String) : Option LegacyRecord :=
  (records.find? fun e => e.1 = id).map Prod.snd

/-- The points of a record that are expanded in its own text. A point that another point lists too
is left to that one. -/
def keptPoints (v : LegacyRecord) : List (String × ℕ) :=
  let known := v.points.filter fun p => (recordAt records p.1).isSome
  let inner := known.flatMap fun p => ((recordAt records p.1).map LegacyRecord.points).getD []
  sortByKey Prod.snd (known.filter fun p => p.1 ∉ inner.map Prod.fst)

/-- A text split at points. -/
def splitAtPoints (text : List Char) : ℕ → List (String × ℕ) → List (Part String (List Char))
  | cursor, [] => if cursor < text.length then [.own (text.drop cursor)] else []
  | cursor, p :: kept =>
    (if cursor < p.2 then [.own ((text.take p.2).drop cursor)] else []) ++
      .ref p.1 :: splitAtPoints text (max cursor p.2) kept

/-- The deleted text of a record, split at its points. -/
def legacyParts (id : String) : Option (List (Part String (List Char))) :=
  (recordAt records id).map fun v => splitAtPoints v.deleted 0 (keptPoints records v)

/-- Another record points at this one. -/
def pointed (id : String) : Bool := records.any fun e => e.2.points.any fun p => p.1 = id

end Records

/-- A record of the earlier model as the change it stands for. -/
structure LegacyChange where
  id : String
  who : String
  author : String
  run : Option String
  stamp : ℤ
  start : Bytes
  stop : Option Bytes
deriving DecidableEq

/-- A change with its fragments, each with the cursor that it is anchored on. -/
abbrev LegacyExpansion := LegacyChange × List (Fragment × Bytes)

def legacyChange (e : String × LegacyRecord) : LegacyChange :=
  ⟨e.1, e.2.who, e.2.author, e.2.run, e.2.stamp, e.2.start, e.2.stop⟩

/-- The id of a derived fragment. -/
def fragmentId (id : String) (i : ℕ) : String := id ++ ":" ++ toString i

def legacyFragment (e : String × LegacyRecord) (i : ℕ) (piece : String × List Char) :
    Fragment × Bytes :=
  ({ id := some (fragmentId e.1 i), change := piece.1, text := piece.2, rank := some (i : ℚ),
     stale := false }, e.2.start)

/-- Each record of the earlier model as the change it stands for, with the fragments of its text
and of the records that it is the first to hold. -/
def expandLegacy (records : List (String × LegacyRecord)) : List LegacyExpansion :=
  List.zipWith (fun e pieces => (legacyChange e, pieces.2.mapIdx (legacyFragment e))) records
    (expandEach (legacyParts records) (pointed records) (records.length + 1)
      (records.map Prod.fst) [])

lemma ceilAt_le_length {α : Type*} (w : α → ℕ) (l : List α) (u : ℕ) :
    ceilAt w l u ≤ l.length := by
  induction l generalizing u with
  | nil => exact le_rfl
  | cons a l ih =>
    rw [ceilAt]
    split
    · exact Nat.zero_le _
    · exact Nat.succ_le_succ (ih _)

lemma legacyRecords_sorted (root : Root) (file : String) :
    (legacyRecords root file).Pairwise fun a b => a.1 < b.1 := by
  refine Pairwise.filterMap _ (fun a b hab x hx y hy => ?_) root.sorted
  have hkey : ∀ (e : String × Entry) (x : String × LegacyRecord), (match e.2 with
      | .plain v => (legacyRecord file v).map fun r => (e.1, r)
      | _ => none) = some x → x.1 = e.1 := fun e x hx => by
    split at hx
    · obtain ⟨r, -, rfl⟩ := Option.map_eq_some_iff.1 hx
      rfl
    · exact absurd hx nofun
  rw [hkey a x hx, hkey b y hy]
  exact hab

variable {file id : String} {v : LegacyRecord} {text : List Char} {cursor : ℕ}
  {kept : List (String × ℕ)}

lemma mem_legacyRecords {root : Root} :
    (id, v) ∈ legacyRecords root file ↔
      ∃ p, (id, Entry.plain p) ∈ root.entries ∧ legacyRecord file p = some v := by
  constructor
  · intro h
    obtain ⟨⟨k, e⟩, he, hx⟩ := mem_filterMap.1 h
    dsimp only at hx
    split at hx
    next p =>
      obtain ⟨r, hr, hrv⟩ := Option.map_eq_some_iff.1 hx
      cases hrv
      exact ⟨p, he, hr⟩
    · exact absurd hx nofun
  · rintro ⟨p, he, hp⟩
    exact mem_filterMap.2 ⟨_, he, by simp [hp]⟩

lemma legacyRecord_points {p : PlainRecord} (h : legacyRecord file p = some v) :
    ∀ q ∈ v.points, q.2 ≤ v.deleted.length := by
  unfold legacyRecord at h
  split at h
  · obtain ⟨deleted, -, hstart⟩ := Option.bind_eq_some_iff.1 h
    obtain ⟨start, -, rfl⟩ := Option.map_eq_some_iff.1 hstart
    intro q hq
    obtain ⟨x, -, hx⟩ := mem_filterMap.1 hq
    obtain ⟨units, -, hid⟩ := Option.bind_eq_some_iff.1 hx
    obtain ⟨id, -, rfl⟩ := Option.map_eq_some_iff.1 hid
    exact ceilAt_le_length _ _ _
  · exact absurd h nofun

lemma ref_mem_splitAtPoints :
    Part.ref id ∈ splitAtPoints text cursor kept ↔ id ∈ kept.map Prod.fst := by
  induction kept generalizing cursor with
  | nil =>
    rw [splitAtPoints]
    split <;> simp
  | cons p kept ih =>
    rw [splitAtPoints, mem_append, mem_cons, ih, map_cons, mem_cons]
    constructor
    · rintro (h | h | h)
      · split at h <;> simp at h
      · exact .inl (Part.ref.inj h)
      · exact .inr h
    · rintro (rfl | h)
      · exact .inr (.inl rfl)
      · exact .inr (.inr h)

/-- The pieces of a split text are the text. -/
lemma flatten_splitAtPoints (text : List Char) (cursor : ℕ) (kept : List (String × ℕ)) :
    ((splitAtPoints text cursor kept).filterMap Part.piece?).flatten = text.drop cursor := by
  induction kept generalizing cursor with
  | nil =>
    rw [splitAtPoints]
    split
    · simp [Part.piece?]
    next h => simp [drop_eq_nil_of_le (Nat.le_of_not_lt h)]
  | cons p kept ih =>
    rw [splitAtPoints, filterMap_append, flatten_append, filterMap_cons]
    change _ ++ ((splitAtPoints text (max cursor p.2) kept).filterMap Part.piece?).flatten = _
    rw [ih]
    split
    next h =>
      have hmax : max cursor p.2 = p.2 := max_eq_right h.le
      have hdrop : (text.drop cursor).drop (p.2 - cursor) = text.drop p.2 := by
        rw [drop_drop, Nat.add_sub_cancel' h.le]
      rw [hmax, ← hdrop, drop_take]
      simp [Part.piece?]
    next h => simp [max_eq_left (Nat.le_of_not_lt h)]

lemma splitAtPoints_ne_nil (hkept : ∀ p ∈ kept, p.2 ≤ text.length) {piece : List Char}
    (h : Part.own piece ∈ splitAtPoints text cursor kept) : piece ≠ [] := by
  induction kept generalizing cursor with
  | nil =>
    rw [splitAtPoints] at h
    split at h
    next hlt =>
      obtain rfl := Part.own.inj (mem_singleton.1 h)
      exact ne_nil_of_length_pos (by rw [length_drop]; omega)
    · exact absurd h not_mem_nil
  | cons p kept ih =>
    rw [splitAtPoints, mem_append, mem_cons] at h
    rcases h with h | h | h
    · split at h
      next hlt =>
        obtain rfl := Part.own.inj (mem_singleton.1 h)
        have hle := hkept p mem_cons_self
        exact ne_nil_of_length_pos (by rw [length_drop, length_take]; omega)
      · exact absurd h not_mem_nil
    · exact absurd h nofun
    · exact ih (fun p hp => hkept p (mem_cons_of_mem _ hp)) h

section Expanded

variable {records : List (String × LegacyRecord)}

/-- A record names another one among its points. -/
def PointsAt (records : List (String × LegacyRecord)) (a b : String) : Prop :=
  ∃ v, (a, v) ∈ records ∧ b ∈ v.points.map Prod.fst ∧ b ∈ records.map Prod.fst

/-- No record leads back to itself. -/
def Acyclic (records : List (String × LegacyRecord)) : Prop :=
  ∀ a, ¬ Relation.TransGen (PointsAt records) a a

lemma recordAt_eq_some (hsorted : records.Pairwise fun a b => a.1 < b.1) :
    recordAt records id = some v ↔ (id, v) ∈ records := by
  have hnodup : (records.map Prod.fst).Nodup := pairwise_map.2 (hsorted.imp ne_of_lt)
  constructor
  · intro h
    obtain ⟨e, he, rfl⟩ := Option.map_eq_some_iff.1 h
    have hid : e.1 = id := by simpa using find?_some he
    exact hid ▸ mem_of_find?_eq_some he
  · intro h
    unfold recordAt
    cases hfind : records.find? fun e => e.1 = id with
    | none => exact absurd (find?_eq_none.1 hfind _ h) (by simp)
    | some e =>
      have hid : e.1 = id := by simpa using find?_some hfind
      have heq : e = (id, v) := inj_on_of_nodup_map hnodup (mem_of_find?_eq_some hfind) h hid
      rw [heq]
      rfl

lemma recordAt_isSome (id : String) :
    (recordAt records id).isSome ↔ id ∈ records.map Prod.fst := by
  rw [recordAt, Option.isSome_map, find?_isSome, mem_map]
  simp

lemma legacyParts_isSome (id : String) :
    (legacyParts records id).isSome ↔ id ∈ records.map Prod.fst := by
  rw [legacyParts, Option.isSome_map, recordAt_isSome]

lemma pointed_iff (hid : id ∈ records.map Prod.fst) :
    pointed records id = true ↔ ∃ a, PointsAt records a id := by
  simp only [pointed, any_eq_true, decide_eq_true_eq]
  constructor
  · rintro ⟨⟨a, v⟩, he, p, hp, rfl⟩
    exact ⟨a, v, he, mem_map_of_mem hp, hid⟩
  · rintro ⟨a, v, he, hp, -⟩
    obtain ⟨p, hp', rfl⟩ := mem_map.1 hp
    exact ⟨_, he, p, hp', rfl⟩

variable {a b c : String} {x : LegacyExpansion}

lemma PointsAt.mem (h : PointsAt records a b) : a ∈ records.map Prod.fst := by
  obtain ⟨v, hv, -, -⟩ := h
  exact mem_map_of_mem hv

lemma Acyclic.founded (h : Acyclic records) : WellFounded (PointsAt records) :=
  founded_of_acyclic (finite_toSet (records.map Prod.fst)) (fun _ _ hab => hab.mem) h

lemma acyclic_of_rank (rank : String → ℕ)
    (h : ∀ e ∈ records, ∀ p ∈ e.2.points, rank p.1 < rank e.1) : Acyclic records := by
  have hlt : ∀ {a b}, PointsAt records a b → rank b < rank a := fun hab => by
    obtain ⟨v, hv, hb, -⟩ := hab
    obtain ⟨p, hp, rfl⟩ := mem_map.1 hb
    exact h _ hv p hp
  have hall : ∀ {a b}, Relation.TransGen (PointsAt records) a b → rank b < rank a := fun hab => by
    induction hab with
    | single hab => exact hlt hab
    | tail _ hbc ih => exact (hlt hbc).trans ih
  exact fun a ha => lt_irrefl _ (hall ha)

/-- A point is expanded in the record's own text, or in that of another point. -/
lemma mem_keptPoints (hsorted : records.Pairwise fun a b => a.1 < b.1) :
    b ∈ (keptPoints records v).map Prod.fst ↔
      b ∈ v.points.map Prod.fst ∧ b ∈ records.map Prod.fst ∧
        ∀ q ∈ v.points.map Prod.fst, ¬ PointsAt records q b := by
  have hinner : ∀ b, b ∈ records.map Prod.fst →
      (b ∈ ((v.points.filter fun p => (recordAt records p.1).isSome).flatMap fun p =>
        ((recordAt records p.1).map LegacyRecord.points).getD []).map Prod.fst ↔
      ∃ q ∈ v.points.map Prod.fst, PointsAt records q b) := fun b hb => by
    simp only [mem_map, mem_flatMap, mem_filter]
    constructor
    · rintro ⟨p, ⟨q, ⟨hq, -⟩, hp⟩, rfl⟩
      cases hat : recordAt records q.1 with
      | none =>
        rw [hat] at hp
        exact absurd hp not_mem_nil
      | some w =>
        rw [hat] at hp
        exact ⟨q.1, ⟨q, hq, rfl⟩, w, (recordAt_eq_some hsorted).1 hat, mem_map_of_mem hp, hb⟩
    · rintro ⟨_, ⟨q, hq, rfl⟩, w, hw, hp, -⟩
      obtain ⟨p, hp', rfl⟩ := mem_map.1 hp
      have hat := (recordAt_eq_some hsorted).2 hw
      exact ⟨p, ⟨q, ⟨hq, by rw [hat]; rfl⟩, by rw [hat]; exact hp'⟩, rfl⟩
  constructor
  · intro h
    obtain ⟨p, hp, rfl⟩ := mem_map.1 h
    rw [keptPoints, mem_sortByKey, mem_filter, mem_filter] at hp
    obtain ⟨⟨hp, hknown⟩, hkept⟩ := hp
    have hknown := (recordAt_isSome p.1).1 hknown
    refine ⟨mem_map_of_mem hp, hknown, fun q hq hqb => ?_⟩
    exact of_decide_eq_true hkept ((hinner p.1 hknown).2 ⟨q, hq, hqb⟩)
  · rintro ⟨hp, hknown, hkept⟩
    obtain ⟨p, hp', rfl⟩ := mem_map.1 hp
    refine mem_map_of_mem ?_
    rw [keptPoints, mem_sortByKey, mem_filter, mem_filter]
    refine ⟨⟨hp', (recordAt_isSome p.1).2 hknown⟩, decide_eq_true fun hin => ?_⟩
    obtain ⟨q, hq, hqb⟩ := (hinner p.1 hknown).1 hin
    exact hkept q hq hqb

lemma holds_iff (hsorted : records.Pairwise fun a b => a.1 < b.1) :
    Holds (legacyParts records) a b ↔
      ∃ v, (a, v) ∈ records ∧ b ∈ (keptPoints records v).map Prod.fst := by
  constructor
  · rintro ⟨l, hl, hb, -⟩
    obtain ⟨v, hv, rfl⟩ := Option.map_eq_some_iff.1 hl
    exact ⟨v, (recordAt_eq_some hsorted).1 hv, ref_mem_splitAtPoints.1 hb⟩
  · rintro ⟨v, hv, hb⟩
    refine ⟨splitAtPoints v.deleted 0 (keptPoints records v), ?_, ref_mem_splitAtPoints.2 hb, ?_⟩
    · rw [legacyParts, (recordAt_eq_some hsorted).2 hv]
      rfl
    · exact (legacyParts_isSome b).2 ((mem_keptPoints hsorted).1 hb).2.1

lemma Acyclic.follows (h : Acyclic records) (hsorted : records.Pairwise fun a b => a.1 < b.1) :
    Follows (legacyParts records) (PointsAt records) (records.map Prod.fst).toFinset where
  sound a b hab := by
    obtain ⟨v, hv, hb⟩ := (holds_iff hsorted).1 hab
    obtain ⟨hpoint, hknown, -⟩ := (mem_keptPoints hsorted).1 hb
    exact ⟨v, hv, hpoint, hknown⟩
  complete a b hab := by
    obtain ⟨v, hv, hpoint, hknown⟩ := hab
    refine or_iff_not_imp_left.2 fun hno => ?_
    by_contra hq
    refine hno ((holds_iff hsorted).2 ⟨v, hv, (mem_keptPoints hsorted).2
      ⟨hpoint, hknown, fun q hq' hqb => hq ⟨q, ⟨v, hv, hq', hqb.mem⟩, hqb⟩⟩⟩)
  listed a ha := mem_toFinset.2 ((legacyParts_isSome a).1 ha)
  founded := h.founded

/-- The deleted texts of a change among fragments, in their order. -/
def textsOf (c : String) (fragments : List (Fragment × Bytes)) : List (List Char) :=
  (fragments.filter fun f => f.1.change = c).map fun f => f.1.text

lemma textsOf_mapIdx (e : String × LegacyRecord) (c : String)
    (pieces : List (String × List Char)) :
    textsOf c (pieces.mapIdx (legacyFragment e)) = ownedBy c pieces := by
  have h : ∀ (f : ℕ → String × List Char → Fragment × Bytes),
      (∀ i p, (f i p).1.change = p.1 ∧ (f i p).1.text = p.2) →
      textsOf c (pieces.mapIdx f) = ownedBy c pieces := by
    induction pieces with
    | nil => exact fun _ _ => rfl
    | cons p pieces ih =>
      intro f hf
      have hrest := ih (fun i => f (i + 1)) fun i => hf (i + 1)
      rw [mapIdx_cons]
      unfold textsOf ownedBy at hrest ⊢
      rw [filter_cons, filter_cons, (hf 0 p).1]
      split
      · rw [map_cons, map_cons, hrest, (hf 0 p).2]
      · exact hrest
  exact h _ fun _ _ => ⟨rfl, rfl⟩

lemma mem_expandLegacy (hx : x ∈ expandLegacy records) :
    ∃ e ∈ records, ∃ pieces, (e.1, pieces) ∈ expandEach (legacyParts records) (pointed records)
        (records.length + 1) (records.map Prod.fst) [] ∧
      x = (legacyChange e, pieces.mapIdx (legacyFragment e)) := by
  have hkeys : (expandEach (legacyParts records) (pointed records) (records.length + 1)
      (records.map Prod.fst) []).map Prod.fst = records.map Prod.fst := expandEach_keys _ _ _ _
  obtain ⟨e, he, pieces, hpieces, hkey, rfl⟩ := mem_zipWith_of_keys hkeys hx
  exact ⟨e, he, pieces.2, hkey ▸ hpieces, rfl⟩

lemma exists_mem_expandLegacy {e : String × LegacyRecord} (he : e ∈ records) :
    ∃ x ∈ expandLegacy records, x.1 = legacyChange e := by
  have hkeys : (expandEach (legacyParts records) (pointed records) (records.length + 1)
      (records.map Prod.fst) []).map Prod.fst = records.map Prod.fst := expandEach_keys _ _ _ _
  obtain ⟨pieces, -, -, hmem⟩ := exists_mem_zipWith hkeys he
  exact ⟨_, hmem, rfl⟩

lemma ownPieces_legacy (hsorted : records.Pairwise fun a b => a.1 < b.1) (hc : (c, v) ∈ records) :
    (ownPieces (legacyParts records) c).flatten = v.deleted := by
  rw [ownPieces, legacyParts, (recordAt_eq_some hsorted).2 hc, Option.map_some,
    Option.getD_some, flatten_splitAtPoints, drop_zero]

/-- A record is expanded at the outermost record that leads it, and nowhere else. -/
lemma expansion_leads (hacyclic : Acyclic records)
    (hsorted : records.Pairwise fun a b => a.1 < b.1) (hx : x ∈ expandLegacy records)
    (hc : (c, v) ∈ records) :
    (Leads (PointsAt records) c x.1.id → (textsOf c x.2).flatten = v.deleted) ∧
      (textsOf c x.2 ≠ [] → Leads (PointsAt records) c x.1.id) := by
  obtain ⟨e, he, pieces, hpieces, rfl⟩ := mem_expandLegacy hx
  have hcard : (records.map Prod.fst).toFinset.card < records.length + 1 :=
    Nat.lt_succ_of_le ((toFinset_card_le _).trans (length_map _).le)
  obtain ⟨hpos, hneg⟩ := expandEach_leads (hacyclic.follows hsorted) hcard
    (pairwise_map.2 hsorted) (fun id => (legacyParts_isSome id).symm)
    (fun _ => pointed_iff)
    (fun a b hab => (legacyParts_isSome a).2 hab.mem) hpieces
    ((legacyParts_isSome c).2 (mem_map_of_mem hc))
  rw [textsOf_mapIdx]
  exact ⟨fun hl => by rw [hpos hl, ownPieces_legacy hsorted hc], hneg⟩

lemma expandLegacy_ids (records : List (String × LegacyRecord)) :
    (expandLegacy records).map (fun x => x.1.id) = records.map Prod.fst := by
  have hkeys : (expandEach (legacyParts records) (pointed records) (records.length + 1)
      (records.map Prod.fst) []).map Prod.fst = records.map Prod.fst := expandEach_keys _ _ _ _
  have hlength := congrArg length hkeys
  rw [length_map, length_map] at hlength
  refine ext_getElem ?_ fun i hi hi' => ?_
  · rw [length_map, expandLegacy, length_zipWith, length_map, hlength, min_self]
  · simp [expandLegacy, legacyChange]

/-- A fragment holds a piece of the record that it names. -/
lemma mem_expansion (hsorted : records.Pairwise fun a b => a.1 < b.1)
    (hpoints : ∀ e ∈ records, ∀ q ∈ e.2.points, q.2 ≤ e.2.deleted.length)
    (hx : x ∈ expandLegacy records) {f : Fragment × Bytes} (hf : f ∈ x.2) :
    f.1.change ∈ records.map Prod.fst ∧ f.1.text ≠ [] := by
  obtain ⟨e, -, pieces, hpieces, rfl⟩ := mem_expandLegacy hx
  obtain ⟨i, hi, rfl⟩ := mem_mapIdx.1 hf
  have hown : pieces[i].2 ∈ ownPieces (legacyParts records) pieces[i].1 :=
    mem_expandEach hpieces (getElem_mem hi : (pieces[i].1, pieces[i].2) ∈ pieces)
  obtain ⟨part, hpart, hpiece⟩ := mem_filterMap.1 hown
  cases hparts : legacyParts records pieces[i].1 with
  | none =>
    rw [hparts] at hpart
    exact absurd hpart not_mem_nil
  | some l =>
    have hknown : pieces[i].1 ∈ records.map Prod.fst :=
      (legacyParts_isSome pieces[i].1).1 (by rw [hparts]; rfl)
    refine ⟨hknown, ?_⟩
    obtain ⟨v, hv, rfl⟩ := Option.map_eq_some_iff.1 hparts
    rw [hparts, Option.getD_some] at hpart
    cases part with
    | ref => exact absurd hpiece nofun
    | own b =>
      obtain rfl : b = pieces[i].2 := Option.some.inj hpiece
      refine splitAtPoints_ne_nil (fun q hq => ?_) hpart
      have hmem := (recordAt_eq_some hsorted).1 hv
      rw [keptPoints, mem_sortByKey] at hq
      exact hpoints _ hmem q (mem_filter.1 (mem_filter.1 hq).1).1

lemma textsOf_eq_nil {fragments : List (Fragment × Bytes)} :
    textsOf c fragments = [] ↔ ∀ f ∈ fragments, f.1.change ≠ c := by
  simp [textsOf, filter_eq_nil_iff]

/-- Every record has an expansion that leads it. -/
lemma exists_expansion_leads (hacyclic : Acyclic records) (hc : c ∈ records.map Prod.fst) :
    ∃ x ∈ expandLegacy records, Leads (PointsAt records) c x.1.id := by
  obtain ⟨y, hy⟩ := exists_leads hacyclic.founded (finite_toSet (records.map Prod.fst))
    (fun _ _ hab => hab.mem) c
  have hyknown : y ∈ records.map Prod.fst := by
    rcases hy.reach.cases_head with rfl | ⟨b, hyb, -⟩
    · exact hc
    · exact hyb.mem
  obtain ⟨e, he, rfl⟩ := mem_map.1 hyknown
  obtain ⟨x, hx, hxe⟩ := exists_mem_expandLegacy he
  have hid : x.1.id = e.1 := congrArg LegacyChange.id hxe
  exact ⟨x, hx, hid ▸ hy⟩

lemma pieces_once (hacyclic : Acyclic records) (hsorted : records.Pairwise fun a b => a.1 < b.1)
    (hc : (c, v) ∈ records) :
    ∃ x ∈ expandLegacy records, (textsOf c x.2).flatten = v.deleted ∧
      ∀ x' ∈ expandLegacy records, x'.1.id ≠ x.1.id → textsOf c x'.2 = [] := by
  obtain ⟨x, hx, hl⟩ := exists_expansion_leads hacyclic (mem_map_of_mem hc)
  refine ⟨x, hx, (expansion_leads hacyclic hsorted hx hc).1 hl, fun x' hx' hne => ?_⟩
  by_contra htexts
  exact hne (((expansion_leads hacyclic hsorted hx' hc).2 htexts).unique hl)

end Expanded

end LibrePaper.Track
