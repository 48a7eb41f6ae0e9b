import LibrePaper.Track.Shown

/-!
# A conversion keeps what is shown

A conversion leaves the texts and the rows of every file as they were, and has nothing to do a
second time. What it needs of the records is that no two spans overlap, that spans resolve, and
that the records are not stored in two forms at once.
-/
namespace LibrePaper.Track
open Library Option

section Upgrades

variable {cursor : String → Bytes → Option Pos} {doc doc' : Document} {file id : String}

/-- A conversion puts one group of records into containers. -/
lemma convertLegacy_spec (hacyclic : Acyclic (legacyRecords doc.changes file))
    (hnested : Nested (legacyRecords doc.changes file)) (hunused : Unused doc.changes file)
    (h : convertLegacy doc file id = some doc') :
    doc'.texts = doc.texts ∧ ∃ outer, Converted doc.changes doc'.changes file outer ∧
      Leads (PointsAt (legacyRecords doc.changes file)) id outer.1.id := by
  unfold convertLegacy at h
  dsimp only at h
  split at h
  · exact absurd h nofun
  next hsome =>
    obtain ⟨outer, houter, rfl⟩ := map_eq_some_iff.1 h
    obtain ⟨v, hv⟩ := ne_none_iff_exists'.1 fun hnone =>
      hsome (isNone_iff_eq_none.2 hnone)
    have hid := (recordAt_eq_some (legacyRecords_sorted doc.changes file)).1 hv
    obtain ⟨hexpanded, hleads⟩ := outerOf_leads hacyclic hnested hid houter
    exact ⟨rfl, outer, converted_of_group hacyclic hnested hunused hexpanded
      (hleads.between .refl hleads.reach), hleads⟩

lemma convertLegacy_eq_none (hid : id ∉ (legacyRecords doc.changes file).map Prod.fst) :
    convertLegacy doc file id = none := by
  have hnone : (recordAt (legacyRecords doc.changes file) id).isNone = true := by
    rw [isNone_iff_eq_none, ← not_isSome_iff_eq_none]
    exact fun h => hid ((recordAt_isSome id).1 h)
  unfold convertLegacy
  rw [hnone]
  rfl

variable {outer : LegacyExpansion}

lemma Converted.resolveFile_other (h : Converted doc.changes doc'.changes file outer)
    (htexts : doc'.texts = doc.texts) {other : String} (hne : other ≠ file) :
    resolveFile cursor doc' other = resolveFile cursor doc other := by
  obtain ⟨hlegacy, hheld⟩ := h.others other hne
  unfold resolveFile readChanges readStored
  rw [htexts, hlegacy, hheld]

lemma Converted.resolveChanges (h : Converted doc.changes doc'.changes file outer)
    (htexts : doc'.texts = doc.texts) (hacyclic : Acyclic (legacyRecords doc.changes file))
    (hconv : Convertible (cursor file) doc.changes file) (other : String) :
    resolveChanges cursor doc' other = resolveChanges cursor doc other := by
  by_cases hne : other = file
  · subst hne
    unfold Track.resolveChanges resolveFile
    rw [htexts]
    cases doc.texts other with
    | none => rfl
    | some text =>
      obtain ⟨hchanges, hdeleted⟩ := h.rows hacyclic hconv
      dsimp only
      rw [hchanges]
      exact List.map_congr_left fun d hd => by rw [hdeleted d hd]
  · unfold Track.resolveChanges
    rw [h.resolveFile_other htexts hne]

/-- The records of the earlier model expand to their own texts, each in one place. Where they are
convertible, a conversion from any of them keeps the texts and the rows, and is not repeated. -/
theorem convertLegacy_keeps (cursor : String → Bytes → Option Pos) (doc : Document)
    (file : String) (hacyclic : Acyclic (legacyRecords doc.changes file)) :
    (∀ c v, (c, v) ∈ legacyRecords doc.changes file →
      ∃ x ∈ expandLegacy (legacyRecords doc.changes file),
        (textsOf c x.2).flatten = v.deleted ∧
          ∀ x' ∈ expandLegacy (legacyRecords doc.changes file),
            x'.1.id ≠ x.1.id → textsOf c x'.2 = []) ∧
    (Convertible (cursor file) doc.changes file → ∀ id doc', convertLegacy doc file id = some doc' →
      doc'.texts = doc.texts ∧
        (∀ other, resolveChanges cursor doc' other = resolveChanges cursor doc other) ∧
          convertLegacy doc' file id = none) := by
  refine ⟨fun _ _ => pieces_once hacyclic (legacyRecords_sorted doc.changes file),
    fun hconv id doc' h => ?_⟩
  obtain ⟨htexts, outer, hconverted, hleads⟩ :=
    convertLegacy_spec hacyclic hconv.nested hconv.unused h
  refine ⟨htexts, hconverted.resolveChanges htexts hacyclic hconv, convertLegacy_eq_none ?_⟩
  intro hid
  obtain ⟨⟨i, v⟩, he, rfl⟩ := List.mem_map.1 hid
  exact ((hconverted.legacy i v).1 he).2 hleads

end Upgrades

/-- Cursors that are written as their offsets. -/
def offsetCursor (_ : String) (c : Bytes) : Option Pos := c.head?.map fun u => ⟨u.toNat, false⟩

/-- A plain record of the file `page`. -/
def plainEntry (deleted : List Char) (start : Bytes) (stop : Option Bytes)
    (points : List (Option String × Option ℚ)) : Entry :=
  .plain ⟨some "page", some deleted, some start, stop, some "ann", some "Ann", none, some 1, points⟩

/-- A fragment of the file `page`. -/
def fragmentEntry (change : String) (text : List Char) (start : Bytes) (rank : ℚ) : Entry :=
  .held ⟨some .fragment, some "page", some "ann", some "Ann", none, some 1, some start, none,
    some change, some text, some rank⟩

/-- A document with the records of one file. -/
def pageWith (entries : List (String × Entry))
    (sorted : entries.Pairwise fun a b => a.1 < b.1) : Document where
  texts file := if file = "page" then some (List.replicate 10 'x') else none
  changes := ⟨entries, sorted⟩

/-- A deletion that another one swallowed, and a change of the later model. -/
def nestedPage : Document :=
  pageWith [("alice", plainEntry ['c'] [1] none []),
    ("bob", plainEntry ['b', 'd'] [1] (some [1]) [(some "alice", some 1)]),
    ("cara", .held ⟨some .change, some "page", some "cara", some "Cara", none, some 1, some [4],
      some [5], none, none, none⟩),
    ("cara-1", fragmentEntry "cara" ['e'] [4] 0)] (by decide)

lemma nestedPage_acyclic : Acyclic (legacyRecords nestedPage.changes "page") :=
  acyclic_of_rank (fun id => if id = "bob" then 1 else 0) (by decide)

lemma nestedPage_convertible :
    Convertible (offsetCursor "page") nestedPage.changes "page" where
  nested e he _ := by
    have hall : ∀ e ∈ legacyRecords nestedPage.changes "page", e.2.deleted ≠ [] := by decide
    exact hall e he
  unused := by
    have hall : ∀ x ∈ expandLegacy (legacyRecords nestedPage.changes "page"), ∀ f ∈ x.2,
        ∀ k ∈ f.1.id, k ∉ nestedPage.changes.entries.map Prod.fst := by decide
    exact hall
  unnamed k m hm _ c hc := by
    have hall : ∀ e ∈ heldRecords nestedPage.changes "page", ∀ c ∈ e.2.change,
        c ∉ (legacyRecords nestedPage.changes "page").map Prod.fst := by decide
    exact hall (k, m) hm c hc
  resolves e he stop hstop := by
    have hall : ∀ e ∈ legacyRecords nestedPage.changes "page", ∀ stop ∈ e.2.stop,
        (offsetCursor "page" e.2.start).isSome ∧ (offsetCursor "page" stop).isSome := by decide
    exact hall e he stop hstop
  apart := by
    unfold ApartAt
    decide

/-- Both deletions are converted from the one that was swallowed, and stay as they are shown. -/
theorem nestedPage_keeps : ∃ doc', convertLegacy nestedPage "page" "alice" = some doc' ∧
    legacyRecords doc'.changes "page" = [] ∧ ∀ other,
      resolveChanges offsetCursor doc' other = resolveChanges offsetCursor nestedPage other := by
  have hsome : (convertLegacy nestedPage "page" "alice").isSome := by decide
  have hnone : (convertLegacy nestedPage "page" "alice").all fun doc' =>
      decide (legacyRecords doc'.changes "page" = []) := by decide
  obtain ⟨doc', hdoc'⟩ := isSome_iff_exists.1 hsome
  rw [hdoc'] at hnone
  exact ⟨doc', hdoc', of_decide_eq_true hnone,
    ((convertLegacy_keeps offsetCursor nestedPage "page" nestedPage_acyclic).2
      nestedPage_convertible "alice" doc' hdoc').2.1⟩

/-- A fragment is inside two spans, and the one that is found first is converted. -/
def overlappingPage : Document :=
  pageWith [("a", plainEntry ['p'] [0] (some [9]) []), ("b", plainEntry ['q'] [2] (some [7]) []),
    ("c", plainEntry ['r'] [5] none [])] (by decide)

/-- The end of a span does not resolve. -/
def unresolvedPage : Document := pageWith [("a", plainEntry ['p'] [0] (some []) [])] (by decide)

/-- A record has the id of a derived fragment. -/
def takenPage : Document :=
  pageWith [("a", plainEntry ['p'] [0] none []), ("a:0", plainEntry ['q'] [3] none [])] (by decide)

/-- A fragment is stored of a record whose text is split at a record that is converted. -/
def namedPage : Document :=
  pageWith [("k", fragmentEntry "p" ['f'] [3] 1),
    ("o", plainEntry ['o'] [1] none [(some "s", some 0)]),
    ("p", plainEntry ['p', 'q'] [3] none [(some "s", some 1)]), ("s", plainEntry ['s'] [1] none [])]
    (by decide)

/-- A record without deleted text is pointed at, and points at another one. -/
def textlessPage : Document :=
  pageWith [("d", plainEntry [] [1] none [(some "e", some 0)]), ("e", plainEntry ['e'] [2] none []),
    ("y", plainEntry ['y'] [4] none [(some "e", some 0)]),
    ("z", plainEntry ['z'] [6] none [(some "d", some 0)])] (by decide)

/-- A page for each of the conditions that does not hold on it, and a record of that page. -/
def unkeptPages : List (Document × String) :=
  [(overlappingPage, "a"), (unresolvedPage, "a"), (takenPage, "a"), (namedPage, "o"),
    (textlessPage, "z")]

/-- Where one of the conditions does not hold, a conversion changes the rows. -/
theorem convertLegacy_moves :
    unkeptPages.Forall fun e => Acyclic (legacyRecords e.1.changes "page") ∧
      ((convertLegacy e.1 "page" e.2).any fun doc' => decide
        (resolveChanges offsetCursor doc' "page" ≠ resolveChanges offsetCursor e.1 "page")) := by
  let rank (id : String) : ℕ := ["s", "e", "d", "o", "p", "y", "z"].idxOf id
  have hrank : ∀ e ∈ unkeptPages, ∀ r ∈ legacyRecords e.1.changes "page", ∀ p ∈ r.2.points,
      rank p.1 < rank r.1 := by
    decide
  have hmoves : ∀ e ∈ unkeptPages, ((convertLegacy e.1 "page" e.2).any fun doc' => decide
      (resolveChanges offsetCursor doc' "page" ≠ resolveChanges offsetCursor e.1 "page")) := by
    decide
  exact List.forall_iff_forall_mem.2 fun e he =>
    ⟨acyclic_of_rank rank (hrank e he), hmoves e he⟩

end LibrePaper.Track
