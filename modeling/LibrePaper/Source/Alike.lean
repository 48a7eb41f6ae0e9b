import LibrePaper.Anchors.Units
import LibrePaper.Source.Mirror

/-!
# Documents that the browser projects as the server does

When both find the same names for everything that asks for a path, they place everything alike.
When their two orders agree on what is noticed, they list it alike.
-/
namespace LibrePaper.Source
open Library List
open Browser (Config Refusal strip isSpace)

/-- A text that neither trims. -/
def Trimmed (text : List Char) : Prop := Clean isWhitespace text ∧ Clean isSpace text

lemma splitExtension_join (path : Path) :
    (splitExtension path).1 ++ (splitExtension path).2 = path := by
  unfold splitExtension
  dsimp only
  split_ifs
  · exact take_append_drop _ _
  · exact append_nil path

lemma clean_suffixed {space : Char → Bool} (hclose : space ')' = false) {path : Path}
    (hne : path ≠ []) (h : Clean space path) (nth : ℕ) : Clean space (suffixed path nth) := by
  have hjoin := splitExtension_join path
  unfold suffixed
  dsimp only
  split_ifs with hstem
  · generalize (splitExtension path).1 = stem at hjoin hstem
    generalize (splitExtension path).2 = extension at hjoin hstem
    subst hjoin
    have hhead : stem.head?.any space = false := by
      have hall := h.1
      rwa [head?_append_of_ne_nil _ hstem.1] at hall
    refine ⟨?_, ?_⟩
    · rwa [append_assoc, append_assoc, append_assoc,
        head?_append_of_ne_nil _ hstem.1]
    · by_cases hext : extension = []
      · rw [hext, append_nil, getLast?_concat]
        exact hclose
      · have hall := h.2
        rw [getLast?_append_of_ne_nil _ hext] at hall
        rwa [getLast?_append_of_ne_nil _ hext]
  · refine ⟨?_, ?_⟩
    · rw [append_assoc, append_assoc, head?_append_of_ne_nil _ hne]
      exact h.1
    · rw [getLast?_concat]
      exact hclose

variable {path : Path}

lemma Trimmed.suffixed (h : Trimmed path) (hne : path ≠ []) (nth : ℕ) :
    Trimmed (suffixed path nth) :=
  ⟨clean_suffixed (by decide) hne h.1 nth, clean_suffixed (by decide) hne h.2 nth⟩

section Names
variable {u : Unicode} (h : Composes u)
include h

lemma clean_normalise (path : Path) : Clean isWhitespace (normalise u path) := by
  rw [normalise, h.server, h.trim]
  exact clean_strip isWhitespace path

lemma clean_normalise_browser (path : Path) :
    Clean isSpace (normalise (u.browser h) path) :=
  (h.browser _).2 (clean_strip isSpace path)

lemma normalise_trimmed (hpath : Trimmed path) :
    normalise (u.browser h) path = normalise u path := by
  rw [normalise, normalise, h.trim, strip_of_clean hpath.1]
  exact congrArg u.nfc (strip_of_clean hpath.2)

lemma free_trimmed (taken : List Path) (hpath : Trimmed path) :
    free (u.browser h) taken path = free u taken path := by
  have hkey : collisionKey (u.browser h) path = collisionKey u path :=
    congrArg u.lower (normalise_trimmed h hpath)
  unfold free
  rw [hkey]

end Names

lemma name_ne_nil {u : Unicode} {rules : Rules} {kind : Kind}
    (h : admission u rules path = .ok kind) : normalise u path ≠ [] := by
  intro hnil
  unfold admission at h
  dsimp only at h
  rw [if_pos hnil] at h
  cases h

section Alike
variable {u : Unicode} (h : Composes u) (config : Config) (doc : Document)

/-- Both refuse a candidate, or both accept it under one name. -/
def Agreed (c : Candidate) : Prop :=
  (refusal u config.rules c ≠ none ∧ refusal (u.browser h) config.shown c ≠ none) ∨
    (refusal u config.rules c = none ∧ refusal (u.browser h) config.shown c = none ∧
      c.name u = c.name (u.browser h))

/-- The order of the browser is the one of the server on what is noticed of a document. -/
def Ordered (u : Unicode) (rules : Rules) (doc : Document) : Prop :=
  ∀ d ∈ noticed u rules doc, ∀ e ∈ noticed u rules doc, d.sortKey ≤ e.sortKey →
    Browser.compareKeys (Browser.diagnosticSortKey d) (Browser.diagnosticSortKey e) ≤ 0

/-- Both find the same names in a document, and the same order of what is noticed. -/
structure Alike : Prop where
  agreed : ∀ c ∈ textCandidates doc ++ assetCandidates doc, Agreed h config c
  ordered : Ordered u config.rules doc

variable {h config doc}

variable {c : Candidate}

lemma Agreed.isNone (hc : Agreed h config c) :
    (refusal (u.browser h) config.shown c).isNone = (refusal u config.rules c).isNone := by
  rw [Bool.eq_iff_iff, Option.isNone_iff_eq_none, Option.isNone_iff_eq_none]
  rcases hc with ⟨hserver, hbrowser⟩ | ⟨hserver, hbrowser, -⟩
  · exact iff_of_false hbrowser hserver
  · exact iff_of_true hbrowser hserver

variable (ha : ∀ c ∈ textCandidates doc ++ assetCandidates doc, Agreed h config c)
include ha

lemma candidates_agreed : candidates (u.browser h) config.shown doc =
    candidates u config.rules doc := by
  unfold candidates
  exact congrArg _ (filter_congr fun c hc => (ha c hc).isNone)

lemma name_agreed (hc : c ∈ candidates u config.rules doc) :
    c.name (u.browser h) = c.name u ∧ Trimmed (c.name u) ∧ c.name u ≠ [] := by
  obtain ⟨hmem, hok⟩ := mem_candidates.1 hc
  have hname : c.name u = c.name (u.browser h) := by
    rcases ha c (mem_append.2 hmem) with ⟨hserver, -⟩ | ⟨-, -, hname⟩
    · exact absurd (refusal_eq_none.2 hok) hserver
    · exact hname
  refine ⟨hname.symm, ⟨clean_normalise h _, ?_⟩, name_ne_nil hok⟩
  rw [hname]
  exact clean_normalise_browser h _

lemma reserve_agreed (r : Reserved) (hc : c ∈ candidates u config.rules doc) :
    r.reserve (u.browser h) c = r.reserve u c := by
  obtain ⟨hname, htrimmed, -⟩ := name_agreed ha hc
  have hkey : collisionKey (u.browser h) (c.name u) = collisionKey u (c.name u) :=
    congrArg u.lower (normalise_trimmed h htrimmed)
  have hfree : free (u.browser h) r.taken (c.name (u.browser h)) = free u r.taken (c.name u) := by
    rw [hname, free_trimmed h _ htrimmed]
  by_cases hserver : free u r.taken (c.name u) = true
  · rw [reserve_free hserver, reserve_free (hfree.trans hserver), hname, hkey]
  · rw [reserve_taken hserver, reserve_taken (hfree ▸ hserver)]

lemma suffix_agreed (s : List Path × List (Path × Candidate) × List Diagnostic)
    (hc : c ∈ candidates u config.rules doc) : suffix (u.browser h) s c = suffix u s c := by
  obtain ⟨hname, htrimmed, hne⟩ := name_agreed ha hc
  have hattempt : ∀ nth, free (u.browser h) s.1 (suffixed (c.name u) nth) =
      free u s.1 (suffixed (c.name u) nth) := fun nth => free_trimmed h _ (htrimmed.suffixed hne nth)
  have hkey : ∀ nth, collisionKey (u.browser h) (suffixed (c.name u) nth) =
      collisionKey u (suffixed (c.name u) nth) := fun nth =>
    congrArg u.lower (normalise_trimmed h (htrimmed.suffixed hne nth))
  have hbrowser : normalise (u.browser h) c.requested = c.name u := hname
  have hserver : normalise u c.requested = c.name u := rfl
  unfold suffix
  simp only [hbrowser, hserver, hattempt, hkey]

/-- What has one name for both gets one path from both. -/
lemma placing_agreed : placing (u.browser h) (candidates (u.browser h) config.shown doc) =
    placing u (candidates u config.rules doc) := by
  have hreserve : reserve (u.browser h) (candidates u config.rules doc) =
      reserve u (candidates u config.rules doc) :=
    foldl_ext _ _ _ fun r _ => reserve_agreed ha r
  have hfiling := Filing.reserve (r := ⟨[], [], []⟩)
    (Filing.start (u := u) (candidates_nodup u config.rules doc))
  rw [candidates_agreed ha]
  unfold placing
  rw [hreserve]
  exact foldl_ext _ _ _ fun s c hc =>
    suffix_agreed ha s (hfiling.among c (mem_append_right _ hc))

lemma noticed_agreed : (noticed (u.browser h) config.shown doc).map Diagnostic.shape =
    (noticed u config.rules doc).map Diagnostic.shape := by
  have hrefused : (refusalDiagnostics (u.browser h) config.shown doc).map Diagnostic.shape =
      (refusalDiagnostics u config.rules doc).map Diagnostic.shape := by
    unfold refusalDiagnostics
    rw [map_filterMap, map_filterMap]
    refine filterMap_congr fun c hc => ?_
    have hnone := (ha c hc).isNone
    cases hb : refusal (u.browser h) config.shown c with
    | none =>
      rw [hb, Option.isNone_none, eq_comm, Option.isNone_iff_eq_none] at hnone
      rw [hnone]
    | some why =>
      cases hs : refusal u config.rules c with
      | none =>
        rw [hb, hs] at hnone
        cases hnone
      | some why' => rfl
  rw [noticed, noticed, map_append, map_append, map_append, map_append, hrefused, placing_agreed ha]

end Alike

lemma units_injective : Browser.units.Injective := fun _ _ h =>
  Anchors.utf16_injective (map_injective_iff.2 (fun _ _ => UInt16.toNat_inj.1) h)

/-- What the browser sorts a diagnostic by. -/
def Diagnostic.unitKey (d : Diagnostic) : List ℕ ×ₗ List ℕ ×ₗ List ℕ :=
  let key := ofLex d.sortKey
  toLex (Browser.units key.1,
    toLex (Browser.units (ofLex key.2).1, Browser.units (ofLex key.2).2))

lemma compareKeys_nonpos (d e : Diagnostic) :
    Browser.compareKeys (Browser.diagnosticSortKey d) (Browser.diagnosticSortKey e) ≤ 0 ↔
      d.unitKey ≤ e.unitKey := by
  have hkey : ∀ d : Diagnostic, Browser.diagnosticSortKey d =
      [(ofLex d.sortKey).1, (ofLex (ofLex d.sortKey).2).1, (ofLex (ofLex d.sortKey).2).2] :=
    fun d => by cases d <;> rfl
  have hcons : ∀ (l r : Path) (left right : List Path),
      Browser.compareKeys (l :: left) (r :: right) ≤ 0 ↔ Browser.units l < Browser.units r ∨
        Browser.units l = Browser.units r ∧ Browser.compareKeys left right ≤ 0 := by
    intro l r left right
    rw [Browser.compareKeys]
    rcases lt_trichotomy (Browser.units l) (Browser.units r) with hlt | heq | hgt
    · rw [if_pos hlt]
      exact iff_of_true (by decide) (.inl hlt)
    · rw [heq, if_neg (lt_irrefl _), if_neg (lt_irrefl _)]
      exact ⟨fun hle => .inr ⟨rfl, hle⟩, fun hor => (hor.resolve_left (lt_irrefl _)).2⟩
    · rw [if_neg (lt_asymm hgt), if_pos hgt]
      refine iff_of_false (by decide) ?_
      rintro (hlt | ⟨heq, -⟩)
      · exact lt_asymm hgt hlt
      · exact absurd heq.symm (ne_of_lt hgt)
  have hnil : Browser.compareKeys [] [] = 0 := rfl
  unfold Diagnostic.unitKey
  rw [hkey, hkey, hcons, hcons, hcons, hnil, Prod.Lex.toLex_le_toLex, Prod.Lex.toLex_le_toLex]
  refine or_congr Iff.rfl (and_congr Iff.rfl (or_congr Iff.rfl (and_congr Iff.rfl ?_)))
  rw [and_iff_left le_rfl]
  exact le_iff_lt_or_eq.symm

lemma unitKey_eq_iff (d e : Diagnostic) : d.sortKey = e.sortKey ↔ d.unitKey = e.unitKey := by
  unfold Diagnostic.unitKey
  generalize d.sortKey = k
  generalize e.sortKey = l
  obtain ⟨a, b, c⟩ := k
  obtain ⟨a', b', c'⟩ := l
  constructor
  · intro heq
    rw [heq]
  · intro heq
    obtain ⟨ha, hbc⟩ := Prod.mk.inj heq
    obtain ⟨hb, hc⟩ := Prod.mk.inj hbc
    exact Prod.ext (units_injective ha) (Prod.ext (units_injective hb) (units_injective hc))

lemma sortKey_shape (d : Diagnostic) : d.shape.sortKey = d.sortKey := by cases d <;> rfl

lemma unitKey_shape (d : Diagnostic) : d.shape.unitKey = d.unitKey := by
  unfold Diagnostic.unitKey
  rw [sortKey_shape]

/-- What is noticed is listed alike exactly when the two orders agree on it. -/
lemma ordered_iff (u : Unicode) (rules : Rules) (doc : Document) : Ordered u rules doc ↔
    (sortByKey Diagnostic.sortKey (noticed u rules doc)).map Diagnostic.shape =
      sortBy (fun left right => Browser.compareKeys (Browser.diagnosticSortKey left)
        (Browser.diagnosticSortKey right)) ((noticed u rules doc).map Diagnostic.shape) := by
  have hmap : (sortByKey Diagnostic.sortKey (noticed u rules doc)).map Diagnostic.shape =
      sortByKey Diagnostic.sortKey ((noticed u rules doc).map Diagnostic.shape) :=
    map_insertionSort _ _ _ _ fun a _ b _ => by rw [sortKey_shape, sortKey_shape]
  rw [hmap, sortBy_eq_sortByKey compareKeys_nonpos, sortByKey_eq_iff unitKey_eq_iff]
  unfold Ordered
  simp [sortKey_shape, unitKey_shape, compareKeys_nonpos]

/-- The line of a file in the canonical form. -/
def line (e : Path × Entry) : List Char :=
  e.1 ++ ['\t'] ++ Browser.kindName e.2.kind ++ ['\t'] ++ e.2.digest.toList ++ ['\n']

/-- The bytes that the digest of a projection is taken over. -/
def canonicalBytes (files : Table Entry) : List ℕ :=
  octets ("librepaper.projection.v1\n".toList ++ ['\n'] ++ (listed files).flatMap line)

/-- The browser has the projection of the server. -/
structure Same (p : Projected) (q : Browser.Projected) : Prop where
  files : q.files = listed p.files
  texts : q.texts = listed p.texts
  diagnostics : q.diagnostics.map Diagnostic.shape = p.diagnostics.map Diagnostic.shape
  bytes : Browser.canonicalBytes [] q = canonicalBytes p.files

lemma canonicalBytes_browser {q : Browser.Projected} {files : Table Entry}
    (h : q.files = listed files) : Browser.canonicalBytes [] q = canonicalBytes files := by
  rw [Browser.canonicalBytes, h, nil_append]
  rfl

section Same
variable {u : Unicode} {h : Composes u} {config : Config} {doc : Document}

lemma project_diagnostics (u : Unicode) (rules : Rules) (doc : Document)
    (hash : List Char → String) :
    (project u rules doc hash).diagnostics = sortByKey Diagnostic.sortKey (noticed u rules doc) := rfl

lemma same_of_alike (say : Refusal → String) (hash : List Char → String)
    (ha : Alike h config doc) :
    Same (project u config.rules doc hash) (Browser.project u say config doc hash) := by
  have hplaces : sortedPlaces (u.browser h) config.shown doc = sortedPlaces u config.rules doc := by
    unfold sortedPlaces
    rw [placing_agreed ha.agreed]
  have hfiles : (Browser.project u say config doc hash).files =
      listed (project u config.rules doc hash).files := by
    rw [browser_files h, listed_files, listed_files, hplaces]
  refine ⟨hfiles, ?_, ?_, canonicalBytes_browser hfiles⟩
  · rw [browser_texts h, listed_texts, listed_texts, hplaces]
  · rw [browser_diagnostics h, noticed_agreed ha.agreed, project_diagnostics]
    exact ((ordered_iff u config.rules doc).1 ha.ordered).symm

end Same

end LibrePaper.Source
