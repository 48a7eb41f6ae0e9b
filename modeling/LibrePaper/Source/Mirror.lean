import LibrePaper.Source.Browser
import LibrePaper.Source.Places

/-!
# The browser's projection as the server's

The browser's projection is the server's with the browser's own idea of a blank character: the
paths, the candidates and the places are the same step by step, and the notices are sorted by
another order.
-/
namespace LibrePaper.Source
open Library
open Browser (Config Refusal strip isSpace blank)

/-- What `str::trim` removes. -/
def isWhitespace (c : Char) : Bool := blank c || c.toNat = 0x85

section Strip
variable {space : Char → Bool} {text : List Char}

lemma strip_eq (space : Char → Bool) (text : List Char) :
    strip space text = (text.dropWhile space).rdropWhile space := rfl

/-- Neither the first nor the last character is blank. -/
def Clean (space : Char → Bool) (text : List Char) : Prop :=
  text.head?.any space = false ∧ text.getLast?.any space = false

lemma clean_strip (space : Char → Bool) (text : List Char) : Clean space (strip space text) := by
  rw [strip_eq]
  constructor
  · have hprefix := List.rdropWhile_prefix space (text.dropWhile space)
    cases h : (text.dropWhile space).rdropWhile space with
    | nil => rfl
    | cons c rest =>
      rw [h] at hprefix
      obtain ⟨more, hmore⟩ := hprefix
      have hne : text.dropWhile space ≠ [] := by
        rw [← hmore]
        exact List.cons_ne_nil _ _
      have hhead := List.head_dropWhile_not space hne
      simp only [← hmore, List.cons_append, List.head_cons] at hhead
      simpa using hhead
  · cases h : ((text.dropWhile space).rdropWhile space).getLast? with
    | none => rfl
    | some c =>
      have hne : (text.dropWhile space).rdropWhile space ≠ [] := by
        intro hnil
        rw [hnil] at h
        cases h
      have hlast := List.rdropWhile_last_not space _ hne
      rw [List.getLast?_eq_some_getLast hne] at h
      cases h
      simpa using hlast

lemma strip_of_clean (h : Clean space text) : strip space text = text := by
  have hdrop : text.dropWhile space = text := by
    cases text with
    | nil => rfl
    | cons c text => exact List.dropWhile_cons_of_neg (by simpa using h.1)
  rw [strip_eq, hdrop]
  by_cases hne : text = []
  · rw [hne]
    rfl
  · rw [List.rdropWhile_eq_self_iff]
    intro _
    have hlast := h.2
    rw [List.getLast?_eq_some_getLast hne] at hlast
    simpa using hlast

end Strip

/-- What Unicode says of composition: composed texts stay as they are, and composing neither makes
nor loses a blank character at an end. -/
structure Composes (u : Unicode) : Prop where
  trim : u.trim = strip isWhitespace
  again : ∀ text, u.nfc (u.nfc text) = u.nfc text
  server : ∀ text, Clean isWhitespace (u.nfc text) ↔ Clean isWhitespace text
  browser : ∀ text, Clean isSpace (u.nfc text) ↔ Clean isSpace text

/-- The same Unicode with the blank characters of the browser. -/
def Unicode.browser (u : Unicode) (h : Composes u) : Unicode where
  trim := strip isSpace
  nfc := u.nfc
  lower := u.lower
  debug := u.debug
  stable text := by
    rw [strip_of_clean ((h.browser _).mpr (clean_strip isSpace text)), h.again]

/-- The rules of a deployment on the server. -/
def Browser.Config.rules (config : Config) : Rules :=
  ⟨config.textExtensions, config.assetExtensions, config.derivedExtensions, config.maxPath, 8⟩

/-- The rules of a deployment as the browser reads them. -/
def Browser.Config.shown (config : Config) : Rules :=
  { config.rules with maxPath := if config.maxPath = 0 then 200 else config.maxPath }

section Paths
variable {u : Unicode} (h : Composes u) (config : Config)

lemma length_octets (text : List Char) : (octets text).length = lenUtf8 text := by
  rw [octets, List.length_map, length_utf8]

lemma isPrefixOf_singleton (c : Char) (text : List Char) :
    [c].isPrefixOf text = decide (text.head? = some c) := by
  cases text with
  | nil => rfl
  | cons d rest =>
    rw [List.isPrefixOf, List.isPrefixOf, Bool.and_true, beq_eq_decide]
    exact decide_eq_decide.2 ⟨fun hcd => congrArg some hcd.symm, fun hdc => (Option.some.inj hdc).symm⟩

lemma checkSegment_isSome (path : Path) (segment : List Char) :
    (Browser.checkSegment path segment).isSome = (badSegment path segment).isSome := by
  unfold Browser.checkSegment badSegment
  rw [isPrefixOf_singleton]
  simp only [decide_eq_true_eq]
  split_ifs <;> rfl

variable {α ε : Type*} {p : Prop} {x : Except ε α} {a : α}

lemma findSome_eq_none {β γ : Type*} {f : α → Option β} {g : α → Option γ} {l : List α}
    (hfg : ∀ a, (f a).isSome = (g a).isSome) : l.findSome? f = none ↔ l.findSome? g = none := by
  rw [List.findSome?_eq_none_iff, List.findSome?_eq_none_iff]
  refine forall₂_congr fun a _ => ?_
  rw [← Option.not_isSome_iff_eq_none, hfg, Option.not_isSome_iff_eq_none]

lemma ite_error_eq_ok [Decidable p] {e : ε} :
    (if p then .error e else x) = .ok a ↔ ¬p ∧ x = .ok a := by
  split_ifs with hp
  · exact iff_of_false nofun fun hno => hno.1 hp
  · exact (and_iff_right hp).symm

lemma ite_some_eq_none [Decidable p] {x : Option α} :
    (if p then some a else x) = none ↔ ¬p ∧ x = none := by
  split_ifs with hp
  · exact iff_of_false nofun fun hno => hno.1 hp
  · exact (and_iff_right hp).symm

lemma ite_ok_eq_ok [Decidable p] {b : α} :
    (if p then .ok a else x) = .ok b ↔ p ∧ a = b ∨ ¬p ∧ x = .ok b := by
  split_ifs with hp
  · refine ⟨fun hab => .inl ⟨hp, Except.ok.inj hab⟩, ?_⟩
    rintro (⟨-, rfl⟩ | ⟨hno, -⟩)
    · rfl
    · exact absurd hp hno
  · exact ⟨fun hx => .inr ⟨hp, hx⟩, fun hor => (hor.resolve_left fun hno => hp hno.1).2⟩

lemma kindOf_ok_iff (path : Path) (kind : Kind) : Browser.kindOf u config path = .ok kind ↔
    kindOf (u.browser h) config.shown path = .ok kind := by
  unfold Browser.kindOf kindOf
  rw [ite_error_eq_ok, ite_error_eq_ok, ite_ok_eq_ok, ite_ok_eq_ok, ite_ok_eq_ok, ite_ok_eq_ok]
  refine and_congr Iff.rfl (or_congr Iff.rfl (and_congr Iff.rfl (or_congr Iff.rfl
    (and_congr Iff.rfl ?_))))
  exact iff_of_false nofun nofun

/-- The browser accepts a path exactly when the server would with the browser's blank characters
and length. -/
lemma checkPath_ok_iff (path : Path) (kind : Kind) : Browser.checkPath u config path = .ok kind ↔
    admission (u.browser h) config.shown path = .ok kind := by
  have hcheck : Browser.checkPath u config path = .ok kind ↔
      Browser.checkDirectoryPath u config path = none ∧
        Browser.kindOf u config (Browser.normalisePath u path) = .ok kind := by
    unfold Browser.checkPath
    cases Browser.checkDirectoryPath u config path with
    | none => exact (and_iff_right rfl).symm
    | some error => exact iff_of_false (fun hno => by cases hno) fun hno => by cases hno.1
  have hsegments := findSome_eq_none (l := (Browser.normalisePath u path).splitOn '/')
    (checkSegment_isSome (Browser.normalisePath u path))
  have hcontrol : ∀ c : Char, (c.toNat ≤ 0x1f || c.toNat == 0x7f) =
      (c.toNat < 0x20 || c.toNat == 0x7f) := fun c => by
    rw [decide_eq_decide.2 (Nat.lt_succ_iff (m := c.toNat) (n := 0x1f)).symm]
  rw [hcheck, Browser.checkDirectoryPath, admission]
  simp only [ite_error_eq_ok, ite_some_eq_none, and_assoc, isPrefixOf_singleton,
    decide_eq_true_eq, length_octets, hcontrol, hsegments]
  refine and_congr Iff.rfl (and_congr Iff.rfl (and_congr Iff.rfl (and_congr Iff.rfl
    (and_congr Iff.rfl (and_congr Iff.rfl ?_)))))
  have hpath : normalise (u.browser h) path = Browser.normalisePath u path := rfl
  rw [hpath]
  cases ((Browser.normalisePath u path).splitOn '/').findSome?
      (badSegment (Browser.normalisePath u path)) with
  | some why => exact iff_of_false (fun hno => by cases hno.1) fun hno => by cases hno
  | none => exact (and_iff_right rfl).trans (kindOf_ok_iff h config _ kind)

lemma free_eq (taken : List Path) (path : Path) :
    Browser.free u taken path = free (u.browser h) taken path := by
  rw [Bool.eq_iff_iff]
  have hkey : collisionKey (u.browser h) path = Browser.collisionKey u path := rfl
  unfold Browser.free free apart above
  rw [hkey]
  generalize Browser.collisionKey u path = key
  dsimp only
  rw [List.all_eq_true]
  split_ifs with hmem
  · refine iff_of_false id fun hall => ?_
    simpa using hall key hmem
  · rw [List.all_eq_true]
    refine forall₂_congr fun other hother => ?_
    have hne : other ≠ key := fun hno => hmem (hno ▸ hother)
    simp only [hne, ne_eq, not_false_eq_true, decide_true, Bool.true_and, Bool.and_eq_true]
    exact and_comm

end Paths

lemma lastIndexOf_append (c : Char) (front back : List Char) (h : c ∉ back) :
    Browser.lastIndexOf c (front ++ c :: back) = some front.length := by
  have hfind : (back.reverse ++ c :: front.reverse).findIdx? (· = c) = some back.length := by
    rw [List.findIdx?_eq_some_iff_getElem]
    refine ⟨by simp, by simp, fun j hj => ?_⟩
    have hlt : j < back.reverse.length := by simpa using hj
    rw [List.getElem_append_left hlt]
    have hback : back.reverse[j] ∈ back := List.mem_reverse.1 (List.getElem_mem _)
    exact fun hno => h (of_decide_eq_true hno ▸ hback)
  unfold Browser.lastIndexOf
  rw [List.reverse_append, List.reverse_cons, List.append_assoc, List.singleton_append, hfind,
    Option.map_some, List.length_append, List.length_cons]
  congr 1
  omega

variable {text : List Char} {α : Type*} {hash : List Char → String}
  {texts : List (Path × List Char)} {e : Path × Entry}

lemma lastIndexOf_eq_none {c : Char} (h : c ∉ text) : Browser.lastIndexOf c text = none := by
  unfold Browser.lastIndexOf
  rw [Option.map_eq_none_iff, List.findIdx?_eq_none_iff]
  intro d hd
  refine decide_eq_false fun hno => h ?_
  rw [← hno]
  exact List.mem_reverse.1 hd

/-- A text is split at its last dot. -/
lemma splitExtension_append (front back : List Char) (h : '.' ∉ back) :
    splitExtension (front ++ '.' :: back) = (front, '.' :: back) := by
  have htake : (front ++ '.' :: back).reverse.takeWhile (· ≠ '.') = back.reverse := by
    rw [List.reverse_append, List.reverse_cons, List.append_assoc, List.singleton_append,
      List.takeWhile_append_of_pos, List.takeWhile_cons_of_neg (by simp), List.append_nil]
    exact fun c hc => decide_eq_true fun hno => h (hno ▸ List.mem_reverse.1 hc)
  unfold splitExtension
  dsimp only
  rw [htake, List.length_reverse, List.length_append, List.length_cons, if_pos (by omega)]
  have hlength : front.length + (back.length + 1) - back.length - 1 = front.length := by omega
  rw [hlength, List.take_left, List.drop_left]

lemma splitExtension_of_notMem {path : Path} (h : '.' ∉ path) : splitExtension path = (path, []) := by
  have htake : path.reverse.takeWhile (· ≠ '.') = path.reverse :=
    List.takeWhile_eq_self_iff.2 fun c hc =>
      decide_eq_true fun hno => h (hno ▸ List.mem_reverse.1 hc)
  unfold splitExtension
  dsimp only
  rw [htake, List.length_reverse, if_neg (lt_irrefl _)]

lemma suffixed_eq (path : Path) (nth : ℕ) : Browser.suffixed path nth = suffixed path nth := by
  unfold Browser.suffixed suffixed
  by_cases hdot : '.' ∈ path
  · obtain ⟨front, back, rfl, hback⟩ : ∃ front back, path = front ++ '.' :: back ∧ '.' ∉ back := by
      obtain ⟨back, front, hsplit, hback⟩ := List.eq_append_cons_of_mem (List.mem_reverse.2 hdot)
      refine ⟨front.reverse, back.reverse, ?_, fun hin => hback (List.mem_reverse.1 hin)⟩
      rw [← List.reverse_reverse path, hsplit, List.reverse_append, List.reverse_cons,
        List.append_assoc, List.singleton_append]
    have hslash : '/' ∈ '.' :: back ↔ '/' ∈ back := List.mem_cons.trans (or_iff_right (by decide))
    rw [lastIndexOf_append '.' front back hback, splitExtension_append front back hback]
    dsimp only
    rw [List.take_left, List.drop_left]
    simp only [hslash, List.length_pos_iff_ne_nil]
    split_ifs
    · rfl
    · rw [List.append_nil]
  · rw [lastIndexOf_eq_none hdot, splitExtension_of_notMem hdot]
    dsimp only
    rw [List.append_nil]
    split_ifs <;> simp

lemma compareUtf8_nonpos (a b : List Char) : Browser.compareUtf8 a b ≤ 0 ↔ a ≤ b :=
  (compareNumbers_nonpos _ _).trans (octets_le_iff a b)

lemma sortBy_sortedKeys (table : Table α) :
    sortBy Browser.compareUtf8 (sortedKeys table) = sortedKeys table := by
  rw [sortBy_eq_sortByKey compareUtf8_nonpos]
  exact List.Pairwise.insertionSort_eq (r := fun a b => a ≤ b) (Finset.pairwise_sort _ _)

/-- A candidate as the browser has it. -/
def Candidate.shown : Candidate → Browser.Candidate
  | .text id requested body => ⟨false, id, id, requested, "", lenUtf8 body, some body⟩
  | .asset path digest => ⟨true, "asset:".toList ++ path, [], path, digest, 0, none⟩

lemma lenUtf16_eq_length (h : ∀ c ∈ text, c.toNat < 0x10000) :
    Anchors.lenUtf16 text = text.length := by
  induction text with
  | nil => rfl
  | cons c text ih =>
    have hc : Anchors.charLenUtf16 c = 1 := if_pos (h c List.mem_cons_self)
    change Anchors.charLenUtf16 c + Anchors.lenUtf16 text = text.length + 1
    rw [hc, ih fun d hd => h d (List.mem_cons_of_mem _ hd), Nat.add_comm]

lemma isDigest_iff (value : String) : Browser.isDigest value = true ↔
    value.toList.length = 64 ∧ value.toList.all fun c => c.isDigit ||
      ('a'.toNat ≤ c.toNat && c.toNat ≤ 'f'.toNat) ||
      ('A'.toNat ≤ c.toNat && c.toNat ≤ 'F'.toNat) := by
  have hdigit : ∀ c : Char, c.isDigit = (decide ('0'.toNat ≤ c.toNat) && decide (c.toNat ≤ '9'.toNat)) :=
    fun c => rfl
  have hwidth : (value.toList.all fun c => c.isDigit ||
      ('a'.toNat ≤ c.toNat && c.toNat ≤ 'f'.toNat) ||
      ('A'.toNat ≤ c.toNat && c.toNat ≤ 'F'.toNat)) = true →
      Anchors.lenUtf16 value.toList = value.toList.length := by
    intro hall
    refine lenUtf16_eq_length fun c hc => ?_
    have hhex := List.all_eq_true.1 hall c hc
    rw [hdigit] at hhex
    simp only [Bool.or_eq_true, Bool.and_eq_true, decide_eq_true_eq] at hhex
    have hbounds : '9'.toNat < 0x10000 ∧ 'f'.toNat < 0x10000 ∧ 'F'.toNat < 0x10000 := by decide
    omega
  unfold Browser.isDigest
  rw [Bool.and_eq_true, decide_eq_true_iff]
  simp only [← hdigit]
  refine and_congr_left fun hall => ?_
  rw [hwidth hall]

lemma collected_texts (doc : Document) :
    ((sortBy Browser.compareUtf8 (sortedKeys doc.files)).map
      (Browser.collectText doc)).filterMap Except.toOption =
      (textCandidates doc).map Candidate.shown := by
  rw [sortBy_sortedKeys, List.filterMap_map, textCandidates, List.map_filterMap]
  refine List.filterMap_congr fun id _ => ?_
  dsimp only [Function.comp]
  unfold Browser.collectText
  cases doc.textById id with
  | none => rfl
  | some body =>
    cases doc.pathOf id with
    | none => rfl
    | some path =>
      dsimp only
      rw [length_octets]
      rfl

lemma collectAsset_eq (doc : Document) (path : Path) : Browser.collectAsset doc path =
    match doc.digestAt path with
    | some digest => .ok (Candidate.asset path digest).shown
    | none => .error (.notADigest path) := by
  unfold Browser.collectAsset Document.digestAt
  cases doc.assets.lookup path with
  | none => rfl
  | some value =>
    cases value with
    | other => rfl
    | string digest =>
      dsimp only
      by_cases h : Browser.isDigest digest = true
      · rw [if_pos h, if_pos ((isDigest_iff digest).1 h)]
        rfl
      · rw [if_neg h, if_neg fun hno => h ((isDigest_iff digest).2 hno)]

lemma collected_assets (doc : Document) :
    ((sortBy Browser.compareUtf8 (sortedKeys doc.assets)).map
      (Browser.collectAsset doc)).filterMap Except.toOption =
      (assetCandidates doc).map Candidate.shown := by
  rw [sortBy_sortedKeys, List.filterMap_map, assetCandidates, List.map_filterMap]
  refine List.filterMap_congr fun path _ => ?_
  dsimp only [Function.comp]
  rw [collectAsset_eq]
  cases doc.digestAt path <;> rfl

lemma collected_eq (doc : Document) : (Browser.collected doc).filterMap Except.toOption =
    (textCandidates doc ++ assetCandidates doc).map Candidate.shown := by
  rw [Browser.collected, List.filterMap_append, collected_texts, collected_assets, List.map_append]

lemma collectDiagnostics_eq (doc : Document) :
    Browser.collectDiagnostics doc = strayDiagnostics doc := by
  unfold Browser.collectDiagnostics strayDiagnostics
  rw [sortBy_sortedKeys, sortBy_sortedKeys, List.filterMap_map, List.filterMap_map]
  congr 1
  · congr 2
    refine List.filterMap_congr fun id _ => ?_
    dsimp only [Function.comp]
    unfold Browser.collectText
    cases doc.textById id with
    | none => rfl
    | some body => cases doc.pathOf id <;> rfl
  · rw [← List.filterMap_eq_map, List.filterMap_filter]
    refine List.filterMap_congr fun path _ => ?_
    dsimp only [Function.comp]
    rw [collectAsset_eq]
    cases doc.digestAt path <;> rfl

/-- A diagnostic without the sentence that is shown with it. -/
def Diagnostic.shape : Diagnostic → Diagnostic
  | .invalidPath id path _ => .invalidPath id path ""
  | d => d

section Candidates
variable {u : Unicode} (h : Composes u) (say : Refusal → String) (config : Config)

lemma invalid_eq_none (c : Candidate) : Browser.invalid u say config c.shown = none ↔
    refusal (u.browser h) config.shown c = none := by
  have hkind : (if c.shown.asset then Kind.asset else Kind.text) = c.kind := by cases c <;> rfl
  have hrequested : c.shown.requested = c.requested := by cases c <;> rfl
  rw [refusal_eq_none, ← checkPath_ok_iff]
  unfold Browser.invalid
  rw [hkind, hrequested]
  cases hcheck : Browser.checkPath u config c.requested with
  | error e => exact iff_of_false nofun nofun
  | ok kind =>
    dsimp only
    split_ifs with heq
    · exact iff_of_true rfl (congrArg Except.ok heq)
    · exact iff_of_false nofun fun hno => heq (Except.ok.inj hno)

lemma compareCandidates_nonpos (a b : Candidate) :
    Browser.compareCandidates a.shown b.shown ≤ 0 ↔ a.order ≤ b.order := by
  unfold Candidate.order
  rw [Prod.Lex.toLex_le_toLex]
  cases a with
  | text i p x =>
    cases b with
    | text j q y =>
      refine (compareUtf8_nonpos i j).trans ?_
      exact ⟨fun hle => .inr ⟨rfl, hle⟩, fun hor => (hor.resolve_left (lt_irrefl 0)).2⟩
    | asset q e => exact iff_of_true (show (-1 : ℤ) ≤ 0 by decide) (.inl Nat.zero_lt_one)
  | asset p d =>
    cases b with
    | text j q y =>
      refine iff_of_false (show ¬(1 : ℤ) ≤ 0 by decide) ?_
      rintro (hlt | ⟨heq, -⟩)
      · exact absurd hlt (Nat.not_lt_zero 1)
      · exact absurd heq Nat.one_ne_zero
    | asset q e =>
      refine (compareUtf8_nonpos _ _).trans ?_
      exact ⟨fun hle => .inr ⟨rfl, hle⟩, fun hor => (hor.resolve_left (lt_irrefl 1)).2⟩

lemma valid_eq (doc : Document) : Browser.valid u say config doc =
    (candidates (u.browser h) config.shown doc).map Candidate.shown := by
  unfold Browser.valid candidates sortBy sortByKey
  rw [collected_eq, List.filter_map]
  have hsame : ((fun c => (Browser.invalid u say config c).isNone) ∘ Candidate.shown) =
      fun c => (refusal (u.browser h) config.shown c).isNone := by
    funext c
    rw [Bool.eq_iff_iff, Function.comp, Option.isNone_iff_eq_none, Option.isNone_iff_eq_none,
      invalid_eq_none h]
  rw [hsame]
  exact (List.map_insertionSort _ _ _ _ fun a _ b _ => (compareCandidates_nonpos a b).symm).symm

lemma invalidDiagnostics_shape (doc : Document) :
    (Browser.invalidDiagnostics u say config doc).map Diagnostic.shape =
      (refusalDiagnostics (u.browser h) config.shown doc).map Diagnostic.shape := by
  unfold Browser.invalidDiagnostics refusalDiagnostics
  rw [collected_eq, List.map_filterMap, List.map_filterMap, List.filterMap_map]
  refine List.filterMap_congr fun c _ => ?_
  have hkey : c.shown.key = c.key ∧ c.shown.requested = c.requested := by
    cases c <;> exact ⟨rfl, rfl⟩
  have hnone := invalid_eq_none h say config c
  dsimp only [Function.comp]
  rw [hkey.1, hkey.2]
  cases hl : Browser.invalid u say config c.shown with
  | none => rw [hnone.1 hl]
  | some why =>
    cases hr : refusal (u.browser h) config.shown c with
    | none => exact absurd (hl.symm.trans (hnone.2 hr)) nofun
    | some why' => rfl

def Reserved.shown (r : Reserved) : Browser.Reserving :=
  ⟨r.taken, r.placed.map fun p => (p.2.shown, p.1), r.deferred.map Candidate.shown⟩

lemma reserve_shown (r : Reserved) (c : Candidate) :
    r.shown.reserve u c.shown = (r.reserve (u.browser h) c).shown := by
  have hname : Browser.normalisePath u c.shown.requested = c.name (u.browser h) := by
    cases c <;> rfl
  unfold Browser.Reserving.reserve
  rw [hname]
  change (if Browser.free u r.taken _ then _ else _) = _
  rw [free_eq h]
  by_cases hfree : free (u.browser h) r.taken (c.name (u.browser h)) = true
  · rw [reserve_free hfree, if_pos hfree, Reserved.shown, Reserved.shown, List.map_append]
    rfl
  · rw [reserve_taken hfree, if_neg hfree, Reserved.shown, Reserved.shown, List.map_append]
    rfl

lemma reserve_all_shown (cs : List Candidate) (r : Reserved) :
    (cs.map Candidate.shown).foldl (Browser.Reserving.reserve u) r.shown =
      (cs.foldl (Reserved.reserve (u.browser h)) r).shown := by
  induction cs generalizing r with
  | nil => rfl
  | cons c cs ih => rw [List.map_cons, List.foldl_cons, List.foldl_cons, reserve_shown h, ih]

def shownPlaces (s : List Path × List (Path × Candidate) × List Diagnostic) :
    List Path × List (Browser.Candidate × Path) × List Diagnostic :=
  (s.1, s.2.1.map fun p => (p.2.shown, p.1), s.2.2)

lemma suffix_shown (s : List Path × List (Path × Candidate) × List Diagnostic) (c : Candidate) :
    Browser.suffix u (shownPlaces s) c.shown = shownPlaces (suffix (u.browser h) s c) := by
  have hname : Browser.normalisePath u c.shown.requested = c.name (u.browser h) := by
    cases c <;> rfl
  have hkey : c.shown.key = c.key := by cases c <;> rfl
  unfold Browser.suffix
  rw [hname, hkey]
  simp only [free_eq h, suffixed_eq]
  unfold suffix Candidate.name
  dsimp only [shownPlaces]
  cases (List.range' 2 9998).find? fun nth =>
      free (u.browser h) s.1 (suffixed (normalise (u.browser h) c.requested) nth) with
  | none => rfl
  | some nth =>
    change _ = (_, (s.2.1 ++ _).map _, _)
    rw [List.map_append]
    rfl

lemma suffix_all_shown (cs : List Candidate)
    (s : List Path × List (Path × Candidate) × List Diagnostic) :
    (cs.map Candidate.shown).foldl (Browser.suffix u) (shownPlaces s) =
      shownPlaces (cs.foldl (suffix (u.browser h)) s) := by
  induction cs generalizing s with
  | nil => rfl
  | cons c cs ih => rw [List.map_cons, List.foldl_cons, List.foldl_cons, suffix_shown h, ih]

end Candidates

lemma foldl_setEntry {β : Type*} {f : β → Path × α} {items : List β}
    (h : (items.map fun b => (f b).1).Nodup) (start : List (Path × α))
    (hstart : ∀ b ∈ items, (f b).1 ∉ start.map Prod.fst) :
    items.foldl (fun map b => Browser.setEntry map (f b).1 (f b).2) start =
      start ++ items.map f := by
  induction items generalizing start with
  | nil => exact (List.append_nil start).symm
  | cons b items ih =>
    rw [List.map_cons, List.nodup_cons] at h
    have hset : Browser.setEntry start (f b).1 (f b).2 = start ++ [f b] :=
      if_neg (hstart b List.mem_cons_self)
    rw [List.foldl_cons, hset, ih h.2, List.append_assoc, List.map_cons, List.singleton_append]
    intro d hd
    rw [List.map_append, List.mem_append, not_or]
    refine ⟨hstart d (List.mem_cons_of_mem _ hd), fun hin => h.1 ?_⟩
    have hsame : (f d).1 = (f b).1 := List.mem_singleton.1 hin
    exact hsame ▸ List.mem_map_of_mem hd

/-- Gives an entry the digest of its text. -/
def digested (hash : List Char → String) (e : Path × Entry) (t : Path × List Char) : Path × Entry :=
  if e.1 = t.1 then (e.1, { e.2 with digest := hash t.2 }) else e

lemma foldl_digested (hash : List Char → String) (texts : List (Path × List Char))
    (files : List (Path × Entry)) :
    texts.foldl (fun files t => files.map fun e =>
      if e.1 = t.1 then (e.1, { e.2 with digest := hash t.2 }) else e) files =
      files.map fun e => texts.foldl (digested hash) e := by
  induction texts generalizing files with
  | nil => exact (List.map_id files).symm
  | cons t texts ih =>
    rw [List.foldl_cons, ih, List.map_map]
    rfl

lemma digested_none (h : e.1 ∉ texts.map Prod.fst) : texts.foldl (digested hash) e = e := by
  induction texts with
  | nil => rfl
  | cons t texts ih =>
    rw [List.map_cons, List.mem_cons, not_or] at h
    rw [List.foldl_cons, digested, if_neg h.1, ih h.2]

lemma digested_text (hnodup : (texts.map Prod.fst).Nodup) {body : List Char}
    (h : (e.1, body) ∈ texts) :
    texts.foldl (digested hash) e = (e.1, { e.2 with digest := hash body }) := by
  induction texts with
  | nil => cases h
  | cons t texts ih =>
    rw [List.map_cons, List.nodup_cons] at hnodup
    rw [List.foldl_cons, digested]
    rcases List.mem_cons.1 h with rfl | h
    · rw [if_pos rfl]
      exact digested_none hnodup.1
    · have hne : e.1 ≠ t.1 := fun hno => hnodup.1 (hno ▸ List.mem_map_of_mem h)
      rw [if_neg hne, ih hnodup.2 h]

/-- What is noticed of a document, in no order. -/
def noticed (u : Unicode) (rules : Rules) (doc : Document) : List Diagnostic :=
  strayDiagnostics doc ++ refusalDiagnostics u rules doc ++
    (placing u (candidates u rules doc)).2.2

/-- The candidates with their paths, in the order of the paths. -/
def sortedPlaces (u : Unicode) (rules : Rules) (doc : Document) : List (Path × Candidate) :=
  sortByKey Prod.fst (placing u (candidates u rules doc)).2.1

section Directory
variable (u : Unicode) (rules : Rules) (doc : Document) (hash : List Char → String)

lemma paths_nodup :
    ((placing u (candidates u rules doc)).2.1.map Prod.fst).Nodup := by
  have hfiling := filing_placing (u := u) (candidates_nodup u rules doc)
  have hkeys := hfiling.distinct
  rw [hfiling.keys] at hkeys
  exact List.Nodup.of_map (collisionKey u) (by rwa [List.map_map])

lemma sortedPlaces_perm :
    (sortedPlaces u rules doc).Perm (placing u (candidates u rules doc)).2.1 :=
  sortByKey_perm _ _

lemma sortedPlaces_nodup : ((sortedPlaces u rules doc).map Prod.fst).Nodup :=
  ((sortedPlaces_perm u rules doc).map _).nodup_iff.2 (paths_nodup u rules doc)

lemma listed_files : listed (project u rules doc hash).files =
    (sortedPlaces u rules doc).map fun p => (p.1, p.2.entry hash) := by
  change listed (insertAll ((placing u (candidates u rules doc)).2.1.map _) ∅) = _
  refine listed_insertAll ?_ ((sortedPlaces_perm u rules doc).map _) ?_
  · rw [List.map_map]
    exact paths_nodup u rules doc
  · exact List.pairwise_map.2 (sortByKey_pairwise _ _)

lemma texts_sublist (places : List (Path × Candidate)) :
    ((places.filterMap fun p => p.2.body.map fun body => (p.1, body)).map Prod.fst).Sublist
      (places.map Prod.fst) := by
  induction places with
  | nil => exact List.Sublist.slnil
  | cons p places ih =>
    rw [List.filterMap_cons]
    cases p.2.body with
    | none => exact ih.cons _
    | some body => exact ih.cons_cons _

lemma listed_texts : listed (project u rules doc hash).texts =
    (sortedPlaces u rules doc).filterMap fun p => p.2.body.map fun body => (p.1, body) := by
  change listed (insertAll ((placing u (candidates u rules doc)).2.1.filterMap _) ∅) = _
  refine listed_insertAll ?_ ((sortedPlaces_perm u rules doc).filterMap _) ?_
  · exact (paths_nodup u rules doc).sublist (texts_sublist _)
  · refine List.pairwise_map.1 (List.Pairwise.sublist (texts_sublist _) ?_)
    exact List.pairwise_map.2 (sortByKey_pairwise Prod.fst _)

end Directory

section Browser
variable {u : Unicode} (h : Composes u) (say : Refusal → String) (config : Config) (doc : Document)
  (hash : List Char → String)

lemma browser_placing :
    ((Browser.valid u say config doc).foldl (Browser.Reserving.reserve u) ⟨[], [], []⟩).deferred.foldl
      (Browser.suffix u)
      (((Browser.valid u say config doc).foldl (Browser.Reserving.reserve u) ⟨[], [], []⟩).taken,
        ((Browser.valid u say config doc).foldl (Browser.Reserving.reserve u) ⟨[], [], []⟩).placed,
        []) =
      shownPlaces (placing (u.browser h) (candidates (u.browser h) config.shown doc)) := by
  have hreserve : (Browser.valid u say config doc).foldl (Browser.Reserving.reserve u) ⟨[], [], []⟩ =
      (reserve (u.browser h) (candidates (u.browser h) config.shown doc)).shown := by
    rw [valid_eq h]
    exact reserve_all_shown h _ ⟨[], [], []⟩
  rw [hreserve]
  exact suffix_all_shown h _ (_, _, [])

lemma sorted_places : sortBy (fun left right => Browser.compareUtf8 left.2 right.2)
    (shownPlaces (placing (u.browser h) (candidates (u.browser h) config.shown doc))).2.1 =
      (sortedPlaces (u.browser h) config.shown doc).map fun p => (p.2.shown, p.1) :=
  (List.map_insertionSort _ _ _ _ fun a _ b _ => (compareUtf8_nonpos a.1 b.1).symm).symm

lemma browser_texts : (Browser.project u say config doc hash).texts =
    listed (project (u.browser h) config.shown doc hash).texts := by
  unfold Browser.project Browser.projectDirectory
  dsimp only
  rw [browser_placing h, sorted_places, listed_texts]
  have hnodup := sortedPlaces_nodup (u.browser h) config.shown doc
  generalize sortedPlaces (u.browser h) config.shown doc = places at hnodup
  refine Eq.trans (b := (places.filterMap fun p => p.2.body.map fun body => (p.1, body)).foldl
    (fun texts t => Browser.setEntry texts t.1 t.2) []) ?_ ?_
  · rw [List.foldl_map, List.foldl_filterMap]
    refine congrArg (fun f => List.foldl f [] places) (funext₂ fun texts p => ?_)
    obtain ⟨path, c⟩ := p
    cases c <;> rfl
  · refine (foldl_setEntry (f := id) ?_ [] fun _ _ => List.not_mem_nil).trans (List.map_id _)
    exact hnodup.sublist (texts_sublist _)

lemma browser_files : (Browser.project u say config doc hash).files =
    listed (project (u.browser h) config.shown doc hash).files := by
  have htexts := browser_texts h say config doc hash
  rw [listed_texts] at htexts
  have hfiles : (Browser.projectDirectory u say config doc).files =
      (sortedPlaces (u.browser h) config.shown doc).map fun p => (p.1, p.2.shown.entry) := by
    unfold Browser.projectDirectory
    dsimp only
    rw [browser_placing h, sorted_places, List.foldl_map]
    refine (foldl_setEntry (f := fun p : Path × Candidate => (p.1, p.2.shown.entry)) ?_ [] ?_)
    · exact sortedPlaces_nodup (u.browser h) config.shown doc
    · exact fun _ _ => List.not_mem_nil
  rw [listed_files]
  change (Browser.project u say config doc hash).texts.foldl _ _ = _
  rw [htexts, foldl_digested, hfiles, List.map_map]
  have hnodup := sortedPlaces_nodup (u.browser h) config.shown doc
  generalize sortedPlaces (u.browser h) config.shown doc = places at hnodup
  refine List.map_congr_left fun p hp => ?_
  obtain ⟨path, c⟩ := p
  cases c with
  | text id raw body =>
    exact digested_text (hnodup.sublist (texts_sublist _)) (List.mem_filterMap.2 ⟨_, hp, rfl⟩)
  | asset raw digest =>
    refine digested_none fun hin => ?_
    obtain ⟨t, ht, hpath⟩ := List.mem_map.1 hin
    obtain ⟨q, hq, hbody⟩ := List.mem_filterMap.1 ht
    obtain ⟨body, hbody, rfl⟩ := Option.map_eq_some_iff.1 hbody
    have hsame : q = (path, .asset raw digest) := List.inj_on_of_nodup_map hnodup hq hp hpath
    rw [hsame] at hbody
    cases hbody

lemma browser_diagnostics :
    (Browser.project u say config doc hash).diagnostics.map Diagnostic.shape =
      sortBy (fun left right => Browser.compareKeys (Browser.diagnosticSortKey left)
        (Browser.diagnosticSortKey right))
        ((noticed (u.browser h) config.shown doc).map Diagnostic.shape) := by
  have hkey : ∀ d : Diagnostic, Browser.diagnosticSortKey d.shape = Browser.diagnosticSortKey d :=
    fun d => by cases d <;> rfl
  have hshape : ((Browser.collectDiagnostics doc ++ Browser.invalidDiagnostics u say config doc ++
      (placing (u.browser h) (candidates (u.browser h) config.shown doc)).2.2).map
        Diagnostic.shape) = (noticed (u.browser h) config.shown doc).map Diagnostic.shape := by
    rw [noticed, collectDiagnostics_eq, List.map_append, List.map_append, List.map_append,
      List.map_append, invalidDiagnostics_shape h]
  unfold Browser.project Browser.projectDirectory
  dsimp only
  rw [browser_placing h, ← hshape]
  refine List.map_insertionSort _ _ _ _ fun a _ b _ => ?_
  dsimp only
  rw [hkey, hkey]

end Browser

end LibrePaper.Source
