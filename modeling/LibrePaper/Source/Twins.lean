import LibrePaper.Source.Alike

/-!
# When the browser and the server project alike

Two projections with the same files and notices accept the same candidates, under the same names.
The canonical form tells projections with different files apart.
-/
namespace LibrePaper.Source
open Library List
open Browser (Config Refusal strip isSpace)

section Matched
variable (hash : List Char → String) (doc : Document)

/-- Everything that asks for a path. -/
def everyCandidate : List Candidate := textCandidates doc ++ assetCandidates doc

/-- What the rules refuse. -/
def refused (u : Unicode) (rules : Rules) : List Candidate :=
  (everyCandidate doc).filter fun c => (refusal u rules c).isSome

/-- What is noticed of a candidate that is refused. -/
def Candidate.notice (c : Candidate) : Diagnostic := .invalidPath c.key c.requested ""

/-- Two readings of a document with the same files and notices. -/
structure Matched (u v : Unicode) (rules other : Rules) : Prop where
  kinds : ∀ path, Source.kindOf u rules path = Source.kindOf v other path
  refusals : ((refused doc u rules).map Candidate.notice).Perm
    ((refused doc v other).map Candidate.notice)
  notices : ∀ d, d ∈ (placing u (candidates u rules doc)).2.2 ↔
    d ∈ (placing v (candidates v other doc)).2.2
  files : ∀ path e, (∃ c, (path, c) ∈ (placing u (candidates u rules doc)).2.1 ∧ c.entry hash = e) ↔
    ∃ c, (path, c) ∈ (placing v (candidates v other doc)).2.1 ∧ c.entry hash = e

variable {hash doc}

variable {u : Unicode} {rules : Rules} {c d : Candidate} {path id raw : Path} {body : List Char}
  {digest : String}

lemma Matched.symm {v : Unicode} {other : Rules} (m : Matched hash doc u v rules other) :
    Matched hash doc v u other rules :=
  { kinds := fun path => (m.kinds path).symm
    refusals := m.refusals.symm
    notices := fun d => (m.notices d).symm
    files := fun path e => (m.files path e).symm }

lemma everyCandidate_nodup (doc : Document) : (everyCandidate doc).Nodup := by
  refine Nodup.append (textCandidates_nodup doc) (assetCandidates_nodup doc) ?_
  intro c ht ha
  obtain ⟨_, _, _, rfl, -⟩ := mem_textCandidates.1 ht
  obtain ⟨_, _, heq, -⟩ := mem_assetCandidates.1 ha
  cases heq

lemma mem_everyCandidate (hc : c ∈ candidates u rules doc) : c ∈ everyCandidate doc :=
  mem_append.2 (mem_candidates.1 hc).1

/-- Candidates of one kind are told apart by their keys. -/
lemma eq_of_key (hc : c ∈ everyCandidate doc) (hd : d ∈ everyCandidate doc)
    (hkind : c.kind = d.kind) (hkey : c.key = d.key) : c = d := by
  rcases mem_append.1 hc with hc | hc <;> rcases mem_append.1 hd with hd | hd
  · obtain ⟨id, path, body, rfl, hbody, hpath⟩ := mem_textCandidates.1 hc
    obtain ⟨id', path', body', rfl, hbody', hpath'⟩ := mem_textCandidates.1 hd
    obtain rfl : id = id' := hkey
    obtain rfl := Option.some.inj (hbody.symm.trans hbody')
    obtain rfl := Option.some.inj (hpath.symm.trans hpath')
    rfl
  · obtain ⟨_, _, _, rfl, -⟩ := mem_textCandidates.1 hc
    obtain ⟨_, _, rfl, -⟩ := mem_assetCandidates.1 hd
    cases hkind
  · obtain ⟨_, _, rfl, -⟩ := mem_assetCandidates.1 hc
    obtain ⟨_, _, _, rfl, -⟩ := mem_textCandidates.1 hd
    cases hkind
  · obtain ⟨path, digest, rfl, hdigest⟩ := mem_assetCandidates.1 hc
    obtain ⟨path', digest', rfl, hdigest'⟩ := mem_assetCandidates.1 hd
    obtain rfl : path = path' := append_cancel_left hkey
    obtain rfl := Option.some.inj (hdigest.symm.trans hdigest')
    rfl

/-- The kind of file that a path names. -/
lemma kindOf_normalise {kind : Kind} (h : admission u rules path = .ok kind) :
    Source.kindOf u rules (normalise u path) = .ok kind := by
  unfold admission at h
  dsimp only at h
  simp only [ite_error_eq_ok] at h
  obtain ⟨-, -, -, -, -, -, h⟩ := h
  split at h
  · cases h
  · exact h

lemma kindOf_name (hc : c ∈ candidates u rules doc) :
    Source.kindOf u rules (c.name u) = .ok c.kind :=
  kindOf_normalise (mem_candidates.1 hc).2

variable {u v : Unicode} {rules other : Rules} (m : Matched hash doc u v rules other)
include m

lemma Matched.kind_eq (hc : c ∈ candidates u rules doc) (hd : d ∈ candidates v other doc)
    (hname : d.name v = c.name u) : c.kind = d.kind := by
  have hdkind := kindOf_name hd
  rw [hname, ← m.kinds, kindOf_name hc] at hdkind
  exact Except.ok.inj hdkind

lemma Matched.text_mem (hc : .text id raw body ∈ candidates u rules doc) :
    .text id raw body ∈ candidates v other doc := by
  have hserver := filing_placing (u := u) (candidates_nodup u rules doc)
  have hbrowser := filing_placing (u := v) (candidates_nodup v other doc)
  rcases hserver.each _ hc with hplaced | hdropped
  · rw [append_nil] at hplaced
    obtain ⟨⟨path, c⟩, hp, rfl⟩ := mem_map.1 hplaced
    obtain ⟨d, hd, hentry⟩ := (m.files path _).1 ⟨_, hp, rfl⟩
    have hmem : d ∈ candidates v other doc :=
      hbrowser.among d (mem_append_left _ (mem_map_of_mem hd))
    cases d with
    | text id' raw' body' =>
      obtain rfl : id' = id := (Entry.mk.inj hentry).2.1
      have heq := eq_of_key (mem_everyCandidate hmem) (mem_everyCandidate hc) rfl rfl
      rwa [heq] at hmem
    | asset path' digest => cases (Entry.mk.inj hentry).1
  · obtain ⟨d, hd, hkey, hname⟩ := hbrowser.dropped _ _ ((m.notices _).1 hdropped)
    have heq := eq_of_key (mem_everyCandidate hc) (mem_everyCandidate hd)
      (m.kind_eq hc hd hname) hkey.symm
    rwa [← heq] at hd

lemma Matched.asset_mem (hc : .asset path digest ∈ candidates u rules doc) :
    .asset path digest ∈ candidates v other doc := by
  have hmem : ∀ {w : Unicode} {r : Rules} {c : Candidate}, c ∈ everyCandidate doc →
      (c ∈ candidates w r doc ↔ c ∉ refused doc w r) := by
    intro w r c hall
    rw [mem_candidates, ← mem_append, ← refusal_eq_none, refused, mem_filter,
      and_iff_right hall, Option.not_isSome_iff_eq_none]
    exact and_iff_right hall
  have hall := mem_everyCandidate hc
  by_contra hno
  have hin : Candidate.asset path digest ∈ refused doc v other := by
    by_contra hout
    exact hno ((hmem hall).2 hout)
  obtain ⟨b, hb, hbout, hnotice⟩ := exists_of_map_perm
    (Nodup.filter _ (everyCandidate_nodup doc)) m.refusals.symm hin ((hmem hall).1 hc)
  have hball : b ∈ everyCandidate doc := (mem_filter.1 hb).1
  cases b with
  | text id raw body =>
    have hbv := (hmem hball).2 hbout
    exact (hmem hball).1 (m.symm.text_mem hbv) hb
  | asset path' digest' =>
    have heq := eq_of_key hball hall rfl (Diagnostic.invalidPath.inj hnotice).1
    exact (hmem hall).1 hc (heq ▸ hb)

/-- What gets no path or another one has one name for both. -/
lemma Matched.name_of_notice (hc : c ∈ candidates u rules doc)
    (h : .dropped c.key (c.name u) ∈ (placing u (candidates u rules doc)).2.2 ∨
      ∃ path, .moved c.key (c.name u) path ∈ (placing u (candidates u rules doc)).2.2) :
    c.name u = c.name v := by
  have hother := filing_placing (u := v) (candidates_nodup v other doc)
  obtain ⟨d, hd, hkey, hname⟩ : ∃ d ∈ candidates v other doc, d.key = c.key ∧ d.name v = c.name u := by
    rcases h with hdropped | ⟨path, hmoved⟩
    · exact hother.dropped _ _ ((m.notices _).1 hdropped)
    · obtain ⟨d, hd, hkey, hname⟩ := hother.moved _ _ _ ((m.notices _).1 hmoved)
      exact ⟨d, hother.among d (mem_append_left _ (mem_map_of_mem hd)), hkey, hname⟩
  have heq := eq_of_key (mem_everyCandidate hc) (mem_everyCandidate hd)
    (m.kind_eq hc hd hname) hkey.symm
  rw [heq]
  exact (heq ▸ hname).symm

omit m in
/-- What has no notice is filed under its name. -/
lemma filed_or_noticed (hc : c ∈ candidates u rules doc) :
    (c.name u, c) ∈ (placing u (candidates u rules doc)).2.1 ∨
      .dropped c.key (c.name u) ∈ (placing u (candidates u rules doc)).2.2 ∨
        ∃ path, .moved c.key (c.name u) path ∈ (placing u (candidates u rules doc)).2.2 := by
  have hfiling := filing_placing (u := u) (candidates_nodup u rules doc)
  rcases hfiling.each c hc with hplaced | hdropped
  · rw [append_nil] at hplaced
    obtain ⟨⟨path, d⟩, hp, rfl⟩ := mem_map.1 hplaced
    rcases hfiling.told _ hp with hpath | hmoved
    · obtain rfl : path = d.name u := hpath
      exact .inl hp
    · exact .inr (.inr ⟨path, hmoved⟩)
  · exact .inr (.inl hdropped)

omit m in
lemma path_eq_of_placed {path' : Path} (hp : (path, c) ∈ (placing u (candidates u rules doc)).2.1)
    (hp' : (path', c) ∈ (placing u (candidates u rules doc)).2.1) : path = path' := by
  have honce := (filing_placing (u := u) (candidates_nodup u rules doc)).once
  rw [append_nil] at honce
  exact congrArg Prod.fst (inj_on_of_nodup_map honce hp hp' rfl)

omit m in
lemma placed_eq_of_path (hc : (path, c) ∈ (placing u (candidates u rules doc)).2.1)
    (hd : (path, d) ∈ (placing u (candidates u rules doc)).2.1) : c = d :=
  congrArg Prod.snd (inj_on_of_nodup_map (paths_nodup u rules doc) hc hd rfl)

omit m in
lemma mem_of_placed (hc : (path, c) ∈ (placing u (candidates u rules doc)).2.1) :
    c ∈ candidates u rules doc :=
  (filing_placing (u := u) (candidates_nodup u rules doc)).among c
    (mem_append_left _ (mem_map_of_mem hc))

lemma Matched.text_name (hc : .text id raw body ∈ candidates u rules doc) :
    (Candidate.text id raw body).name u = (Candidate.text id raw body).name v := by
  have hcv := m.text_mem hc
  rcases filed_or_noticed hc with hp | hnotice
  · rcases filed_or_noticed hcv with hpv | hnotice
    · obtain ⟨d, hd, hentry⟩ := (m.files _ _).1 ⟨_, hp, rfl⟩
      cases d with
      | text id' raw' body' =>
        obtain rfl : id' = id := (Entry.mk.inj hentry).2.1
        have heq := eq_of_key (mem_everyCandidate (mem_of_placed hd)) (mem_everyCandidate hc) rfl rfl
        rw [heq] at hd
        exact path_eq_of_placed hd hpv
      | asset path' digest => cases (Entry.mk.inj hentry).1
    · exact (m.symm.name_of_notice hcv hnotice).symm
  · exact m.name_of_notice hc hnotice

/-- An asset has one name for both, or what the first calls it is a name for the second. -/
lemma Matched.asset_name (hc : .asset path digest ∈ candidates u rules doc) :
    (Candidate.asset path digest).name u = (Candidate.asset path digest).name v ∨
      ∃ raw, (Candidate.asset path digest).name u = normalise v raw := by
  have hcv := m.asset_mem hc
  rcases filed_or_noticed hc with hp | hnotice
  · rcases filed_or_noticed hcv with hpv | hnotice
    · obtain ⟨d, hd, hentry⟩ := (m.files _ _).1 ⟨_, hp, rfl⟩
      have hother := filing_placing (u := v) (candidates_nodup v other doc)
      rcases hother.told _ hd with hname | hmoved
      · exact .inr ⟨d.requested, hname⟩
      · have hfiling := filing_placing (u := u) (candidates_nodup u rules doc)
        obtain ⟨e, he, hkey, -⟩ := hfiling.moved _ _ _ ((m.notices _).2 hmoved)
        obtain rfl := placed_eq_of_path he hp
        have hkind : d.kind = Kind.asset := by
          cases d with
          | text id raw body => cases (Entry.mk.inj hentry).1
          | asset path' digest' => rfl
        obtain rfl := eq_of_key (mem_everyCandidate (mem_of_placed hd)) (mem_everyCandidate hc)
          hkind hkey.symm
        exact .inl (path_eq_of_placed hd hpv)
    · exact .inl (m.symm.name_of_notice hcv hnotice).symm
  · exact .inl (m.name_of_notice hc hnotice)

end Matched

section Strips
variable {p q : Char → Bool} {text : List Char}

lemma dropWhile_or (h : (text.dropWhile p).head?.any q = false) :
    text.dropWhile (fun c => p c || q c) = text.dropWhile p := by
  induction text with
  | nil => rfl
  | cons c text ih =>
    by_cases hc : p c = true
    · rw [dropWhile_cons_of_pos hc] at h ⊢
      rw [dropWhile_cons_of_pos (by rw [hc]; rfl), ih h]
    · rw [dropWhile_cons_of_neg hc] at h ⊢
      have hq : q c = false := h
      exact dropWhile_cons_of_neg (by rw [hq, Bool.or_false]; exact hc)

lemma head_strip (p : Char → Bool) (text : List Char) :
    (strip p text).head? = (text.dropWhile p).head? := by
  rw [strip_eq]
  cases hdrop : text.dropWhile p with
  | nil => rfl
  | cons c rest =>
    have hne : text.dropWhile p ≠ [] := by
      rw [hdrop]
      exact cons_ne_nil _ _
    have hhead := head_dropWhile_not p hne
    simp only [hdrop, head_cons] at hhead
    have hprefix := rdropWhile_prefix p (c :: rest)
    cases hstrip : (c :: rest).rdropWhile p with
    | nil =>
      rw [rdropWhile_eq_nil_iff] at hstrip
      have hc := hstrip c mem_cons_self
      rw [hhead] at hc
      cases hc
    | cons d more =>
      rw [hstrip] at hprefix
      rw [(cons_prefix_cons.1 hprefix).1]
      rfl

/-- A text that one trims to what the other would not trim is trimmed so by both at once. -/
lemma strip_or (h : Clean q (strip p text)) : strip (fun c => p c || q c) text = strip p text := by
  have hhead := h.1
  have hlast := h.2
  rw [head_strip] at hhead
  rw [strip_eq, rdropWhile, getLast?_reverse] at hlast
  rw [strip_eq, strip_eq, dropWhile_or hhead, rdropWhile, rdropWhile, dropWhile_or hlast]

lemma strip_eq_strip (h : Clean q (strip p text)) (h' : Clean p (strip q text)) :
    strip p text = strip q text := by
  rw [← strip_or h, ← strip_or h']
  exact congrArg (strip · text) (funext fun c => Bool.or_comm _ _)

end Strips

section Same
variable {u : Unicode} {h : Composes u} {config : Config} {doc : Document}
  {hash : List Char → String}

lemma asset_name_eq {path : Path} {digest : String}
    (m : Matched hash doc u (u.browser h) config.rules config.shown)
    (hc : .asset path digest ∈ candidates u config.rules doc) :
    (Candidate.asset path digest).name u = (Candidate.asset path digest).name (u.browser h) := by
  rcases m.asset_name hc with hname | ⟨raw, hraw⟩
  · exact hname
  · rcases m.symm.asset_name (m.asset_mem hc) with hname | ⟨raw', hraw'⟩
    · exact hname.symm
    · have hserver : Clean isSpace (strip isWhitespace path) := by
        have hclean := clean_normalise_browser h raw
        rw [← hraw, Candidate.name, normalise, h.trim, h.browser] at hclean
        exact hclean
      have hbrowser : Clean isWhitespace (strip isSpace path) := by
        have hclean := clean_normalise h raw'
        rw [← hraw'] at hclean
        exact (h.server _).1 hclean
      change u.nfc (u.trim path) = u.nfc (strip isSpace path)
      rw [h.trim, strip_eq_strip hserver hbrowser]

lemma agreed_of_matched (m : Matched hash doc u (u.browser h) config.rules config.shown) :
    ∀ c ∈ everyCandidate doc, Agreed h config c := by
  intro c hc
  have hmem : ∀ {w : Unicode} {r : Rules}, c ∈ candidates w r doc ↔ refusal w r c = none := by
    intro w r
    rw [mem_candidates, ← mem_append, ← refusal_eq_none]
    exact and_iff_right hc
  have hforth : c ∈ candidates u config.rules doc → c ∈ candidates (u.browser h) config.shown doc ∧
      c.name u = c.name (u.browser h) := by
    intro hin
    cases c with
    | text id raw body => exact ⟨m.text_mem hin, m.text_name hin⟩
    | asset path digest => exact ⟨m.asset_mem hin, asset_name_eq m hin⟩
  by_cases hin : c ∈ candidates u config.rules doc
  · obtain ⟨hbrowser, hname⟩ := hforth hin
    exact .inr ⟨hmem.1 hin, hmem.1 hbrowser, hname⟩
  · refine .inl ⟨fun hno => hin (hmem.2 hno), fun hno => hin ?_⟩
    have hbrowser := hmem.2 hno
    cases c with
    | text id raw body => exact m.symm.text_mem hbrowser
    | asset path digest => exact m.symm.asset_mem hbrowser

lemma shape_displaced (d : Diagnostic) : d.shape.displaced = d.displaced := by cases d <;> rfl

variable {d : Diagnostic}

lemma shape_of_displaced (hd : d.displaced = true) : d.shape = d := by
  cases d with
  | invalidPath id path why => cases hd
  | _ => rfl

section Notices
variable (u : Unicode) (rules : Rules) (doc : Document)

lemma placing_displaced (hd : d ∈ (placing u (candidates u rules doc)).2.2) :
    d.displaced = true :=
  (filing_placing (u := u) (candidates_nodup u rules doc)).displaced d hd

lemma filter_displaced : ((noticed u rules doc).map Diagnostic.shape).filter
    Diagnostic.displaced = (placing u (candidates u rules doc)).2.2 := by
  have hnone : ∀ {l : List Diagnostic}, (∀ d ∈ l, d.displaced = false) →
      (l.map Diagnostic.shape).filter Diagnostic.displaced = [] := by
    intro l hl
    rw [filter_eq_nil_iff, forall_mem_map]
    intro d hd
    rw [shape_displaced, hl d hd]
    exact Bool.false_ne_true
  rw [noticed, map_append, map_append, filter_append, filter_append,
    hnone strayDiagnostics_displaced, hnone refusalDiagnostics_displaced, nil_append,
    nil_append]
  have hshape : (placing u (candidates u rules doc)).2.2.map Diagnostic.shape =
      (placing u (candidates u rules doc)).2.2 :=
    (map_congr_left fun d hd => shape_of_displaced (placing_displaced u rules doc hd)).trans
      (map_id _)
  rw [hshape, filter_eq_self]
  exact fun _ => placing_displaced u rules doc

lemma refusalDiagnostics_shape : (refusalDiagnostics u rules doc).map Diagnostic.shape =
    (refused doc u rules).map Candidate.notice := by
  unfold refusalDiagnostics refused everyCandidate
  generalize textCandidates doc ++ assetCandidates doc = all
  induction all with
  | nil => rfl
  | cons c all ih =>
    rw [filterMap_cons, filter_cons]
    cases refusal u rules c with
    | none => exact ih
    | some why => exact congrArg (c.notice :: ·) ih

lemma filter_not_displaced : ((noticed u rules doc).map Diagnostic.shape).filter
    (fun d => !d.displaced) = (strayDiagnostics doc).map Diagnostic.shape ++
      (refused doc u rules).map Candidate.notice := by
  have hself : ∀ {l : List Diagnostic}, (∀ d ∈ l, d.displaced = false) →
      (l.map Diagnostic.shape).filter (fun d => !d.displaced) = l.map Diagnostic.shape := by
    intro l hl
    rw [filter_eq_self, forall_mem_map]
    intro d hd
    rw [shape_displaced, hl d hd]
    rfl
  have hnone : ((placing u (candidates u rules doc)).2.2.map Diagnostic.shape).filter
      (fun d => !d.displaced) = [] := by
    rw [filter_eq_nil_iff, forall_mem_map]
    intro d hd
    rw [shape_displaced, placing_displaced u rules doc hd]
    exact Bool.false_ne_true
  rw [noticed, map_append, map_append, filter_append, filter_append,
    hself strayDiagnostics_displaced, hself refusalDiagnostics_displaced, hnone, append_nil,
    refusalDiagnostics_shape]

end Notices

lemma matched_of_same {say : Refusal → String}
    (hs : Same (project u config.rules doc hash) (Browser.project u say config doc hash)) :
    Matched hash doc u (u.browser h) config.rules config.shown := by
  have hperm : ((noticed u config.rules doc).map Diagnostic.shape).Perm
      ((noticed (u.browser h) config.shown doc).map Diagnostic.shape) := by
    have hlist := hs.diagnostics
    rw [browser_diagnostics h, project_diagnostics] at hlist
    exact ((sortByKey_perm _ _).map _).symm.trans ((Perm.of_eq hlist.symm).trans (sortBy_perm _ _))
  have hdisplaced := hperm.filter Diagnostic.displaced
  have hother := hperm.filter fun d => !d.displaced
  rw [filter_displaced, filter_displaced] at hdisplaced
  rw [filter_not_displaced, filter_not_displaced, perm_append_left_iff] at hother
  refine ⟨fun path => rfl, hother, fun d => hdisplaced.mem_iff, fun path e => ?_⟩
  have hfiles := hs.files
  rw [browser_files h, listed_files, listed_files] at hfiles
  have hmem : ∀ (w : Unicode) (r : Rules),
      (path, e) ∈ (sortedPlaces w r doc).map (fun p => (p.1, p.2.entry hash)) ↔
        ∃ c, (path, c) ∈ (placing w (candidates w r doc)).2.1 ∧ c.entry hash = e := by
    intro w r
    rw [mem_map]
    constructor
    · rintro ⟨⟨path', c⟩, hp, heq⟩
      cases heq
      exact ⟨c, (sortedPlaces_perm w r doc).mem_iff.1 hp, rfl⟩
    · rintro ⟨c, hp, rfl⟩
      exact ⟨(path, c), (sortedPlaces_perm w r doc).mem_iff.2 hp, rfl⟩
  rw [← hmem, ← hmem, hfiles]

/-- The browser has the projection of the server exactly when both find the same names in the
document, and the same order of what is noticed. -/
lemma same_iff_alike (say : Refusal → String) :
    Same (project u config.rules doc hash) (Browser.project u say config doc hash) ↔
      Alike h config doc := by
  refine ⟨fun hs => ?_, same_of_alike say hash⟩
  have hagreed := agreed_of_matched (matched_of_same (h := h) hs)
  refine ⟨hagreed, (ordered_iff u config.rules doc).2 ?_⟩
  have hlist := hs.diagnostics
  rw [browser_diagnostics h, noticed_agreed hagreed, project_diagnostics] at hlist
  exact hlist.symm

end Same

end LibrePaper.Source
