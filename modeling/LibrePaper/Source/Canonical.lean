import LibrePaper.Source.Twins

/-!
# The canonical form of a projection

No field of a line has a tab or a newline in it, so the lines can be read back. The browser and
the server have one projection of a document exactly when both find the same names in it.
-/
namespace LibrePaper.Source
open Library List
open Browser (Config Refusal strip isSpace)

/-- A path is the one asked for, or that path with a number. -/
def Spelled (name path : Path) : Prop := path = name ∨ ∃ nth, path = suffixed name nth

variable {path : Path} {c : Char} {u : Unicode} {rules : Rules} {doc : Document}

lemma mem_suffixed {nth : ℕ} (h : c ∈ suffixed path nth) :
    c ∈ path ∨ c = ' ' ∨ c = '(' ∨ c = ')' ∨ c.isDigit = true := by
  have hdigits : c ∈ (toString nth).toList → c.isDigit = true := by
    intro hc
    rw [Nat.toString_eq_repr, Nat.toList_repr] at hc
    exact Nat.isDigit_of_mem_toDigits (by decide) (by decide) hc
  have hjoin := splitExtension_join path
  have hstem : c ∈ (splitExtension path).1 → c ∈ path := fun hc => hjoin ▸ mem_append_left _ hc
  have hext : c ∈ (splitExtension path).2 → c ∈ path := fun hc => hjoin ▸ mem_append_right _ hc
  unfold suffixed at h
  dsimp only at h
  split_ifs at h
  · simp only [mem_append, mem_cons, not_mem_nil, or_false] at h
    rcases h with (((h | h | h) | h) | h) | h
    · exact .inl (hstem h)
    · exact .inr (.inl h)
    · exact .inr (.inr (.inl h))
    · exact .inr (.inr (.inr (.inr (hdigits h))))
    · exact .inr (.inr (.inr (.inl h)))
    · exact .inl (hext h)
  · simp only [mem_append, mem_cons, not_mem_nil, or_false] at h
    rcases h with ((h | h | h) | h) | h
    · exact .inl h
    · exact .inr (.inl h)
    · exact .inr (.inr (.inl h))
    · exact .inr (.inr (.inr (.inr (hdigits h))))
    · exact .inr (.inr (.inr (.inl h)))

section Spelled
variable {u : Unicode}

lemma reserve_spelled (r : Reserved) (c : Candidate)
    (h : ∀ p ∈ r.placed, Spelled (p.2.name u) p.1) :
    ∀ p ∈ (r.reserve u c).placed, Spelled (p.2.name u) p.1 := by
  by_cases hfree : free u r.taken (c.name u) = true
  · rw [reserve_free hfree]
    intro p hp
    rcases mem_append.1 hp with hp | hp
    · exact h p hp
    · rw [mem_singleton.1 hp]
      exact .inl rfl
  · rw [reserve_taken hfree]
    exact h

lemma suffix_spelled (s : List Path × List (Path × Candidate) × List Diagnostic) (c : Candidate)
    (h : ∀ p ∈ s.2.1, Spelled (p.2.name u) p.1) :
    ∀ p ∈ (suffix u s c).2.1, Spelled (p.2.name u) p.1 := by
  unfold suffix
  dsimp only
  split
  · intro p hp
    rcases mem_append.1 hp with hp | hp
    · exact h p hp
    · rw [mem_singleton.1 hp]
      exact .inr ⟨_, rfl⟩
  · exact h

lemma placing_spelled (u : Unicode) (all : List Candidate) :
    ∀ p ∈ (placing u all).2.1, Spelled (p.2.name u) p.1 := by
  have hreserve : ∀ (cs : List Candidate) (r : Reserved),
      (∀ p ∈ r.placed, Spelled (p.2.name u) p.1) →
        ∀ p ∈ (cs.foldl (Reserved.reserve u) r).placed, Spelled (p.2.name u) p.1 := by
    intro cs
    induction cs with
    | nil => exact fun r h => h
    | cons c cs ih => exact fun r h => ih _ (reserve_spelled r c h)
  have hsuffix : ∀ (cs : List Candidate) (s : List Path × List (Path × Candidate) × List Diagnostic),
      (∀ p ∈ s.2.1, Spelled (p.2.name u) p.1) →
        ∀ p ∈ (cs.foldl (suffix u) s).2.1, Spelled (p.2.name u) p.1 := by
    intro cs
    induction cs with
    | nil => exact fun s h => h
    | cons c cs ih => exact fun s h => ih _ (suffix_spelled s c h)
  exact hsuffix _ _ (hreserve all ⟨[], [], []⟩ nofun)

end Spelled

/-- What a line of the canonical form says. -/
def row (e : Path × Entry) : Path × Kind × String := (e.1, e.2.kind, e.2.digest)

/-- A line that can be read back. -/
def Legible (e : Path × Entry) : Prop := '\t' ∉ e.1 ∧ '\n' ∉ e.2.digest.toList

lemma kindName_injective : Browser.kindName.Injective := by
  intro a b h
  cases a <;> cases b <;> first | rfl | exact absurd h (by decide)

lemma tab_notMem_kindName (kind : Kind) : '\t' ∉ Browser.kindName kind := by cases kind <;> decide

lemma rows_of_lines {l l' : List (Path × Entry)} (h : ∀ e ∈ l, Legible e)
    (h' : ∀ e ∈ l', Legible e) (heq : l.flatMap line = l'.flatMap line) : l.map row = l'.map row := by
  have hne : ∀ (e : Path × Entry) (rest : List Char), line e ++ rest ≠ [] := by
    intro e rest hnil
    have hlength := congrArg length hnil
    simp [line] at hlength
  induction l generalizing l' with
  | nil =>
    cases l' with
    | nil => rfl
    | cons e' l' => exact absurd heq.symm (hne e' _)
  | cons e l ih =>
    cases l' with
    | nil => exact absurd heq (hne e _)
    | cons e' l' =>
      have hline : ∀ (e : Path × Entry) (rest : List Char), line e ++ rest =
          e.1 ++ '\t' :: (Browser.kindName e.2.kind ++ '\t' :: (e.2.digest.toList ++ '\n' :: rest)) := by
        intro e rest
        simp [line]
      rw [flatMap_cons, flatMap_cons, hline, hline] at heq
      obtain ⟨hpath, hrest⟩ := append_cons_inj (h e mem_cons_self).1 (h' e' mem_cons_self).1 heq
      obtain ⟨hkind, hrest⟩ := append_cons_inj (tab_notMem_kindName _) (tab_notMem_kindName _) hrest
      obtain ⟨hdigest, hrest⟩ := append_cons_inj (h e mem_cons_self).2 (h' e' mem_cons_self).2 hrest
      rw [map_cons, map_cons, ih (fun d hd => h d (mem_cons_of_mem _ hd))
        (fun d hd => h' d (mem_cons_of_mem _ hd)) hrest]
      have hrow : row e = row e' := Prod.ext hpath (Prod.ext (kindName_injective hkind)
        (String.toList_inj.1 hdigest))
      rw [hrow]

lemma rows_of_canonicalBytes {files files' : Table Entry} (h : ∀ e ∈ listed files, Legible e)
    (h' : ∀ e ∈ listed files', Legible e) (heq : canonicalBytes files = canonicalBytes files') :
    (listed files).map row = (listed files').map row :=
  rows_of_lines h h' (append_cancel_left (octets_injective heq))

lemma control_notMem {kind : Kind} (h : admission u rules path = .ok kind) (hc : c.toNat < 0x20) :
    c ∉ normalise u path := by
  unfold admission at h
  dsimp only at h
  simp only [ite_error_eq_ok] at h
  obtain ⟨-, -, -, -, hcontrol, -⟩ := h
  intro hin
  refine hcontrol (any_eq_true.2 ⟨c, hin, ?_⟩)
  rw [decide_eq_true hc]
  rfl

lemma digestAt_hex {digest : String} (h : doc.digestAt path = some digest) :
    '\n' ∉ digest.toList := by
  unfold Document.digestAt at h
  split at h
  · split_ifs at h with hhex
    cases h
    intro hin
    exact absurd (all_eq_true.1 hhex.2 _ hin) (by decide)
  · cases h

/-- The files of a projection can be read back from its canonical form. -/
lemma legible_files {hash : List Char → String} (hhash : ∀ text, '\n' ∉ (hash text).toList) :
    ∀ e ∈ listed (project u rules doc hash).files, Legible e := by
  rw [listed_files, forall_mem_map]
  intro p hp
  have hplaced := (sortedPlaces_perm u rules doc).mem_iff.1 hp
  have hc := mem_of_placed hplaced
  have htab := control_notMem (mem_candidates.1 hc).2 (c := '\t') (by decide)
  refine ⟨?_, ?_⟩
  · rcases placing_spelled u _ p hplaced with hpath | ⟨nth, hpath⟩
    · rw [hpath]
      exact htab
    · rw [hpath]
      intro hin
      rcases mem_suffixed hin with hin | hin
      · exact htab hin
      · exact absurd hin (by decide)
  · obtain ⟨path, c⟩ := p
    cases c with
    | text id raw body => exact hhash body
    | asset raw digest => exact digestAt_hex (asset_mem_candidates.1 hc).1

/-- The browser has the projection of the server exactly when both find the same names in the
document and order what is noticed alike; on either side, files that differ in a path, a kind or a
digest have different canonical bytes. -/
theorem browser_projects_alike {u : Unicode} (h : Composes u) {hash : List Char → String}
    (hhash : ∀ text, '\n' ∉ (hash text).toList) (say : Refusal → String) (config : Config)
    (doc : Document) :
    (Same (project u config.rules doc hash) (Browser.project u say config doc hash) ↔
      Alike h config doc) ∧
    (∀ (other : Config) (doc' : Document),
      canonicalBytes (project u config.rules doc hash).files =
        canonicalBytes (project u other.rules doc' hash).files →
      (listed (project u config.rules doc hash).files).map row =
        (listed (project u other.rules doc' hash).files).map row) ∧
    ∀ (other : Config) (doc' : Document),
      Browser.canonicalBytes [] (Browser.project u say config doc hash) =
        Browser.canonicalBytes [] (Browser.project u say other doc' hash) →
      (Browser.project u say config doc hash).files.map row =
        (Browser.project u say other doc' hash).files.map row := by
  refine ⟨same_iff_alike say, fun other doc' heq => ?_, fun other doc' heq => ?_⟩
  · exact rows_of_canonicalBytes (legible_files hhash) (legible_files hhash) heq
  · have hfiles := browser_files h say config doc hash
    have hfiles' := browser_files h say other doc' hash
    rw [canonicalBytes_browser hfiles, canonicalBytes_browser hfiles'] at heq
    rw [hfiles, hfiles']
    exact rows_of_canonicalBytes (legible_files hhash) (legible_files hhash) heq

/-- A Unicode without composition, and with the lower case of ASCII. -/
def uncomposed : Unicode where
  trim := strip isWhitespace
  nfc := id
  lower := List.map Char.toLower
  debug := String.ofList
  stable text := strip_of_clean (clean_strip isWhitespace text)

lemma composes_uncomposed : Composes uncomposed := ⟨rfl, fun _ => rfl, fun _ => Iff.rfl, fun _ => Iff.rfl⟩

def texConfig : Config := ⟨[".tex".toList], [".png".toList], [".pdf".toList], 200⟩

/-- A document with one text that asks for a path. -/
def oneText (path : Path) : Document :=
  { files := Finmap.singleton "a".toList (.text [])
    paths := Finmap.singleton "a".toList (.string path)
    assets := ∅ }

/-- A document with two paths that belong to no text. -/
def twoPaths (first second : Path) : Document :=
  { files := ∅
    paths := (Finmap.singleton first (.string "a.tex".toList)).insert second
      (.string "b.tex".toList)
    assets := ∅ }

lemma oneText_candidate (path : Path) :
    .text "a".toList path [] ∈ textCandidates (oneText path) :=
  mem_textCandidates.2 ⟨_, _, _, rfl, rfl, rfl⟩

/-- A name after a byte order mark is another name in the browser, and two ids stand in another
order there. -/
theorem browser_projects_otherwise :
    ¬Same (project uncomposed texConfig.rules (oneText "\uFEFFa.tex".toList) fun _ => "")
      (Browser.project uncomposed (fun _ => "") texConfig (oneText "\uFEFFa.tex".toList) fun _ => "") ∧
    ¬Same (project uncomposed texConfig.rules (twoPaths ['\uFF41'] [Char.ofNat 0x1F600]) fun _ => "")
      (Browser.project uncomposed (fun _ => "") texConfig (twoPaths ['\uFF41'] [Char.ofNat 0x1F600])
        fun _ => "") := by
  constructor
  · intro hs
    have halike := (same_iff_alike (h := composes_uncomposed) _).1 hs
    rcases halike.agreed _ (mem_append_left _ (oneText_candidate _)) with ⟨hno, -⟩ | ⟨-, -, hname⟩
    · exact hno (by decide)
    · exact absurd hname (by decide)
  · intro hs
    have halike := (same_iff_alike (h := composes_uncomposed) _).1 hs
    have hmem : ∀ id : Path, id ∈ [['\uFF41'], [Char.ofNat 0x1F600]] → Diagnostic.dangling id ∈
        noticed uncomposed texConfig.rules (twoPaths ['\uFF41'] [Char.ofNat 0x1F600]) := by
      intro id hid
      refine mem_append_left _ (mem_append_left _ (mem_append_left _
        (mem_append_right _ (mem_map_of_mem (mem_filter.2 ⟨?_, ?_⟩)))))
      · rw [mem_sortedKeys]
        revert id
        decide
      · revert id
        decide
    exact absurd (halike.ordered _ (hmem ['\uFF41'] (by decide)) _
      (hmem [Char.ofNat 0x1F600] (by decide)) (by decide)) (by decide)

/-- A text that asks for an ordinary path is projected alike. -/
theorem paper_projected_alike :
    Same (project uncomposed texConfig.rules (oneText "a.tex".toList) fun _ => "")
      (Browser.project uncomposed (fun _ => "") texConfig (oneText "a.tex".toList) fun _ => "") := by
  refine (browser_projects_alike composes_uncomposed (fun _ => by decide) (fun _ => "") texConfig
    (oneText "a.tex".toList)).1.2 ⟨?_, ?_⟩
  · unfold Agreed
    decide +kernel
  · unfold Ordered
    decide +kernel

end LibrePaper.Source
