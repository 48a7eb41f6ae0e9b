import LibrePaper.Source.Canonical

/-!
# The projection is a tree

Whatever order the maps of a document give their keys in, its projection is one directory: no two
files collide, no file stands under another, and every candidate is in one place or dropped with a
notice.
-/
namespace LibrePaper.Source
open Library List

/-- The orders in which the maps of a document give their keys. The paths that are strings are
read again from a hash map, in the order of that map. -/
structure Enumeration (doc : Document) where
  files : List Path
  paths : List Path
  named : List Path
  assets : List Path
  files_perm : files.Perm (sortedKeys doc.files)
  paths_perm : paths.Perm (sortedKeys doc.paths)
  named_perm : named.Perm ((sortedKeys doc.paths).filter fun id => (doc.pathOf id).isSome)
  assets_perm : assets.Perm (sortedKeys doc.assets)

namespace Enumeration
variable {doc : Document} (e : Enumeration doc)

def fileIds : List Path := sortByKey id e.files

def assetPaths : List Path := sortByKey id e.assets

def textCandidates : List Candidate :=
  e.fileIds.filterMap fun id =>
    match doc.textById id, doc.pathOf id with
    | some body, some path => some (.text id path body)
    | _, _ => none

def assetCandidates : List Candidate :=
  e.assetPaths.filterMap fun path => (doc.digestAt path).map fun digest => .asset path digest

def strayDiagnostics : List Diagnostic :=
  (e.paths.filter fun id => (doc.pathOf id).isNone).map .unnamed ++
  (e.fileIds.filterMap fun id =>
    match doc.textById id, doc.pathOf id with
    | none, _ => some (.notAText id)
    | some _, none => some (.unnamed id)
    | some _, some _ => none) ++
  (e.named.filter fun id => (doc.textById id).isNone).map .dangling ++
  (e.assetPaths.filter fun path => (doc.digestAt path).isNone).map .notADigest

variable (u : Unicode) (rules : Rules)

def candidates : List Candidate :=
  sortByKey Candidate.order
    ((e.textCandidates ++ e.assetCandidates).filter fun c => (refusal u rules c).isNone)

def refusalDiagnostics : List Diagnostic :=
  (e.textCandidates ++ e.assetCandidates).filterMap fun c =>
    (refusal u rules c).map fun why => .invalidPath c.key c.requested why

/-- The document as a directory, read in an order of enumeration. -/
def project (hash : List Char → String) : Projected :=
  let reserved := reserve u (e.candidates u rules)
  let (_, placed, diagnostics) :=
    reserved.deferred.foldl (suffix u) (reserved.taken, reserved.placed, [])
  { files := fileAll hash placed
    diagnostics := sortByKey Diagnostic.sortKey
      (e.strayDiagnostics ++ e.refusalDiagnostics u rules ++ diagnostics)
    texts := textAll placed }

end Enumeration

lemma sortByKey_id_of_perm {l : List Path} {α : Type*} {table : Table α}
    (h : l.Perm (sortedKeys table)) : sortByKey id l = sortedKeys table := by
  have hsorted : (sortByKey id l).Pairwise fun a b : Path => a ≤ b := sortByKey_pairwise id l
  exact ((sortByKey_perm id l).trans h).eq_of_pairwise
    (fun _ _ _ _ hab => le_antisymm hab) hsorted (Finset.pairwise_sort _ _)

lemma forall_strayDiagnostics {doc : Document} {p : Diagnostic → Prop}
    (hnotAText : ∀ id, p (.notAText id)) (hunnamed : ∀ id, p (.unnamed id))
    (hdangling : ∀ id, p (.dangling id)) (hnotADigest : ∀ path, p (.notADigest path)) :
    ∀ d ∈ strayDiagnostics doc, p d := by
  intro d hd
  unfold strayDiagnostics at hd
  rw [mem_append, mem_append, mem_append] at hd
  rcases hd with ((hd | hd) | hd) | hd
  · obtain ⟨id, _, rfl⟩ := mem_map.1 hd
    exact hunnamed id
  · obtain ⟨id, -, hid⟩ := mem_filterMap.1 hd
    split at hid
    · cases hid
      exact hnotAText id
    · cases hid
      exact hunnamed id
    · cases hid
  · obtain ⟨id, _, rfl⟩ := mem_map.1 hd
    exact hdangling id
  · obtain ⟨path, _, rfl⟩ := mem_map.1 hd
    exact hnotADigest path

section Notices
variable {u : Unicode} {rules : Rules} {doc : Document}

variable {d : Diagnostic} {id : Path} {why : String}

lemma mem_noticed : d ∈ noticed u rules doc ↔ d ∈ strayDiagnostics doc ∨
    d ∈ refusalDiagnostics u rules doc ∨ d ∈ (placing u (candidates u rules doc)).2.2 := by
  rw [noticed, mem_append, mem_append, or_assoc]

lemma refused_of_noticed {path : Path} (h : .invalidPath id path why ∈ noticed u rules doc) :
    ∃ c ∈ everyCandidate doc, c.key = id ∧ c.requested = path ∧ refusal u rules c = some why := by
  rcases mem_noticed.1 h with h | h | h
  · exact (forall_strayDiagnostics (p := fun d => d ≠ .invalidPath id path why) (fun _ => nofun)
      (fun _ => nofun) (fun _ => nofun) (fun _ => nofun) _ h rfl).elim
  · obtain ⟨c, hc, hrefusal⟩ := mem_filterMap.1 h
    obtain ⟨w, hwhy, heq⟩ := Option.map_eq_some_iff.1 hrefusal
    cases heq
    exact ⟨c, hc, rfl, rfl, hwhy⟩
  · cases placing_displaced u rules doc h

lemma moved_of_noticed {start stop : Path} (h : .moved id start stop ∈ noticed u rules doc) :
    ∃ c, (stop, c) ∈ (placing u (candidates u rules doc)).2.1 ∧ c.key = id ∧ c.name u = start := by
  rcases mem_noticed.1 h with h | h | h
  · exact (forall_strayDiagnostics (p := fun d => d ≠ .moved id start stop) (fun _ => nofun)
      (fun _ => nofun) (fun _ => nofun) (fun _ => nofun) _ h rfl).elim
  · obtain ⟨c, -, hrefusal⟩ := mem_filterMap.1 h
    obtain ⟨w, -, heq⟩ := Option.map_eq_some_iff.1 hrefusal
    cases heq
  · exact (filing_placing (u := u) (candidates_nodup u rules doc)).moved _ _ _ h

/-- What refuses two candidates with one path refuses them alike. -/
lemma refusal_eq {c d : Candidate} {why' : String} (hpath : c.requested = d.requested)
    (hc : refusal u rules c = some why) (hd : refusal u rules d = some why') : why = why' := by
  have hkind : ∀ k : Kind, k ≠ c.kind → k ≠ d.kind → c.kind = d.kind := by
    intro k hck hdk
    cases k <;> cases hc : c.kind <;> cases hd : d.kind <;> simp_all
  unfold refusal at hc hd
  rw [hpath] at hc
  cases hok : admission u rules d.requested with
  | error w =>
    rw [hok] at hc hd
    exact (Option.some.inj hc).symm.trans (Option.some.inj hd)
  | ok kind =>
    rw [hok] at hc hd
    dsimp only at hc hd
    split_ifs at hc hd with hck hdk
    rw [hkind kind hck hdk] at hc
    exact (Option.some.inj hc).symm.trans (Option.some.inj hd)

lemma ctorIdx_of_tag (d : Diagnostic) : ["not-a-text".toList, "unnamed".toList,
    "dangling".toList, "not-a-digest".toList, "invalid-path".toList, "moved".toList,
    "dropped".toList].idxOf d.tag = d.ctorIdx := by
  cases d <;> rfl

/-- What is noticed of a document is told apart by what it is sorted by. -/
lemma sortKey_injOn {e : Diagnostic} (hd : d ∈ noticed u rules doc) (he : e ∈ noticed u rules doc)
    (h : d.sortKey = e.sortKey) : d = e := by
  have hkind : d.ctorIdx = e.ctorIdx := by
    have htag : d.tag = e.tag := congrArg (fun k => (ofLex k).1) h
    rw [← ctorIdx_of_tag, ← ctorIdx_of_tag, htag]
  have hpair : (ofLex d.sortKey).2 = (ofLex e.sortKey).2 := congrArg (fun k => (ofLex k).2) h
  cases d <;> cases e <;> try cases hkind
  case notAText.notAText => rw [(Prod.mk.inj hpair).1]
  case unnamed.unnamed => rw [(Prod.mk.inj hpair).1]
  case dangling.dangling => rw [(Prod.mk.inj hpair).1]
  case notADigest.notADigest => rw [(Prod.mk.inj hpair).1]
  case dropped.dropped =>
    cases hpair
    rfl
  case invalidPath.invalidPath id path why id' path' why' =>
    cases hpair
    obtain ⟨c, -, -, hpath, hc⟩ := refused_of_noticed hd
    obtain ⟨c', -, -, hpath', hc'⟩ := refused_of_noticed he
    rw [refusal_eq (hpath.trans hpath'.symm) hc hc']
  case moved.moved id start stop id' start' stop' =>
    cases hpair
    obtain ⟨c, hc, hkey, hname⟩ := moved_of_noticed hd
    obtain ⟨c', hc', hkey', hname'⟩ := moved_of_noticed he
    have hmem := mem_of_placed hc
    have hmem' := mem_of_placed hc'
    have hkinds : c'.kind = c.kind := by
      have hok := kindOf_name hmem
      rw [hname, ← hname', kindOf_name hmem'] at hok
      exact Except.ok.inj hok
    have hsame : c = c' := eq_of_key (mem_everyCandidate hmem) (mem_everyCandidate hmem')
      hkinds.symm (hkey.trans hkey'.symm)
    rw [← hsame] at hc'
    rw [path_eq_of_placed hc hc']

end Notices

namespace Enumeration
variable {doc : Document} (e : Enumeration doc) (u : Unicode) (rules : Rules)

lemma textCandidates_eq : e.textCandidates = Source.textCandidates doc := by
  unfold textCandidates fileIds
  rw [sortByKey_id_of_perm e.files_perm]
  rfl

lemma assetCandidates_eq : e.assetCandidates = Source.assetCandidates doc := by
  unfold assetCandidates assetPaths
  rw [sortByKey_id_of_perm e.assets_perm]
  rfl

lemma candidates_eq : e.candidates u rules = Source.candidates u rules doc := by
  unfold candidates
  rw [e.textCandidates_eq, e.assetCandidates_eq]
  rfl

lemma refusalDiagnostics_eq :
    e.refusalDiagnostics u rules = Source.refusalDiagnostics u rules doc := by
  unfold refusalDiagnostics
  rw [e.textCandidates_eq, e.assetCandidates_eq]
  rfl

lemma strayDiagnostics_perm : e.strayDiagnostics.Perm (Source.strayDiagnostics doc) := by
  unfold strayDiagnostics Source.strayDiagnostics fileIds assetPaths
  rw [sortByKey_id_of_perm e.files_perm, sortByKey_id_of_perm e.assets_perm]
  have hnamed : (e.named.filter fun id => (doc.textById id).isNone).Perm
      ((sortedKeys doc.paths).filter fun id =>
        (doc.pathOf id).isSome && (doc.textById id).isNone) := by
    have hperm := e.named_perm.filter fun id => (doc.textById id).isNone
    rw [filter_filter] at hperm
    refine hperm.trans (Perm.of_eq (filter_congr fun id _ => Bool.and_comm _ _))
  exact ((((e.paths_perm.filter _).map _).append_right _).append (hnamed.map _)).append_right _

/-- The projection is the same in every order of enumeration. -/
lemma project_eq (hash : List Char → String) :
    e.project u rules hash = Source.project u rules doc hash := by
  have hdiagnostics : sortByKey Diagnostic.sortKey (e.strayDiagnostics ++
      e.refusalDiagnostics u rules ++ (placing u (Source.candidates u rules doc)).2.2) =
        sortByKey Diagnostic.sortKey (noticed u rules doc) := by
    have hperm : (e.strayDiagnostics ++ e.refusalDiagnostics u rules ++
        (placing u (Source.candidates u rules doc)).2.2).Perm (noticed u rules doc) := by
      rw [e.refusalDiagnostics_eq, noticed]
      exact (e.strayDiagnostics_perm.append_right _).append_right _
    refine (((sortByKey_perm _ _).trans hperm).trans (sortByKey_perm _ _).symm).eq_of_pairwise
      (fun a b ha hb hab hba => ?_) (sortByKey_pairwise _ _) (sortByKey_pairwise _ _)
    exact sortKey_injOn (hperm.mem_iff.1 ((mem_sortByKey _ _ _).1 ha))
      ((mem_sortByKey _ _ _).1 hb) (le_antisymm hab hba)
  unfold project
  rw [e.candidates_eq]
  change Projected.mk _ (sortByKey Diagnostic.sortKey (e.strayDiagnostics ++
    e.refusalDiagnostics u rules ++ (placing u (Source.candidates u rules doc)).2.2)) _ = _
  rw [hdiagnostics]
  rfl

end Enumeration

section Apart
variable {u : Unicode}

lemma pairwise_take {taken : List Path} {path : Path}
    (h : taken.Pairwise fun a b => apart a b = true) (hfree : free u taken path = true) :
    (taken ++ [collisionKey u path]).Pairwise fun a b => apart a b = true := by
  refine pairwise_append.2 ⟨h, pairwise_singleton _ _, fun a ha b hb => ?_⟩
  rw [mem_singleton.1 hb]
  exact all_eq_true.1 hfree a ha

lemma reserve_apart (r : Reserved) (c : Candidate)
    (h : r.taken.Pairwise fun a b => apart a b = true) :
    (r.reserve u c).taken.Pairwise fun a b => apart a b = true := by
  by_cases hfree : free u r.taken (c.name u) = true
  · rw [reserve_free hfree]
    exact pairwise_take h hfree
  · rw [reserve_taken hfree]
    exact h

lemma suffix_apart (s : List Path × List (Path × Candidate) × List Diagnostic) (c : Candidate)
    (h : s.1.Pairwise fun a b => apart a b = true) :
    (suffix u s c).1.Pairwise fun a b => apart a b = true := by
  unfold suffix
  dsimp only
  split
  · next nth hnth =>
    exact pairwise_take h (by simpa using find?_some hnth)
  · exact h

/-- No two keys that are taken collide, and none is a directory above another. -/
lemma placing_apart (u : Unicode) (all : List Candidate) :
    (placing u all).1.Pairwise fun a b => apart a b = true := by
  have hreserve : ∀ (cs : List Candidate) (r : Reserved),
      r.taken.Pairwise (fun a b => apart a b = true) →
        (cs.foldl (Reserved.reserve u) r).taken.Pairwise fun a b => apart a b = true := by
    intro cs
    induction cs with
    | nil => exact fun r h => h
    | cons c cs ih => exact fun r h => ih _ (reserve_apart r c h)
  have hsuffix : ∀ (cs : List Candidate) (s : List Path × List (Path × Candidate) × List Diagnostic),
      s.1.Pairwise (fun a b => apart a b = true) →
        (cs.foldl (suffix u) s).1.Pairwise fun a b => apart a b = true := by
    intro cs
    induction cs with
    | nil => exact fun s h => h
    | cons c cs ih => exact fun s h => ih _ (suffix_apart s c h)
  exact hsuffix _ _ (hreserve all ⟨[], [], []⟩ Pairwise.nil)

end Apart

section Kept
variable {u : Unicode}

variable {r : Reserved} {p : Path × Candidate}

lemma placed_reserve (h : p ∈ r.placed) (cs : List Candidate) :
    p ∈ (cs.foldl (Reserved.reserve u) r).placed := by
  induction cs generalizing r with
  | nil => exact h
  | cons c cs ih =>
    refine ih ?_
    by_cases hfree : free u r.taken (c.name u) = true
    · rw [reserve_free hfree]
      exact mem_append_left _ h
    · rwa [reserve_taken hfree]

lemma placed_suffix {s : List Path × List (Path × Candidate) × List Diagnostic} (h : p ∈ s.2.1)
    (cs : List Candidate) : p ∈ (cs.foldl (suffix u) s).2.1 := by
  induction cs generalizing s with
  | nil => exact h
  | cons c cs ih =>
    refine ih ?_
    unfold suffix
    dsimp only
    split
    · exact mem_append_left _ h
    · exact h

lemma Reserved.Of.foldl (h : r.Of u) (cs : List Candidate) :
    (cs.foldl (Reserved.reserve u) r).Of u := by
  induction cs generalizing r with
  | nil => exact h
  | cons c cs ih => exact ih (h.reserve c)

lemma snd_placed_reserve (cs : List Candidate) :
    ∀ p ∈ (cs.foldl (Reserved.reserve u) r).placed, p ∈ r.placed ∨ p.2 ∈ cs := by
  induction cs generalizing r with
  | nil => exact fun _ => .inl
  | cons c cs ih =>
    intro p hp
    rcases ih p hp with hp | hp
    · by_cases hfree : free u r.taken (c.name u) = true
      · rw [reserve_free hfree] at hp
        rcases mem_append.1 hp with hp | hp
        · exact .inl hp
        · rw [mem_singleton.1 hp]
          exact .inr mem_cons_self
      · rw [reserve_taken hfree] at hp
        exact .inl hp
    · exact .inr (mem_cons_of_mem _ hp)

/-- A candidate that can stand beside all others gets the path it asks for. -/
lemma placing_kept {all : List Candidate} (hall : all.Nodup) {c : Candidate} (hc : c ∈ all)
    (h : ∀ d ∈ all, d ≠ c → Beside u d c) : (c.name u, c) ∈ (placing u all).2.1 := by
  obtain ⟨before, after, rfl⟩ := append_of_mem hc
  have hnotin : c ∉ before := fun hin =>
    (nodup_append.1 hall).2.2 c hin c mem_cons_self rfl
  refine placed_suffix ?_ _
  unfold reserve
  rw [foldl_append, foldl_cons]
  refine placed_reserve ?_ after
  have hfree := ((reserved_start u).foldl before).free_iff c
  rw [reserve_free (hfree.2 fun p hp => ?_)]
  · exact mem_append_right _ (mem_singleton_self _)
  · have hin : p.2 ∈ before := (snd_placed_reserve before p hp).resolve_left not_mem_nil
    exact h p.2 (mem_append_left _ hin) fun heq => hnotin (heq ▸ hin)

end Kept

/-- Every file of a projection is in the place of one candidate. -/
structure Placed (u : Unicode) (rules : Rules) (doc : Document) (hash : List Char → String)
    (p : Projected) (place : Candidate → Option Path) : Prop where
  own : ∀ c ∈ candidates u rules doc, ∀ d ∈ candidates u rules doc, ∀ path,
    place c = some path → place d = some path → c = d
  files : ∀ path e, p.files.lookup path = some e ↔
    ∃ c ∈ candidates u rules doc, place c = some path ∧ c.entry hash = e
  texts : ∀ path body, p.texts.lookup path = some body ↔
    ∃ c ∈ candidates u rules doc, place c = some path ∧ c.body = some body
  dropped : ∀ c ∈ candidates u rules doc, place c = none →
    .dropped c.key (c.name u) ∈ p.diagnostics
  moved : ∀ c ∈ candidates u rules doc, ∀ path, place c = some path →
    path = c.name u ∨ .moved c.key (c.name u) path ∈ p.diagnostics
  kept : ∀ c ∈ candidates u rules doc, (∀ d ∈ candidates u rules doc, d ≠ c → Beside u d c) →
    place c = some (c.name u)

section Tree
variable (u : Unicode) (rules : Rules) (doc : Document) (hash : List Char → String)

/-- The place of a candidate. -/
def placeOf (c : Candidate) : Option Path :=
  ((placing u (candidates u rules doc)).2.1.find? fun p => p.2 = c).map Prod.fst

variable {u rules doc hash}

variable {path a b : Path} {e : Entry}

lemma placeOf_eq_some {c : Candidate} : placeOf u rules doc c = some path ↔
    (path, c) ∈ (placing u (candidates u rules doc)).2.1 := by
  unfold placeOf
  rw [Option.map_eq_some_iff]
  constructor
  · rintro ⟨⟨q, d⟩, hfind, rfl⟩
    have hd : d = c := by simpa using find?_some hfind
    exact hd ▸ mem_of_find?_eq_some hfind
  · intro hmem
    cases hfind : (placing u (candidates u rules doc)).2.1.find? fun p => p.2 = c with
    | none =>
      have hno := find?_eq_none.1 hfind _ hmem
      exact absurd (decide_eq_true rfl) hno
    | some p =>
      obtain ⟨q, d⟩ := p
      have hd : d = c := by simpa using find?_some hfind
      exact ⟨(q, d), rfl, path_eq_of_placed (hd ▸ mem_of_find?_eq_some hfind) hmem⟩

lemma lookup_project_files :
    (project u rules doc hash).files.lookup path = some e ↔
      ∃ c, (path, c) ∈ (placing u (candidates u rules doc)).2.1 ∧ c.entry hash = e := by
  rw [← mem_listed (e := (path, e)), listed_files, mem_map]
  constructor
  · rintro ⟨⟨q, c⟩, hp, heq⟩
    cases heq
    exact ⟨c, (sortedPlaces_perm u rules doc).mem_iff.1 hp, rfl⟩
  · rintro ⟨c, hp, rfl⟩
    exact ⟨(path, c), (sortedPlaces_perm u rules doc).mem_iff.2 hp, rfl⟩

lemma lookup_project_texts {body : List Char} :
    (project u rules doc hash).texts.lookup path = some body ↔
      ∃ c, (path, c) ∈ (placing u (candidates u rules doc)).2.1 ∧ c.body = some body := by
  rw [← mem_listed (e := (path, body)), listed_texts, mem_filterMap]
  constructor
  · rintro ⟨⟨q, c⟩, hp, hbody⟩
    obtain ⟨b, hb, heq⟩ := Option.map_eq_some_iff.1 hbody
    cases heq
    exact ⟨c, (sortedPlaces_perm u rules doc).mem_iff.1 hp, hb⟩
  · rintro ⟨c, hp, hb⟩
    exact ⟨(path, c), (sortedPlaces_perm u rules doc).mem_iff.2 hp,
      Option.map_eq_some_iff.2 ⟨body, hb, rfl⟩⟩

lemma mem_noticed_placing {d : Diagnostic}
    (h : d ∈ (placing u (candidates u rules doc)).2.2) :
    d ∈ (project u rules doc hash).diagnostics := by
  rw [project_diagnostics, mem_sortByKey]
  exact mem_noticed.2 (.inr (.inr h))

lemma placed_project : Placed u rules doc hash (project u rules doc hash)
    (placeOf u rules doc) := by
  have hfiling := filing_placing (u := u) (candidates_nodup u rules doc)
  refine ⟨fun c _ d _ path hc hd => ?_, fun path e => ?_, fun path body => ?_, fun c hc hnone => ?_,
    fun c _ path hpath => ?_, fun c hc hbeside => ?_⟩
  · exact placed_eq_of_path (placeOf_eq_some.1 hc) (placeOf_eq_some.1 hd)
  · rw [lookup_project_files]
    simp only [placeOf_eq_some]
    exact ⟨fun ⟨c, hp, he⟩ => ⟨c, mem_of_placed hp, hp, he⟩, fun ⟨c, _, hp, he⟩ => ⟨c, hp, he⟩⟩
  · rw [lookup_project_texts]
    simp only [placeOf_eq_some]
    exact ⟨fun ⟨c, hp, he⟩ => ⟨c, mem_of_placed hp, hp, he⟩, fun ⟨c, _, hp, he⟩ => ⟨c, hp, he⟩⟩
  · rcases hfiling.each c hc with hplaced | hdropped
    · rw [append_nil] at hplaced
      obtain ⟨⟨path, d⟩, hp, rfl⟩ := mem_map.1 hplaced
      cases hnone.symm.trans (placeOf_eq_some.2 hp)
    · exact mem_noticed_placing hdropped
  · exact (hfiling.told _ (placeOf_eq_some.1 hpath)).imp_right mem_noticed_placing
  · exact placeOf_eq_some.2 (placing_kept (candidates_nodup u rules doc) hc hbeside)

/-- The keys of two files stand apart. -/
lemma lookups_apart {e' : Entry} (he : (project u rules doc hash).files.lookup a = some e)
    (he' : (project u rules doc hash).files.lookup b = some e') (hab : a ≠ b) :
    apart (collisionKey u a) (collisionKey u b) = true := by
  obtain ⟨c, hc, -⟩ := lookup_project_files.1 he
  obtain ⟨d, hd, -⟩ := lookup_project_files.1 he'
  have hpairwise := placing_apart u (candidates u rules doc)
  rw [(filing_placing (u := u) (candidates_nodup u rules doc)).keys] at hpairwise
  have hne : ((a, c) : Path × Candidate) ≠ (b, d) := fun hno => hab (congrArg Prod.fst hno)
  have hsymm : ∀ p q : Path × Candidate,
      apart (collisionKey u p.1) (collisionKey u q.1) = true →
        apart (collisionKey u q.1) (collisionKey u p.1) = true := by
    intro p q hpq
    rwa [apart_comm]
  have : Std.Symm fun p q : Path × Candidate =>
      apart (collisionKey u p.1) (collisionKey u q.1) = true := ⟨hsymm⟩
  exact (pairwise_map.1 hpairwise).forall hc hd hne

lemma keys_apart (ha : a ∈ (project u rules doc hash).files)
    (hb : b ∈ (project u rules doc hash).files) (hab : a ≠ b) :
    apart (collisionKey u a) (collisionKey u b) = true := by
  obtain ⟨e, he⟩ := Finmap.mem_iff.1 ha
  obtain ⟨e', he'⟩ := Finmap.mem_iff.1 hb
  exact lookups_apart he he' hab

end Tree

/-- What Unicode says of a slash: it composes with nothing, and its neighbours do not depend on
each other's case. -/
structure Segmented (u : Unicode) : Prop where
  nfc : ∀ x y, u.nfc (x ++ '/' :: y) = u.nfc x ++ '/' :: u.nfc y
  lower : ∀ x y, u.lower (x ++ '/' :: y) = u.lower x ++ '/' :: u.lower y

section Directories
variable {u : Unicode} {rules : Rules} {doc : Document} {hash : List Char → String}

lemma above_iff (a b : Path) : above a b = true ↔ ∃ rest, b = a ++ '/' :: rest := by
  unfold above
  rw [List.isPrefixOf_iff_prefix]
  constructor
  · rintro ⟨rest, rfl⟩
    exact ⟨rest, append_assoc _ _ _⟩
  · rintro ⟨rest, rfl⟩
    exact ⟨rest, append_assoc _ _ _⟩

variable {a b : Path}

lemma above_collisionKey (h : Composes u) (hs : Segmented u) (ha : Clean isWhitespace a)
    (hb : Clean isWhitespace b) (hab : above a b = true) :
    above (collisionKey u a) (collisionKey u b) = true := by
  have hkey : ∀ {x : Path}, Clean isWhitespace x → collisionKey u x = u.lower (u.nfc x) := by
    intro x hx
    rw [collisionKey, normalise, h.trim, strip_of_clean hx]
  obtain ⟨rest, rfl⟩ := (above_iff a b).1 hab
  rw [hkey ha, hkey hb, hs.nfc, hs.lower]
  exact (above_iff _ _).2 ⟨_, rfl⟩

lemma clean_file (h : Composes u) (ha : a ∈ (project u rules doc hash).files) :
    Clean isWhitespace a := by
  obtain ⟨e, he⟩ := Finmap.mem_iff.1 ha
  obtain ⟨c, hc, -⟩ := lookup_project_files.1 he
  have hname : Clean isWhitespace (c.name u) := clean_normalise h _
  rcases placing_spelled u _ _ hc with hpath | ⟨nth, hpath⟩
  · obtain rfl : a = c.name u := hpath
    exact hname
  · obtain rfl : a = suffixed (c.name u) nth := hpath
    have hne := name_ne_nil (mem_candidates.1 (mem_of_placed hc)).2
    exact clean_suffixed (by decide) hne hname nth

/-- No file stands under another. -/
lemma not_above (h : Composes u) (hs : Segmented u) (ha : a ∈ (project u rules doc hash).files)
    (hb : b ∈ (project u rules doc hash).files) : above a b = false := by
  by_contra hno
  have hab := Bool.eq_true_of_not_eq_false hno
  by_cases heq : a = b
  · obtain ⟨rest, hrest⟩ := (above_iff a b).1 hab
    have hlength := congrArg length hrest
    rw [heq, length_append, length_cons] at hlength
    omega
  · have hapart := keys_apart ha hb heq
    have hkeys := above_collisionKey h hs (clean_file h ha) (clean_file h hb) hab
    unfold apart at hapart
    rw [hkeys, Bool.not_true, Bool.and_false, Bool.false_and] at hapart
    cases hapart

end Directories

/-- In whatever order the entries of a document are enumerated, its projection is the same tree:
the keys of its files stand apart, no file is a directory above another, every candidate has one
place of its own or a notice that it was dropped, and one without a conflict keeps its name. -/
theorem projection_is_a_tree (u : Unicode) (rules : Rules) (doc : Document)
    (hash : List Char → String) (e : Enumeration doc) :
    (∀ other : Enumeration doc, other.project u rules hash = e.project u rules hash) ∧
    (∀ a ∈ (e.project u rules hash).files, ∀ b ∈ (e.project u rules hash).files, a ≠ b →
      collisionKey u a ≠ collisionKey u b ∧ above (collisionKey u a) (collisionKey u b) = false) ∧
    (Composes u → Segmented u → ∀ a ∈ (e.project u rules hash).files,
      ∀ b ∈ (e.project u rules hash).files, above a b = false) ∧
    Placed u rules doc hash (e.project u rules hash) (placeOf u rules doc) := by
  refine ⟨fun other => ?_, fun a ha b hb hab => ?_, fun h hs a ha b hb => ?_, ?_⟩
  · rw [other.project_eq, e.project_eq]
  · rw [e.project_eq] at ha hb
    have hapart := keys_apart ha hb hab
    unfold apart at hapart
    rw [Bool.and_eq_true, Bool.and_eq_true, decide_eq_true_iff, Bool.not_eq_true'] at hapart
    exact hapart.1
  · rw [e.project_eq] at ha hb
    exact not_above h hs ha hb
  · rw [e.project_eq]
    exact placed_project

lemma segmented_uncomposed : Segmented uncomposed := ⟨fun _ _ => rfl, fun _ _ => map_append⟩

/-- The enumeration of a document with one text. -/
def oneEnumeration (path : Path) : Enumeration (oneText path) :=
  ⟨_, _, _, _, .refl _, .refl _, .refl _, .refl _⟩

theorem one_text_is_a_tree : ∀ a ∈ ((oneEnumeration "a.tex".toList).project uncomposed
      texConfig.rules fun _ => "").files,
    ∀ b ∈ ((oneEnumeration "a.tex".toList).project uncomposed texConfig.rules fun _ => "").files,
      above a b = false :=
  (projection_is_a_tree uncomposed texConfig.rules (oneText "a.tex".toList) (fun _ => "")
    (oneEnumeration "a.tex".toList)).2.2.1 composes_uncomposed segmented_uncomposed

end LibrePaper.Source
