import LibrePaper.Source.Placement

/-!
# Paths that candidates get

Every candidate gets the path it asks for, another one with a notice, or none with a notice. No two
candidates get one path, and every notice is about a candidate.
-/
namespace LibrePaper.Source
open Library List

/-- The keys, the candidates with their paths and the notices once every candidate had its turn. -/
def placing (u : Unicode) (all : List Candidate) :
    List Path × List (Path × Candidate) × List Diagnostic :=
  (reserve u all).deferred.foldl (suffix u) ((reserve u all).taken, (reserve u all).placed, [])

/-- What is so while candidates are placed; the rest have not had their last turn. -/
structure Filing (u : Unicode) (all : List Candidate) (taken : List Path)
    (placed : List (Path × Candidate)) (notices : List Diagnostic) (rest : List Candidate) :
    Prop where
  keys : taken = placed.map fun p => collisionKey u p.1
  distinct : taken.Nodup
  once : (placed.map Prod.snd ++ rest).Nodup
  among : ∀ c ∈ placed.map Prod.snd ++ rest, c ∈ all
  told : ∀ p ∈ placed, p.1 = p.2.name u ∨ .moved p.2.key (p.2.name u) p.1 ∈ notices
  each : ∀ c ∈ all, c ∈ placed.map Prod.snd ++ rest ∨ .dropped c.key (c.name u) ∈ notices
  dropped : ∀ key name, .dropped key name ∈ notices → ∃ c ∈ all, c.key = key ∧ c.name u = name
  moved : ∀ key name path, .moved key name path ∈ notices →
    ∃ c, (path, c) ∈ placed ∧ c.key = key ∧ c.name u = name
  displaced : ∀ d ∈ notices, d.displaced = true

namespace Filing
variable {u : Unicode} {all : List Candidate} {taken : List Path}
  {placed : List (Path × Candidate)} {notices : List Diagnostic} {rest : List Candidate}
  {c : Candidate}

lemma start (h : all.Nodup) : Filing u all [] [] [] all :=
  { keys := rfl
    distinct := nodup_nil
    once := h
    among := fun _ hc => hc
    told := nofun
    each := fun _ => .inl
    dropped := nofun
    moved := nofun
    displaced := nofun }

lemma perm {rest' : List Candidate} (h : Filing u all taken placed notices rest)
    (hperm : rest.Perm rest') : Filing u all taken placed notices rest' :=
  { h with
    once := (hperm.append_left _).nodup_iff.1 h.once
    among := fun c hc => h.among c ((hperm.append_left _).mem_iff.2 hc)
    each := fun c hc => (h.each c hc).imp_left (hperm.append_left _).mem_iff.1 }

variable {path : Path} {cs : List Candidate}

lemma notMem_of_free (hfree : free u taken path = true) : collisionKey u path ∉ taken := by
  intro hmem
  have hapart := all_eq_true.1 hfree _ hmem
  unfold apart at hapart
  simp at hapart

/-- A candidate gets a path. -/
lemma place {notices' : List Diagnostic} (h : Filing u all taken placed notices (c :: rest))
    (hfree : free u taken path = true) (hsub : ∀ d ∈ notices, d ∈ notices')
    (hnew : ∀ d ∈ notices', d ∈ notices ∨ d = .moved c.key (c.name u) path)
    (hpath : path = c.name u ∨ .moved c.key (c.name u) path ∈ notices') :
    Filing u all (taken ++ [collisionKey u path]) (placed ++ [(path, c)]) notices' rest := by
  have hlist : (placed ++ [(path, c)]).map Prod.snd ++ rest =
      placed.map Prod.snd ++ c :: rest := by
    rw [map_append, append_assoc]
    rfl
  refine ⟨?_, ?_, hlist ▸ h.once, hlist ▸ h.among, fun p hp => ?_, fun d hd => ?_,
    fun key name hd => ?_, fun key name q hd => ?_, fun d hd => ?_⟩
  · rw [h.keys, map_append]
    rfl
  · refine nodup_append.2 ⟨h.distinct, nodup_singleton _, fun a ha b hb => ?_⟩
    rw [mem_singleton.1 hb]
    exact fun hab => notMem_of_free hfree (hab ▸ ha)
  · rcases mem_append.1 hp with hp | hp
    · exact (h.told p hp).imp_right (hsub _)
    · obtain rfl := mem_singleton.1 hp
      exact hpath
  · rw [hlist]
    exact (h.each d hd).imp_right (hsub _)
  · rcases hnew _ hd with hd | hd
    · exact h.dropped key name hd
    · cases hd
  · rcases hnew _ hd with hd | hd
    · obtain ⟨e, he, hkey⟩ := h.moved key name q hd
      exact ⟨e, mem_append_left _ he, hkey⟩
    · cases hd
      exact ⟨c, mem_append_right _ (mem_singleton_self _), rfl, rfl⟩
  · rcases hnew d hd with hd | rfl
    · exact h.displaced d hd
    · rfl

/-- A candidate gets no path. -/
lemma drop (h : Filing u all taken placed notices (c :: rest)) :
    Filing u all taken placed (notices ++ [.dropped c.key (c.name u)]) rest := by
  have hc : c ∈ all := h.among c (mem_append_right _ mem_cons_self)
  have hsub : ∀ d ∈ placed.map Prod.snd ++ rest, d ∈ placed.map Prod.snd ++ c :: rest := by
    intro d hd
    rcases mem_append.1 hd with hd | hd
    · exact mem_append_left _ hd
    · exact mem_append_right _ (mem_cons_of_mem _ hd)
  refine ⟨h.keys, h.distinct, ?_, fun d hd => h.among d (hsub d hd), fun p hp => ?_,
    fun d hd => ?_, fun key name hd => ?_, fun key name q hd => ?_, fun d hd => ?_⟩
  · exact h.once.sublist ((sublist_cons_self c rest).append_left _)
  · exact (h.told p hp).imp_right (mem_append_left _)
  · rcases h.each d hd with hd | hd
    · rcases mem_append.1 hd with hd | hd
      · exact .inl (mem_append_left _ hd)
      · rcases mem_cons.1 hd with rfl | hd
        · exact .inr (mem_append_right _ (mem_singleton_self _))
        · exact .inl (mem_append_right _ hd)
    · exact .inr (mem_append_left _ hd)
  · rcases mem_append.1 hd with hd | hd
    · exact h.dropped key name hd
    · cases mem_singleton.1 hd
      exact ⟨c, hc, rfl, rfl⟩
  · rcases mem_append.1 hd with hd | hd
    · exact h.moved key name q hd
    · cases mem_singleton.1 hd
  · rcases mem_append.1 hd with hd | hd
    · exact h.displaced d hd
    · rw [mem_singleton.1 hd]
      rfl

/-- Every candidate gets its path or is put off. -/
lemma reserve {r : Reserved} (h : Filing u all r.taken r.placed [] (r.deferred ++ cs)) :
    Filing u all (cs.foldl (Reserved.reserve u) r).taken (cs.foldl (Reserved.reserve u) r).placed []
      (cs.foldl (Reserved.reserve u) r).deferred := by
  induction cs generalizing r with
  | nil => exact append_nil r.deferred ▸ h
  | cons c cs ih =>
    refine ih ?_
    by_cases hfree : free u r.taken (c.name u) = true
    · rw [reserve_free hfree]
      exact (h.perm perm_middle).place hfree (fun _ hd => hd) (fun _ => .inl) (.inl rfl)
    · rw [reserve_taken hfree]
      refine h.perm ?_
      rw [append_assoc]
      rfl

/-- Every candidate that was put off gets another path or is dropped. -/
lemma suffix {s : List Path × List (Path × Candidate) × List Diagnostic}
    (h : Filing u all s.1 s.2.1 s.2.2 cs) :
    Filing u all (cs.foldl (Source.suffix u) s).1 (cs.foldl (Source.suffix u) s).2.1
      (cs.foldl (Source.suffix u) s).2.2 [] := by
  induction cs generalizing s with
  | nil => exact h
  | cons c cs ih =>
    refine ih ?_
    unfold Source.suffix
    dsimp only
    split
    · next nth hnth =>
      have hfree : free u s.1 (suffixed (normalise u c.requested) nth) = true := by
        simpa using find?_some hnth
      refine h.place hfree (fun _ => mem_append_left _)
        (fun d hd => ?_) (.inr (mem_append_right _ (mem_singleton_self _)))
      exact (mem_append.1 hd).imp_right mem_singleton.1
    · exact h.drop

end Filing

lemma filing_placing {u : Unicode} {all : List Candidate} (h : all.Nodup) :
    Filing u all (placing u all).1 (placing u all).2.1 (placing u all).2.2 [] :=
  Filing.suffix (Filing.reserve (r := ⟨[], [], []⟩) (Filing.start h))

end LibrePaper.Source
