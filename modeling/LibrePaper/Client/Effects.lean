import LibrePaper.Client.Session

/-!
# What the calls of a session change

Most of what a session does only imports, raises the durable coverage and reports.
`Grows` says what such a call leaves alone and `Honest` that its reports read the state
that it leaves, so that the invariants of a run need no look into the calls themselves.
-/
namespace LibrePaper.Client
open Library List Option

variable {P : Type} [DecidableEq P] {R : Replica P} {c : Config}

/-- The operations in the local document. -/
def held (s : Session R) : Set (Operation P) := operations (R.oplogVersion s.doc)

/-- The operations that the server is awaited to cover. -/
def target (s : Session R) : Set (Operation P) := operations (s.saveTarget.getD ∅)

/-- The operations that the server has stated as durable. -/
def coverage (s : Session R) : Set (Operation P) := operations (s.durableCoverage.getD ∅)

lemma operations_mergeVectors (v w : Option (VersionVector P)) :
    operations (mergeVectors v w) = operations (v.getD ∅) ∪ operations (w.getD ∅) := by
  cases v <;> cases w <;> simp [mergeVectors]

variable {s s' : Session R} {a : Session R × List (Effect R)}
  {f : Session R → Session R × List (Effect R)} {st : JoinStep R} {answer : Fetched R} {w : Chain}
  {out : List (Effect R)}

/-- Nothing that is awaited is missing when the session calls itself covered. -/
lemma target_of_covered (h : coveredByDurable s = true) : target s ⊆ coverage s := by
  unfold coveredByDurable at h
  unfold target coverage
  cases ht : s.saveTarget with
  | none => simp
  | some t =>
    simp only [ht, Bool.or_eq_true, List.isEmpty_iff] at h
    rcases h with h | h
    · have he : t = ∅ := AList.ext h
      simp [he]
    · cases hc : s.durableCoverage with
      | none => simp [hc] at h
      | some v =>
        simp only [hc, covers_iff] at h
        exact operations_subset.2 h

lemma pending_eq_zero (hm : c.mayEdit = true) (hs : c.standalone = false)
    (h : (reading c s).pending = 0) : coveredByDurable s = true := by
  by_contra hc
  simp [reading, hm, hs, hc] at h

lemma pending_le_one (hs : c.standalone = false) (s : Session R) :
    (reading c s).pending ≤ 1 := by
  simp only [reading, hs, Bool.false_eq_true, if_false]
  split_ifs <;> omega

lemma mem_report {r : Report} (h : Effect.reported r ∈ report c s) : r = reading c s := by
  unfold report at h
  split_ifs at h
  · simp at h
  · simpa using h

/-- What importing, raising the coverage, sending and reporting leave alone. -/
structure Grows (s t : Session R) : Prop where
  doc : held s ⊆ held t
  target : t.saveTarget = s.saveTarget
  captured : t.hydrationCaptured = s.hydrationCaptured
  hydrating : t.hydrating = s.hydrating
  left : t.left = s.left
  generation : t.generation = s.generation
  arrivals : t.arrivals = s.arrivals
  gate : t.gate = s.gate
  abandoned : t.abandoned = s.abandoned
  coverage : coverage s ⊆ coverage t

namespace Grows

lemma refl (s : Session R) : Grows s s :=
  ⟨subset_rfl, rfl, rfl, rfl, rfl, rfl, rfl, rfl, rfl, subset_rfl⟩

lemma trans {s t u : Session R} (h : Grows s t) (h' : Grows t u) : Grows s u where
  doc := h.doc.trans h'.doc
  target := h'.target.trans h.target
  captured := h'.captured.trans h.captured
  hydrating := h'.hydrating.trans h.hydrating
  left := h'.left.trans h.left
  generation := h'.generation.trans h.generation
  arrivals := h'.arrivals.trans h.arrivals
  gate := h'.gate.trans h.gate
  abandoned := h'.abandoned.trans h.abandoned
  coverage := h.coverage.trans h'.coverage

end Grows

lemma held_foldl (us : List R.Update) (d : R.Doc) :
    operations (R.oplogVersion d) ⊆ operations (R.oplogVersion (us.foldl R.importUpdate d)) := by
  induction us generalizing d with
  | nil => exact subset_rfl
  | cons u us ih => exact (R.import_mono d u).trans (ih _)

lemma grows_importBatch (us : List R.Update) (s : Session R) :
    Grows s (importBatch us s).1 where
  doc := held_foldl us s.doc
  target := rfl
  captured := rfl
  hydrating := rfl
  left := rfl
  generation := rfl
  arrivals := rfl
  gate := rfl
  abandoned := rfl
  coverage := subset_rfl

lemma grows_flush (s : Session R) : Grows s (flushRemoteDuringHydration s).1 where
  doc := held_foldl s.remoteDuringHydration s.doc
  target := rfl
  captured := rfl
  hydrating := rfl
  left := rfl
  generation := rfl
  arrivals := rfl
  gate := rfl
  abandoned := rfl
  coverage := subset_rfl

lemma grows_mergeDurableCoverage (v : Option (VersionVector P)) (s : Session R) :
    Grows s (mergeDurableCoverage v s) := by
  cases v with
  | none => exact .refl s
  | some v =>
    refine ⟨subset_rfl, rfl, rfl, rfl, rfl, rfl, rfl, rfl, rfl, ?_⟩
    unfold coverage mergeDurableCoverage
    simp only [getD_some, operations_mergeVectors]
    exact Set.subset_union_left

lemma grows_catchUp (v : Option (VersionVector P)) (s : Session R) :
    Grows s (catchUp c v s).1 :=
  ⟨subset_rfl, rfl, rfl, rfl, rfl, rfl, rfl, rfl, rfl, subset_rfl⟩

lemma grows_announcePresence (s : Session R) : Grows s (announcePresence c s).1 := by
  unfold announcePresence
  split_ifs
  · exact .refl s
  · exact ⟨subset_rfl, rfl, rfl, rfl, rfl, rfl, rfl, rfl, rfl, subset_rfl⟩

lemma grows_andThen (ha : Grows s a.1) (hf : Grows a.1 (f a.1).1) : Grows s (andThen a f).1 :=
  ha.trans hf

lemma grows_finishJoin (v w : Option (VersionVector P)) (s : Session R) :
    Grows s (finishJoin c v w s).1 := by
  have hd := grows_mergeDurableCoverage w s
  have hj : Grows (mergeDurableCoverage w s) { mergeDurableCoverage w s with joined := true } :=
    ⟨subset_rfl, rfl, rfl, rfl, rfl, rfl, rfl, rfl, rfl, subset_rfl⟩
  have ha := hd.trans (hj.trans (grows_announcePresence (c := c) _))
  unfold finishJoin
  simp only
  split_ifs
  · exact hd
  · exact grows_andThen ha (grows_catchUp v _)
  · exact grows_andThen ha (.refl _)

lemma grows_receive (base : List R.Update) (frame : JoinFrame R) (s : Session R) :
    Grows s (receive c base frame s).1 :=
  (grows_importBatch _ s).trans ((grows_flush _).trans (grows_finishJoin _ _ _))

/-- A call whose reports read the state it leaves. -/
def Honest (c : Config) (a : Session R × List (Effect R)) : Prop :=
  ∀ r, Effect.reported r ∈ a.2 → r.pending = (reading c a.1).pending

lemma honest_andThen (ha : ∀ r, Effect.reported r ∉ a.2) (hf : Honest c (f a.1)) :
    Honest c (andThen a f) := by
  intro r hr
  rcases mem_append.1 hr with h | h
  · exact absurd h (ha r)
  · exact hf r h

lemma not_reported_imported (us : List R.Update) (r : Report) :
    Effect.reported r ∉ us.map (Effect.imported (R := R)) := by
  simp

lemma honest_report (s : Session R) : Honest c (s, report c s) := by
  intro r hr
  rw [mem_report hr]

lemma honest_nil (s : Session R) : Honest c (s, []) := by
  intro r hr
  exact absurd hr not_mem_nil

lemma honest_importBatch (us : List R.Update) (s : Session R) :
    Honest c (importBatch us s) := by
  intro r hr
  exact absurd hr (not_reported_imported us r)

lemma honest_catchUp (v : Option (VersionVector P)) (s : Session R) :
    Honest c (catchUp c v s) := by
  intro r hr
  rcases mem_append.1 hr with h | h
  · rw [mem_report h]
    rfl
  · simp at h

lemma honest_finishJoin (v w : Option (VersionVector P)) (s : Session R) :
    Honest c (finishJoin c v w s) := by
  unfold finishJoin
  simp only
  split_ifs with h hm
  · exact honest_report _
  · refine honest_andThen ?_ (honest_catchUp _ _)
    intro r
    unfold announcePresence
    split_ifs <;> simp
  · refine honest_andThen ?_ (honest_report _)
    intro r
    unfold announcePresence
    split_ifs <;> simp

lemma honest_receive (base : List R.Update) (frame : JoinFrame R) (s : Session R) :
    Honest c (receive c base frame s) :=
  honest_andThen (not_reported_imported _)
    (honest_andThen (not_reported_imported _) (honest_finishJoin _ _ _))

@[simp] lemma capture_doc (s : Session R) : (captureHydratedTarget c s).doc = s.doc := by
  unfold captureHydratedTarget rememberLocalTarget
  split_ifs <;> rfl

@[simp] lemma capture_left (s : Session R) : (captureHydratedTarget c s).left = s.left := by
  unfold captureHydratedTarget rememberLocalTarget
  split_ifs <;> rfl

@[simp] lemma capture_generation (s : Session R) :
    (captureHydratedTarget c s).generation = s.generation := by
  unfold captureHydratedTarget rememberLocalTarget
  split_ifs <;> rfl

@[simp] lemma capture_gate (s : Session R) : (captureHydratedTarget c s).gate = s.gate := by
  unfold captureHydratedTarget rememberLocalTarget
  split_ifs <;> rfl

@[simp] lemma capture_abandoned (s : Session R) :
    (captureHydratedTarget c s).abandoned = s.abandoned := by
  unfold captureHydratedTarget rememberLocalTarget
  split_ifs <;> rfl

@[simp] lemma capture_hydrating (s : Session R) :
    (captureHydratedTarget c s).hydrating = s.hydrating := by
  unfold captureHydratedTarget rememberLocalTarget
  split_ifs <;> rfl

@[simp] lemma capture_durableCoverage (s : Session R) :
    (captureHydratedTarget c s).durableCoverage = s.durableCoverage := by
  unfold captureHydratedTarget rememberLocalTarget
  split_ifs <;> rfl

@[simp] lemma capture_arrivals (s : Session R) :
    (captureHydratedTarget c s).arrivals = s.arrivals := by
  unfold captureHydratedTarget rememberLocalTarget
  split_ifs <;> rfl

lemma capture_captured (hm : c.mayEdit = true) (s : Session R) :
    (captureHydratedTarget c s).hydrationCaptured = true := by
  unfold captureHydratedTarget
  split_ifs with h
  · simpa [hm] using h
  · rfl

lemma target_remember (hm : c.mayEdit = true) (s : Session R) :
    target (rememberLocalTarget c s) = target s ∪ held s := by
  unfold target rememberLocalTarget
  rw [if_pos hm]
  simp only [getD_some, operations_mergeVectors]
  rfl

lemma target_capture (hm : c.mayEdit = true) (s : Session R) :
    target (captureHydratedTarget c s) =
      if s.hydrationCaptured then target s else target s ∪ held s := by
  unfold captureHydratedTarget
  cases hc : s.hydrationCaptured with
  | true => simp
  | false =>
    simp only [hm, Bool.not_true, Bool.or_self, Bool.false_eq_true, if_false]
    exact target_remember hm s

@[simp] lemma held_capture (s : Session R) : held (captureHydratedTarget c s) = held s := by
  simp [held]

@[simp] lemma coverage_capture (s : Session R) :
    coverage (captureHydratedTarget c s) = coverage s := by
  simp [coverage]

@[simp] lemma speaks_capture (s : Session R) (st : JoinStep R) :
    speaksForThisJoin (captureHydratedTarget c s) st = speaksForThisJoin s st := by
  simp [speaksForThisJoin]

/-- The state in which a turn does its work: a step that waited for hydration has
captured the target first. -/
inductive Awake (c : Config) (st : JoinStep R) (s : Session R) : Session R → Prop where
  | hydrated : st.stage = .hydrating → s.hydrating = false → s.left = false →
      Awake c st s (captureHydratedTarget c s)
  | later : st.stage ≠ .hydrating → Awake c st s s

/-- The base with which a step receives its frame. -/
inductive BaseOf (st : JoinStep R) : List R.Update → Prop where
  | none (frame : DocRows R) : st.stage = .hydrating → st.frame = .rows frame → BaseOf st []
  | inline (frame : DocState R) : st.stage = .hydrating → st.frame = .state frame →
      frame.ref = none → BaseOf st frame.base.toList
  | referenced (u : R.Update) : st.stage = .hashing u →
      st.frame.digest = some (R.sha256Hex u) → BaseOf st [u]

/-- Everything that a turn of a join step can do. -/
inductive Turning (c : Config) (st : JoinStep R) (s : Session R) : Turned R → Prop where
  | queued : st.stage = .queued → speaksForThisJoin s st = true →
      Turning c st s ⟨some { st with stage := .hydrating }, s, []⟩
  | obsolete (m : Session R) : m = s ∨ Awake c st s m → speaksForThisJoin m st = false →
      Turning c st s (.ended m [])
  | rejected (m : Session R) (why : Failure) : Awake c st s m → speaksForThisJoin m st = true →
      st.stage ≠ .queued → Turning c st s (.ended m [.rejected why])
  | fetching (m : Session R) : Awake c st s m → st.stage = .hydrating →
      speaksForThisJoin m st = true → Turning c st s ⟨some { st with stage := .fetching }, m, []⟩
  | reopened : st.stage = .fetching → speaksForThisJoin s st = true →
      Turning c st s (.ended s [.sent (openMessage s)])
  | hashing (u : R.Update) : st.stage = .fetching → speaksForThisJoin s st = true →
      Turning c st s ⟨some { st with stage := .hashing u }, s, []⟩
  | received (m : Session R) (base : List R.Update) : Awake c st s m →
      speaksForThisJoin m st = true → BaseOf st base →
      Turning c st s (.ended (receive c base st.frame m).1 (receive c base st.frame m).2)

lemma turning_hydrated (hst : st.stage = .hydrating) (hh : s.hydrating = false) :
    Turning c st s (hydratedTurn c st s) := by
  unfold hydratedTurn
  by_cases hl : s.left = true
  · rw [if_pos hl]
    exact .obsolete s (.inl rfl) (by simp [speaksForThisJoin, hl])
  rw [if_neg hl]
  have ha : Awake c st s (captureHydratedTarget c s) := .hydrated hst hh (by simpa using hl)
  have hq : st.stage ≠ .queued := by simp [hst]
  by_cases hs : speaksForThisJoin (captureHydratedTarget c s) st = true
  · simp only [hs, Bool.not_true, Bool.false_eq_true, if_false]
    by_cases hp : st.frame.protocol ≠ PROTOCOL
    · rw [if_pos hp]
      exact .rejected _ _ ha hs hq
    rw [if_neg hp]
    cases hf : st.frame with
    | rows f =>
      have hr := Turning.received (c := c) _ [] ha hs (.none f hst hf)
      rwa [hf] at hr
    | state f =>
      by_cases hr : f.ref.isSome = true
      · simp only [hr, if_true]
        by_cases hc : c.canFetch = true
        · simp only [hc, Bool.not_true, Bool.false_eq_true, if_false]
          have ht := Turning.fetching (c := c) _ ha hst hs
          rwa [hf] at ht
        · simp only [hc, Bool.not_false, if_true]
          exact .rejected _ _ ha hs hq
      · simp only [hr]
        have ht := Turning.received (c := c) _ _ ha hs (.inline f hst hf (by simpa using hr))
        rwa [hf] at ht
  · have hs' : speaksForThisJoin (captureHydratedTarget c s) st = false := by simpa using hs
    simp only [hs', Bool.not_false, if_true]
    exact .obsolete _ (.inr ha) hs'

lemma turning_fetched (hst : st.stage = .fetching) (answer : Fetched R) :
    Turning c st s (fetchedTurn st answer s) := by
  have ha : Awake c st s s := .later (by simp [hst])
  have hq : st.stage ≠ .queued := by simp [hst]
  unfold fetchedTurn
  by_cases hs : speaksForThisJoin s st = true
  · simp only [hs, Bool.not_true, Bool.false_eq_true, if_false]
    cases answer with
    | restartBaseline => exact .reopened hst hs
    | failed => exact .rejected s .fetch ha hs hq
    | bytes u =>
      by_cases hd : st.frame.digest.isSome = true
      · simp only [hd, if_true]
        exact .hashing u hst hs
      · simp only [hd]
        exact .rejected s .integrity ha hs hq
  · simp only [hs, Bool.not_false, if_true]
    exact .obsolete s (.inl rfl) (by simpa using hs)

lemma turning_hashed {u : R.Update} (hst : st.stage = .hashing u) :
    Turning c st s (hashedTurn c st u s) := by
  have ha : Awake c st s s := .later (by simp [hst])
  unfold hashedTurn
  split_ifs with hs hd
  · exact .obsolete s (.inl rfl) (by simpa using hs)
  · exact .rejected s .integrity ha (by simpa using hs) (by simp [hst])
  · exact .received s [u] ha (by simpa using hs) (.referenced u hst (not_not.1 hd))

lemma turn_turning {t : Turned R} (h : turn c st answer s = some t) : Turning c st s t := by
  unfold turn at h
  cases hst : st.stage with
  | queued =>
    simp only [hst, some.injEq] at h
    subst h
    split_ifs with hs
    · exact .obsolete s (.inl rfl) (by simpa using hs)
    · exact .queued hst (by simpa using hs)
  | hydrating =>
    simp only [hst] at h
    split_ifs at h with hh
    simp only [some.injEq] at h
    subst h
    exact turning_hydrated hst (by simpa using hh)
  | fetching =>
    simp only [hst, some.injEq] at h
    subst h
    exact turning_fetched hst answer
  | hashing u =>
    simp only [hst, some.injEq] at h
    subst h
    exact turning_hashed hst

/-- The join steps that have not ended. -/
def live (s : Session R) : List (JoinStep R) := s.gate ++ s.abandoned.flatten

lemma mem_live_of_chain (h : st ∈ s.chain w) : st ∈ live s := by
  cases w with
  | gate => exact mem_append_left _ h
  | abandoned i =>
    cases hi : s.abandoned[i]? with
    | none => simp [Session.chain, hi] at h
    | some l =>
      have hl : l ∈ s.abandoned := mem_of_getElem? hi
      exact mem_append_right _ (mem_flatten.2 ⟨l, hl, by simpa [Session.chain, hi] using h⟩)

lemma mem_live_setChain {steps : List (JoinStep R)} (h : st ∈ live (s.setChain steps w)) :
    st ∈ steps ∨ st ∈ live s := by
  cases w with
  | gate =>
    rcases mem_append.1 h with h | h
    · exact .inl h
    · exact .inr (mem_append_right _ h)
  | abandoned i =>
    rcases mem_append.1 h with h | h
    · exact .inr (mem_append_left _ h)
    · obtain ⟨l, hl, hst⟩ := mem_flatten.1 h
      rcases mem_or_eq_of_mem_set hl with hl | hl
      · exact .inr (mem_append_right _ (mem_flatten.2 ⟨l, hl, hst⟩))
      · exact .inl (hl ▸ hst)

/-- A turn of a chain: its first step moves, and the others stay where they are. -/
lemma advance_cases (h : advance c w answer s = some (s', out)) :
    ∃ st rest t, s.chain w = st :: rest ∧ Turning c st s t ∧ out = t.effects ∧
      s' = t.session.setChain (t.step.toList ++ rest) w := by
  unfold advance at h
  cases hc : s.chain w with
  | nil => simp [hc] at h
  | cons st rest =>
    simp only [hc, map_eq_some_iff] at h
    obtain ⟨t, ht, he⟩ := h
    simp only [Prod.mk.injEq] at he
    exact ⟨st, rest, t, rfl, turn_turning ht, he.2.symm, he.1.symm⟩

lemma of_some (h : some a = some (s', out)) : a.1 = s' ∧ a.2 = out := by
  simp only [some.injEq] at h
  simp [h]

lemma of_guard {b : Bool} (h : (if b then some a else none) = some (s', out)) :
    b = true ∧ a.1 = s' ∧ a.2 = out := by
  split_ifs at h with hb
  exact ⟨hb, of_some h⟩

/-- An update by the versions it starts and ends at. -/
structure Span where
  start : VersionVector ℕ
  stop : VersionVector ℕ
deriving DecidableEq

/-- A document that is its version vector: an edit adds operations of one peer, and an
update whose start is missing changes nothing. -/
def versions : Replica ℕ where
  Doc := VersionVector ℕ
  Update := Span
  Edit := ℕ × ℕ
  blank := ∅
  oplogVersion := id
  importUpdate := fun d u => if covers d u.start then merge d u.stop else d
  edit := fun d e =>
    let stop := AList.singleton e.1 (counter d e.1 + e.2)
    (merge d stop, ⟨AList.singleton e.1 (counter d e.1), stop⟩)
  exportFrom := fun d v => ⟨v, d⟩
  start := Span.start
  stop := Span.stop
  sha256Hex := fun u => toString (u.stop.entries.map fun e => e.2)
  blank_version := operations_empty
  import_mono := by
    intro d u
    simp only [id_eq]
    split_ifs
    · rw [operations_merge]
      exact Set.subset_union_left
    · exact subset_rfl
  edit_version := fun d e => operations_merge d _
  export_covers := fun _ _ => Set.subset_union_right

end LibrePaper.Client
