import LibrePaper.Client.Effects

/-!
# The saved signal

A session reports nothing pending when the durable coverage stated by the server covers
its save target. The target holds every local edit at once, and the restored state from
the moment it is captured; a report made while restored operations are not captured yet
is made without them.
-/
namespace LibrePaper.Client
open Library List

variable {P : Type} [DecidableEq P] {R : Replica P} {c : Config}

/-- The operations that an event adds as this browser's own: a local edit, or a piece of
the stored local state. -/
def made (s t : Session R) : Op R → Set (Operation P)
  | .edit _ => held t \ held s
  | .restore _ => held t \ held s
  | _ => ∅

/-- The runs of a session whose events all satisfy `Q`, with the operations that this
browser made or restored so far. -/
inductive Run (c : Config) (Q : Session R → Op R → Prop) :
    Session R → Set (Operation P) → Prop where
  | opened : Run c Q (createProjectSession R c) ∅
  | step (op : Op R) {s s' : Session R} {mine : Set (Operation P)} {out : List (Effect R)} :
      Run c Q s mine → Q s op → Client.step c s op = some (s', out) →
      Run c Q s' (mine ∪ made s s' op)

/-- The events that report the saved signal as it stands, without capturing first. -/
def Op.reportsAtOnce : Op R → Bool
  | .hydration (.failed _) => true
  | .writing _ => true
  | .persisted => true
  | .failed _ => true
  | .join _ => true
  | .acknowledge _ => true
  | .durable _ => true
  | .gap _ => true
  | .timer => true
  | .disconnected => true
  | _ => false

/-- What is in the local document is captured, or was remembered with a local edit. -/
def Captured (s : Session R) : Prop :=
  s.hydrationCaptured = true ∨ covers (s.saveTarget.getD ∅) (R.oplogVersion s.doc) = true

/-- No report is made of a document that holds restored operations not yet captured. -/
def ReportsCaptured (s : Session R) (op : Op R) : Prop := op.reportsAtOnce = true → Captured s

/-- A step that was past hydration once. -/
def Stage.late : Stage R → Bool
  | .queued => false
  | .hydrating => false
  | .fetching => true
  | .hashing _ => true

/-- What holds of a session that may edit in every run. -/
structure Kept (s : Session R) (mine : Set (Operation P)) : Prop where
  known : mine ⊆ held s
  awaited : s.hydrationCaptured = true → mine ⊆ target s
  pristine : s.hydrationCaptured = false → held s ⊆ mine
  settled : s.hydrationCaptured = true → s.hydrating = false
  late : ∀ st ∈ live s, st.stage.late = true → s.hydrationCaptured = true

lemma captured_iff (s : Session R) :
    Captured s ↔ s.hydrationCaptured = true ∨ held s ⊆ target s := by
  unfold Captured held target
  rw [covers_iff, operations_subset]

variable {s m s' : Session R} {st : JoinStep R} {t : Turned R} {w : Chain} {answer : Fetched R}
  {out : List (Effect R)} {op : Op R} {r : Report}

lemma Kept.mine_awaited {mine : Set (Operation P)} (k : Kept s mine) (h : Captured s) :
    mine ⊆ target s := by
  rcases (captured_iff s).1 h with h | h
  · exact k.awaited h
  · exact k.known.trans h

/-- An event that adds nothing of this browser's own: before the capture it imports
nothing at all, and it raises the target only by capturing. -/
structure Keeps (s t : Session R) : Prop where
  doc : held s ⊆ held t
  awaits : target s ⊆ target t
  raises : target t = target s ∨
    s.hydrationCaptured = false ∧ target t ⊆ target s ∪ held s
  captured : s.hydrationCaptured = true → t.hydrationCaptured = true
  captures : t.hydrationCaptured = true → s.hydrationCaptured = true ∨ held s ⊆ target t
  untouched : t.hydrationCaptured = false → held t ⊆ held s
  settled : t.hydrationCaptured = true →
    (s.hydrationCaptured = true → s.hydrating = false) → t.hydrating = false
  late : ∀ st ∈ live t, st.stage.late = true → t.hydrationCaptured = true ∨ st ∈ live s
  coverage : coverage s ⊆ coverage t

namespace Keeps
variable {s t u : Session R} {mine : Set (Operation P)}

lemma trans (h : Keeps s t) (h' : Keeps t u) : Keeps s u where
  doc := h.doc.trans h'.doc
  awaits := h.awaits.trans h'.awaits
  raises := by
    rcases h.raises with e | ⟨hs, hl⟩
    · rcases h'.raises with e' | ⟨ht, hl'⟩
      · exact .inl (e'.trans e)
      · have hs : s.hydrationCaptured = false := by
          by_contra hc
          rw [h.captured (by simpa using hc)] at ht
          cases ht
        exact .inr ⟨hs, hl'.trans (Set.union_subset_union e.le (h.untouched ht))⟩
    · rcases h'.raises with e' | ⟨ht, hl'⟩
      · exact .inr ⟨hs, e'.le.trans hl⟩
      · refine .inr ⟨hs, hl'.trans (Set.union_subset hl ?_)⟩
        exact (h.untouched ht).trans Set.subset_union_right
  captured := fun hs => h'.captured (h.captured hs)
  captures := by
    intro hu
    rcases h'.captures hu with ht | ht
    · rcases h.captures ht with hs | hs
      · exact .inl hs
      · exact .inr (hs.trans h'.awaits)
    · exact .inr (h.doc.trans ht)
  untouched := by
    intro hu
    have ht : t.hydrationCaptured = false := by
      by_contra hc
      rw [h'.captured (by simpa using hc)] at hu
      cases hu
    exact (h'.untouched hu).trans (h.untouched ht)
  settled := fun hu hs => h'.settled hu fun ht => h.settled ht hs
  late := by
    intro st hst hl
    rcases h'.late st hst hl with hu | ht
    · exact .inl hu
    · rcases h.late st ht hl with ht | hs
      · exact .inl (h'.captured ht)
      · exact .inr hs
  coverage := h.coverage.trans h'.coverage

/-- A call that grows the document, after the capture or without a change to it. -/
lemma of_grows (g : Grows s t) (h : s.hydrationCaptured = true ∨ held t ⊆ held s) :
    Keeps s t where
  doc := g.doc
  awaits := by simp [target, g.target]
  raises := .inl (by simp [target, g.target])
  captured := g.captured.trans
  captures := fun ht => .inl (g.captured ▸ ht)
  untouched := by
    intro ht
    rcases h with h | h
    · rw [g.captured, h] at ht
      cases ht
    · exact h
  settled := fun ht hs => g.hydrating.trans (hs (g.captured ▸ ht))
  late := fun st hst _ => .inr (by simpa [live, g.gate, g.abandoned] using hst)
  coverage := g.coverage

lemma refl (s : Session R) : Keeps s s := of_grows (.refl s) (.inr subset_rfl)

/-- An event that only moves join steps and flags. -/
lemma of_eq (hd : t.doc = s.doc) (ht : t.saveTarget = s.saveTarget)
    (hc : t.hydrationCaptured = s.hydrationCaptured) (hh : t.hydrating = true → s.hydrating = true)
    (hv : t.durableCoverage = s.durableCoverage)
    (hl : ∀ st ∈ live t, st.stage.late = true → t.hydrationCaptured = true ∨ st ∈ live s) :
    Keeps s t where
  doc := by simp [held, hd]
  awaits := by simp [target, ht]
  raises := .inl (by simp [target, ht])
  captured := hc.trans
  captures := fun h => .inl (hc ▸ h)
  untouched := fun _ => by simp [held, hd]
  settled := by
    intro h hs
    by_contra hn
    have := hs (hc ▸ h)
    rw [hh (by simpa using hn)] at this
    cases this
  late := hl
  coverage := by simp [Client.coverage, hv]

lemma kept (h : Keeps s t) (k : Kept s mine) : Kept t mine where
  known := k.known.trans h.doc
  awaited := by
    intro ht
    rcases h.captures ht with hs | hs
    · exact (k.awaited hs).trans h.awaits
    · exact k.known.trans hs
  pristine := by
    intro ht
    have hs : s.hydrationCaptured = false := by
      by_contra hc
      rw [h.captured (by simpa using hc)] at ht
      cases ht
    exact (h.untouched ht).trans (k.pristine hs)
  settled := fun ht => h.settled ht k.settled
  late := by
    intro st hst hl
    rcases h.late st hst hl with ht | hs
    · exact ht
    · exact h.captured (k.late st hs hl)

end Keeps

lemma keeps_capture (hm : c.mayEdit = true) (hh : s.hydrating = false) :
    Keeps s (captureHydratedTarget c s) where
  doc := by simp
  awaits := by
    rw [target_capture hm]
    split_ifs
    · exact subset_rfl
    · exact Set.subset_union_left
  raises := by
    rw [target_capture hm]
    split_ifs with h
    · exact .inl rfl
    · exact .inr ⟨by simpa using h, subset_rfl⟩
  captured := fun _ => capture_captured hm s
  captures := by
    intro _
    rw [target_capture hm]
    split_ifs with h
    · exact .inl h
    · exact .inr Set.subset_union_right
  untouched := fun _ => by simp
  settled := fun _ _ => by simpa using hh
  late := fun _ _ _ => .inl (capture_captured hm s)
  coverage := by simp

lemma awake_captured (hm : c.mayEdit = true) (h : Awake c st s m)
    (hst : st.stage = .hydrating ∨ s.hydrationCaptured = true) : m.hydrationCaptured = true := by
  cases h with
  | hydrated _ _ _ => exact capture_captured hm s
  | later hn => exact hst.resolve_left hn

lemma keeps_awake (hm : c.mayEdit = true) (h : Awake c st s m) : Keeps s m := by
  cases h with
  | hydrated _ hh _ => exact keeps_capture hm hh
  | later _ => exact .refl s

lemma captured_of_base {base : List R.Update} {mine : Set (Operation P)} (k : Kept s mine)
    (hst : st ∈ live s) (h : BaseOf st base) :
    st.stage = .hydrating ∨ s.hydrationCaptured = true := by
  cases h with
  | none _ hs _ => exact .inl hs
  | inline _ hs _ _ => exact .inl hs
  | referenced u hs _ => exact .inr (k.late st hst (by simp [hs, Stage.late]))

lemma keeps_turning (hm : c.mayEdit = true) {mine : Set (Operation P)} (k : Kept s mine)
    (hst : st ∈ live s) (h : Turning c st s t) : Keeps s t.session := by
  cases h with
  | queued _ _ => exact .refl s
  | obsolete m hmm _ =>
    rcases hmm with rfl | ha
    · exact .refl _
    · exact keeps_awake hm ha
  | rejected m _ ha _ _ => exact keeps_awake hm ha
  | fetching m ha _ _ => exact keeps_awake hm ha
  | reopened _ _ => exact .refl s
  | hashing _ _ _ => exact .refl s
  | received m base ha _ hb =>
    have hc := awake_captured hm ha (captured_of_base k hst hb)
    exact (keeps_awake hm ha).trans (.of_grows (grows_receive _ _ _) (.inl hc))

lemma turning_late (hm : c.mayEdit = true) {st' : JoinStep R} {mine : Set (Operation P)}
    (k : Kept s mine) (hst : st ∈ live s) (h : Turning c st s t) (ht : t.step = some st')
    (hl : st'.stage.late = true) : t.session.hydrationCaptured = true := by
  cases h with
  | queued _ _ =>
    cases ht
    simp [Stage.late] at hl
  | fetching m ha hs _ => exact awake_captured hm ha (.inl hs)
  | hashing u hs _ => exact k.late st hst (by simp [hs, Stage.late])
  | obsolete _ _ _ => cases ht
  | rejected _ _ _ _ _ => cases ht
  | reopened _ _ => cases ht
  | received _ _ _ _ _ => cases ht

lemma live_of_receive (base : List R.Update) (frame : JoinFrame R) (s : Session R) :
    live (receive c base frame s).1 = live s := by
  have g := grows_receive (c := c) base frame s
  simp [live, g.gate, g.abandoned]

lemma live_of_awake (h : Awake c st s m) : live m = live s := by
  cases h with
  | hydrated _ _ _ => simp [live]
  | later _ => rfl

lemma live_of_turning (h : Turning c st s t) : live t.session = live s := by
  cases h with
  | queued _ _ => rfl
  | obsolete m hmm _ =>
    rcases hmm with rfl | ha
    · rfl
    · exact live_of_awake ha
  | rejected m _ ha _ _ => exact live_of_awake ha
  | fetching m ha _ _ => exact live_of_awake ha
  | reopened _ _ => rfl
  | hashing _ _ _ => rfl
  | received m base ha _ _ => exact (live_of_receive _ _ _).trans (live_of_awake ha)

lemma setChain_fields (s : Session R) (steps : List (JoinStep R)) (w : Chain) :
    (s.setChain steps w).doc = s.doc ∧ (s.setChain steps w).saveTarget = s.saveTarget ∧
    (s.setChain steps w).hydrationCaptured = s.hydrationCaptured ∧
    (s.setChain steps w).hydrating = s.hydrating ∧
    (s.setChain steps w).durableCoverage = s.durableCoverage := by
  cases w <;> exact ⟨rfl, rfl, rfl, rfl, rfl⟩

lemma keeps_advance (hm : c.mayEdit = true) {mine : Set (Operation P)} (k : Kept s mine)
    (h : advance c w answer s = some (s', out)) : Keeps s s' := by
  obtain ⟨st, rest, t, hw, ht, -, rfl⟩ := advance_cases h
  have hst : st ∈ live s := mem_live_of_chain (w := w) (by simp [hw])
  obtain ⟨hd, htg, hc, hh, hv⟩ := setChain_fields t.session (t.step.toList ++ rest) w
  refine (keeps_turning hm k hst ht).trans (.of_eq hd htg hc (fun h => hh ▸ h) hv ?_)
  intro st' hst' hl
  rcases mem_live_setChain hst' with h' | h'
  · rcases mem_append.1 h' with h' | h'
    · refine .inl (hc.trans (turning_late hm k hst ht (by simpa using h') hl))
    · refine .inr ?_
      rw [live_of_turning ht]
      exact mem_live_of_chain (w := w) (by simp [hw, h'])
  · exact .inr h'

lemma settled_of_room (hs : c.standalone = false) (s : Session R) : settled c s = (s, []) := by
  simp [settled, hs]

/-- The state in which hydration ends. -/
lemma keeps_endHydration (hm : c.mayEdit = true) (hs : c.standalone = false) (h : Hydration)
    (s : Session R) : Keeps s (endHydration c h s).1 := by
  cases h with
  | hydrated =>
    have he : (endHydration c .hydrated s).1 =
        captureHydratedTarget c { s with hydrating := false, isLocal := true } := by
      simp [endHydration, andThen, settled_of_room hs]
    have h0 : Keeps s { s with hydrating := false, isLocal := true } :=
      .of_eq rfl rfl rfl nofun rfl (fun _ hst _ => .inr hst)
    rw [he]
    exact h0.trans (keeps_capture hm rfl)
  | failed error =>
    simp only [endHydration, andThen, settled_of_room hs]
    exact .of_eq rfl rfl rfl nofun rfl (fun _ hst _ => .inr hst)
  | silent =>
    simp only [endHydration, settled_of_room hs]
    exact .of_eq rfl rfl rfl nofun rfl (fun _ hst _ => .inr hst)

lemma keeps_sequenceJoin (frame : JoinFrame R) (s : Session R) :
    Keeps s (sequenceJoin c frame s).1 := by
  refine .of_eq rfl rfl rfl id rfl ?_
  intro st hst hl
  rcases mem_append.1 hst with h | h
  · rcases mem_append.1 h with h | h
    · exact .inr (mem_append_left _ h)
    · rw [mem_singleton.1 h] at hl
      cases hl
  · exact .inr (mem_append_right _ h)

lemma live_abandon (s : Session R) (st : JoinStep R) :
    st ∈ live (abandonQueuedJoins s) ↔ st ∈ live s := by
  simp only [live, abandonQueuedJoins, flatten_append, nil_append, mem_append,
    flatten_cons, flatten_nil, append_nil]
  exact or_comm

lemma keeps_disconnected (s : Session R) : Keeps s (disconnected c s).1 :=
  .of_eq rfl rfl rfl id rfl fun st hst _ =>
    .inr ((live_abandon { s with joined := false, announced := false } st).1 hst)

lemma keeps_leave (s : Session R) : Keeps s (leave s) :=
  .of_eq rfl rfl rfl id rfl fun st hst _ =>
    .inr ((live_abandon { s with pressureTimer := none, left := true } st).1 hst)

lemma keeps_apply (u : R.Update) (s : Session R) : Keeps s (apply u s).1 := by
  unfold apply
  split_ifs with hl hc
  · exact .refl s
  · exact .of_eq rfl rfl rfl id rfl fun _ hst _ => .inr hst
  · exact .of_grows (grows_importBatch _ _) (.inl (by simpa using hc))

lemma keeps_acknowledge (n : ℕ) (s : Session R) : Keeps s (acknowledge c n s).1 := by
  unfold acknowledge pressureEased
  split_ifs
  · exact .refl s
  · exact .of_eq rfl rfl rfl id rfl fun _ hst _ => .inr hst

lemma keeps_clearWhenCovered (s : Session R) : Keeps s (clearWhenCovered s) := by
  unfold clearWhenCovered pressureEased
  split_ifs
  · exact .of_eq rfl rfl rfl id rfl fun _ hst _ => .inr hst
  · exact .refl s

lemma keeps_durable (v : Option (VersionVector P)) (s : Session R) :
    Keeps s (durable c v s).1 := by
  have hg : Keeps s (mergeDurableCoverage v s) := by
    refine .of_grows (grows_mergeDurableCoverage v s) (.inr ?_)
    cases v <;> exact subset_rfl
  unfold durable
  split_ifs
  · exact .refl s
  · exact hg.trans (keeps_clearWhenCovered _)

lemma keeps_gap (v : Option (VersionVector P)) (s : Session R) : Keeps s (gap c v s).1 := by
  unfold gap pressureEased
  split_ifs
  · exact .refl s
  · exact .of_eq rfl rfl rfl id rfl fun _ hst _ => .inr hst

lemma keeps_armRetry (s : Session R) : Keeps s (armRetry s) := by
  unfold armRetry
  split_ifs
  · exact .refl s
  · exact .of_eq rfl rfl rfl id rfl fun _ hst _ => .inr hst

lemma keeps_pressure (v : Option (VersionVector P)) (s : Session R) :
    Keeps s (pressure c v s) := by
  unfold pressure
  split_ifs
  · exact .refl s
  · have h0 : Keeps s { s with pressureVector := v.or s.pressureVector } :=
      .of_eq rfl rfl rfl id rfl fun _ hst _ => .inr hst
    exact h0.trans (keeps_armRetry _)

lemma keeps_pressureFired (s : Session R) : Keeps s (pressureFired c s).1 := by
  unfold pressureFired
  simp only
  split_ifs
  · exact .of_eq rfl rfl rfl id rfl fun _ hst _ => .inr hst
  · exact .of_eq rfl rfl rfl id rfl fun _ hst _ => .inr hst
  · exact .of_eq rfl rfl rfl id rfl fun _ hst _ => .inr hst

/-- An event that is no local edit and no import of stored state. -/
def Op.keeps : Op R → Bool
  | .edit _ => false
  | .restore _ => false
  | _ => true

lemma keeps_step (hm : c.mayEdit = true) (hs : c.standalone = false) {mine : Set (Operation P)}
    (k : Kept s mine) (hk : op.keeps = true) (h : step c s op = some (s', out)) : Keeps s s' := by
  cases op with
  | edit e => cases hk
  | restore u => cases hk
  | hydration e =>
    obtain ⟨-, rfl, -⟩ := of_guard h
    exact keeps_endHydration hm hs e s
  | writing n =>
    obtain ⟨rfl, -⟩ := of_some h
    unfold writing
    simp only
    split_ifs <;> exact .of_eq rfl rfl rfl id rfl fun _ hst _ => .inr hst
  | persisted =>
    obtain ⟨rfl, -⟩ := of_some h
    exact .of_eq rfl rfl rfl id rfl fun _ hst _ => .inr hst
  | failed e =>
    obtain ⟨rfl, -⟩ := of_some h
    exact .of_eq rfl rfl rfl id rfl fun _ hst _ => .inr hst
  | join frame =>
    obtain ⟨rfl, -⟩ := of_some h
    exact keeps_sequenceJoin frame s
  | turn w answer => exact keeps_advance hm k h
  | apply u =>
    obtain ⟨rfl, -⟩ := of_some h
    exact keeps_apply u s
  | acknowledge n =>
    obtain ⟨rfl, -⟩ := of_some h
    exact keeps_acknowledge n s
  | durable v =>
    obtain ⟨rfl, -⟩ := of_some h
    exact keeps_durable v s
  | gap v =>
    obtain ⟨rfl, -⟩ := of_some h
    exact keeps_gap v s
  | pressure v =>
    obtain ⟨rfl, -⟩ := of_some h
    exact keeps_pressure v s
  | timer =>
    obtain ⟨-, rfl, -⟩ := of_guard h
    exact keeps_pressureFired s
  | disconnected =>
    obtain ⟨rfl, -⟩ := of_some h
    exact keeps_disconnected s
  | leave =>
    obtain ⟨rfl, -⟩ := of_some h
    exact keeps_leave s

lemma held_localEdit (e : R.Edit) (s : Session R) :
    held (localEdit c e s).1 = held s ∪ operations (R.stop (R.edit s.doc e).2) := by
  have he := R.edit_version s.doc e
  unfold localEdit rememberLocalTarget held
  simp only
  split_ifs <;> exact he

/-- A local edit is awaited at once, with everything it depends on. -/
lemma target_localEdit (hm : c.mayEdit = true) (hs : c.standalone = false) (e : R.Edit)
    (s : Session R) :
    target (localEdit c e s).1 = target s ∪ held (localEdit c e s).1 := by
  unfold localEdit
  simp only [hm, hs, Bool.not_false, Bool.and_self, if_true]
  rw [target_remember hm]
  congr 1
  simp [held, rememberLocalTarget, hm]

lemma localEdit_fields (e : R.Edit) (s : Session R) :
    (localEdit c e s).1.hydrationCaptured = s.hydrationCaptured ∧
    (localEdit c e s).1.hydrating = s.hydrating ∧
    live (localEdit c e s).1 = live s ∧
    (localEdit c e s).1.durableCoverage = s.durableCoverage := by
  unfold localEdit rememberLocalTarget
  simp only
  split_ifs <;> exact ⟨rfl, rfl, rfl, rfl⟩

lemma kept_localEdit (hm : c.mayEdit = true) (hs : c.standalone = false) (e : R.Edit)
    {mine : Set (Operation P)} (k : Kept s mine) :
    Kept (localEdit c e s).1 (mine ∪ (held (localEdit c e s).1 \ held s)) := by
  obtain ⟨hc, hh, hl, -⟩ := localEdit_fields (c := c) e s
  have hg : held s ⊆ held (localEdit c e s).1 := by
    rw [held_localEdit]
    exact Set.subset_union_left
  have hmine : mine ∪ (held (localEdit c e s).1 \ held s) ⊆ held (localEdit c e s).1 :=
    Set.union_subset (k.known.trans hg) fun _ ho => ho.1
  refine ⟨hmine, ?_, ?_, ?_, ?_⟩
  · intro _
    rw [target_localEdit hm hs]
    exact hmine.trans Set.subset_union_right
  · intro h o ho
    by_cases hs' : o ∈ held s
    · exact .inl (k.pristine (hc ▸ h) hs')
    · exact .inr ⟨ho, hs'⟩
  · intro h
    rw [hh]
    exact k.settled (hc ▸ h)
  · intro st hst h
    rw [hl] at hst
    exact hc.trans (k.late st hst h)

lemma kept_restore (u : R.Update) {mine : Set (Operation P)} (k : Kept s mine)
    (hh : s.hydrating = true) : Kept (restore u s).1 (mine ∪ (held (restore u s).1 \ held s)) := by
  have hc : s.hydrationCaptured = false := by
    by_contra h
    rw [k.settled (by simpa using h)] at hh
    cases hh
  have hg : held s ⊆ held (restore u s).1 := (grows_importBatch [u] s).doc
  refine ⟨Set.union_subset (k.known.trans hg) fun _ ho => ho.1, ?_, ?_, ?_, ?_⟩
  · intro h
    have h' : s.hydrationCaptured = true := h
    rw [hc] at h'
    cases h'
  · intro _ o ho
    by_cases hs' : o ∈ held s
    · exact .inl (k.pristine hc hs')
    · exact .inr ⟨ho, hs'⟩
  · intro h
    have h' : s.hydrationCaptured = true := h
    rw [hc] at h'
    cases h'
  · exact fun st hst => k.late st hst

lemma kept_step (hm : c.mayEdit = true) (hs : c.standalone = false) {mine : Set (Operation P)}
    (k : Kept s mine) (h : step c s op = some (s', out)) : Kept s' (mine ∪ made s s' op) := by
  by_cases hk : op.keeps = true
  · have hmade : made s s' op = ∅ := by cases op <;> first | rfl | cases hk
    rw [hmade, Set.union_empty]
    exact (keeps_step hm hs k hk h).kept k
  · cases op with
    | edit e =>
      obtain ⟨rfl, -⟩ := of_some h
      exact kept_localEdit hm hs e k
    | restore u =>
      obtain ⟨hh, rfl, -⟩ := of_guard h
      exact kept_restore u k hh
    | _ => exact absurd rfl hk

lemma kept_opened (hm : c.mayEdit = true) : Kept (createProjectSession R c) ∅ := by
  have hblank : operations (R.oplogVersion R.blank) = ∅ := R.blank_version
  unfold createProjectSession
  simp only
  split_ifs with ha
  · exact ⟨Set.empty_subset _, fun _ => Set.empty_subset _, fun _ => hblank.le,
      fun h => by simp [hm] at h, fun st hst => by simp [live] at hst⟩
  · refine ⟨Set.empty_subset _, fun _ => Set.empty_subset _, fun _ => ?_, fun _ => ?_,
      fun st hst => ?_⟩
    · simpa [held] using hblank
    · simpa using ha
    · simp [live] at hst

lemma Run.kept (hm : c.mayEdit = true) (hs : c.standalone = false) {Q : Session R → Op R → Prop}
    {mine : Set (Operation P)} (run : Run c Q s mine) : Kept s mine := by
  induction run with
  | opened => exact kept_opened hm
  | step _ _ _ h ih => exact kept_step hm hs ih h

lemma Keeps.captured_as {t : Session R} (h : Keeps s t) (hc : Captured s) : Captured t := by
  rw [captured_iff] at hc ⊢
  rcases hc with hc | hc
  · exact .inl (h.captured hc)
  · cases ht : t.hydrationCaptured with
    | true => exact .inl rfl
    | false => exact .inr ((h.untouched ht).trans (hc.trans h.awaits))

lemma reading_setChain (s : Session R) (steps : List (JoinStep R)) (w : Chain) :
    reading c (s.setChain steps w) = reading c s := by
  cases w <;> rfl

lemma honest_turning (h : Turning c st s t) : Honest c (t.session, t.effects) := by
  cases h with
  | received m base _ _ _ => exact honest_receive base st.frame m
  | queued _ _ => exact honest_nil _
  | obsolete _ _ _ => exact honest_nil _
  | fetching _ _ _ _ => exact honest_nil _
  | hashing _ _ _ => exact honest_nil _
  | rejected m why _ _ _ =>
    intro r hr
    simp [Turned.ended] at hr
  | reopened _ _ =>
    intro r hr
    simp [Turned.ended] at hr

/-- A turn reports only what it has received, after the capture. -/
lemma captured_of_turn (hm : c.mayEdit = true) {mine : Set (Operation P)} (k : Kept s mine)
    (h : advance c w answer s = some (s', out)) (hr : Effect.reported r ∈ out) : Captured s' := by
  obtain ⟨st, rest, t, hw, ht, rfl, rfl⟩ := advance_cases h
  have hst : st ∈ live s := mem_live_of_chain (w := w) (by simp [hw])
  obtain ⟨-, -, hc, -, -⟩ := setChain_fields t.session (t.step.toList ++ rest) w
  cases ht with
  | received m base ha _ hb =>
    have hm' := awake_captured hm ha (captured_of_base k hst hb)
    exact .inl (hc.trans ((grows_receive base st.frame m).captured.trans hm'))
  | queued _ _ => simp at hr
  | obsolete _ _ _ => simp [Turned.ended] at hr
  | fetching _ _ _ _ => simp at hr
  | hashing _ _ _ => simp at hr
  | rejected _ _ _ _ _ => simp [Turned.ended] at hr
  | reopened _ _ => simp [Turned.ended] at hr

lemma honest_gap (v : Option (VersionVector P)) (s : Session R) : Honest c (gap c v s) := by
  unfold gap
  split_ifs
  · exact honest_nil s
  · exact honest_catchUp v _

lemma honest_pressureFired (s : Session R) : Honest c (pressureFired c s) := by
  unfold pressureFired
  simp only
  split_ifs
  · exact honest_nil _
  · exact honest_nil _
  · exact honest_catchUp _ _

lemma honest_endHydration (hs : c.standalone = false) (h : Hydration) (s : Session R) :
    Honest c (endHydration c h s) := by
  cases h with
  | hydrated =>
    simp only [endHydration, andThen, settled_of_room hs, append_nil]
    exact honest_report _
  | failed error =>
    simp only [endHydration, andThen, settled_of_room hs, append_nil]
    exact honest_report _
  | silent =>
    simp only [endHydration, settled_of_room hs]
    exact honest_nil _

lemma honest_localEdit (e : R.Edit) (s : Session R) : Honest c (localEdit c e s) := by
  unfold localEdit
  simp only
  split_ifs
  · intro r hr
    rcases mem_append.1 hr with h | h
    · rw [mem_report h]
    · simp at h
  · exact honest_nil _

lemma honest_step (hs : c.standalone = false) (h : step c s op = some (s', out)) :
    Honest c (s', out) := by
  cases op with
  | edit e =>
    obtain ⟨rfl, rfl⟩ := of_some h
    exact honest_localEdit e s
  | restore u =>
    obtain ⟨-, rfl, rfl⟩ := of_guard h
    exact honest_importBatch [u] s
  | hydration e =>
    obtain ⟨-, rfl, rfl⟩ := of_guard h
    exact honest_endHydration hs e s
  | turn w answer =>
    obtain ⟨st, rest, t, -, ht, rfl, rfl⟩ := advance_cases h
    intro r hr
    rw [reading_setChain]
    exact honest_turning ht r hr
  | apply u =>
    obtain ⟨rfl, rfl⟩ := of_some h
    unfold apply
    split_ifs
    · exact honest_nil _
    · exact honest_nil _
    · exact honest_importBatch _ _
  | acknowledge n =>
    obtain ⟨rfl, rfl⟩ := of_some h
    unfold acknowledge
    split_ifs
    · exact honest_nil _
    · exact honest_report _
  | durable v =>
    obtain ⟨rfl, rfl⟩ := of_some h
    unfold durable
    split_ifs
    · exact honest_nil _
    · exact honest_report _
  | gap v =>
    obtain ⟨rfl, rfl⟩ := of_some h
    exact honest_gap v s
  | timer =>
    obtain ⟨-, rfl, rfl⟩ := of_guard h
    exact honest_pressureFired s
  | writing n =>
    obtain ⟨rfl, rfl⟩ := of_some h
    exact honest_report _
  | persisted =>
    obtain ⟨rfl, rfl⟩ := of_some h
    exact honest_report _
  | failed e =>
    obtain ⟨rfl, rfl⟩ := of_some h
    exact honest_report _
  | join frame =>
    obtain ⟨rfl, rfl⟩ := of_some h
    intro r hr
    rw [mem_report hr]
    rfl
  | disconnected =>
    obtain ⟨rfl, rfl⟩ := of_some h
    exact honest_report _
  | pressure v =>
    obtain ⟨rfl, rfl⟩ := of_some h
    exact honest_nil _
  | leave =>
    obtain ⟨rfl, rfl⟩ := of_some h
    exact honest_nil _

/-- Every report is made of a captured document, when the events that report at once find
one. -/
lemma captured_of_reported (hm : c.mayEdit = true) (hs : c.standalone = false)
    {mine : Set (Operation P)} (k : Kept s mine) (hq : ReportsCaptured s op)
    (h : step c s op = some (s', out)) (hr : Effect.reported r ∈ out) : Captured s' := by
  by_cases hat : op.reportsAtOnce = true
  · have hk : op.keeps = true := by cases op <;> first | rfl | cases hat
    exact (keeps_step hm hs k hk h).captured_as (hq hat)
  · cases op with
    | edit e =>
      obtain ⟨rfl, -⟩ := of_some h
      rw [captured_iff, target_localEdit hm hs]
      exact .inr Set.subset_union_right
    | restore u =>
      obtain ⟨-, -, rfl⟩ := of_guard h
      exact absurd hr (not_reported_imported [u] r)
    | hydration e =>
      obtain ⟨-, rfl, rfl⟩ := of_guard h
      cases e with
      | hydrated =>
        refine .inl ?_
        simp only [endHydration, andThen, settled_of_room hs]
        exact capture_captured hm _
      | failed error => exact absurd rfl hat
      | silent => simp [endHydration, settled_of_room hs] at hr
    | turn w answer => exact captured_of_turn hm k h hr
    | apply u =>
      obtain ⟨rfl, rfl⟩ := of_some h
      unfold apply at hr
      split_ifs at hr
      · simp at hr
      · simp at hr
      · exact absurd hr (not_reported_imported [u] r)
    | pressure v =>
      obtain ⟨-, rfl⟩ := of_some h
      simp at hr
    | leave =>
      obtain ⟨-, rfl⟩ := of_some h
      simp at hr
    | _ => exact absurd rfl hat

lemma target_bounded (hm : c.mayEdit = true) (hs : c.standalone = false)
    {mine : Set (Operation P)} (k : Kept s mine) (hne : ∀ e, op ≠ .edit e)
    (h : step c s op = some (s', out)) : target s' ⊆ target s ∪ mine := by
  by_cases hk : op.keeps = true
  · rcases (keeps_step hm hs k hk h).raises with he | ⟨hc, hl⟩
    · rw [he]
      exact Set.subset_union_left
    · exact hl.trans (Set.union_subset_union_right _ (k.pristine hc))
  · cases op with
    | edit e => exact absurd rfl (hne e)
    | restore u =>
      obtain ⟨-, rfl, -⟩ := of_guard h
      exact Set.subset_union_left
    | _ => exact absurd rfl hk

lemma step_mono (hm : c.mayEdit = true) (hs : c.standalone = false) {mine : Set (Operation P)}
    (k : Kept s mine) (h : step c s op = some (s', out)) :
    coverage s ⊆ coverage s' ∧ target s ⊆ target s' := by
  by_cases hk : op.keeps = true
  · have hstep := keeps_step hm hs k hk h
    exact ⟨hstep.coverage, hstep.awaits⟩
  · cases op with
    | edit e =>
      obtain ⟨rfl, -⟩ := of_some h
      refine ⟨?_, ?_⟩
      · obtain ⟨-, -, -, hv⟩ := localEdit_fields (c := c) e s
        simp [coverage, hv]
      · rw [target_localEdit hm hs]
        exact Set.subset_union_left
    | restore u =>
      obtain ⟨-, rfl, -⟩ := of_guard h
      exact ⟨subset_rfl, subset_rfl⟩
    | _ => exact absurd rfl hk

/-- In every run in which no report is made over restored operations that are not captured
yet, a report of nothing pending is right: the coverage that the server has stated holds
everything that this browser made or restored. The coverage and the target never move
back, and only a local edit raises the target beyond this browser's own operations. -/
theorem saved_truthful (hm : c.mayEdit = true) (hs : c.standalone = false)
    {s s' : Session R} {mine : Set (Operation P)} (run : Run c ReportsCaptured s mine)
    {op : Op R} {out : List (Effect R)} (hq : ReportsCaptured s op)
    (h : step c s op = some (s', out)) :
    (∀ r, Effect.reported r ∈ out → r.pending = 0 → mine ∪ made s s' op ⊆ coverage s') ∧
    coverage s ⊆ coverage s' ∧ target s ⊆ target s' ∧
    ((∀ e, op ≠ .edit e) → target s' ⊆ target s ∪ mine) := by
  have k := run.kept hm hs
  obtain ⟨hcov, htar⟩ := step_mono hm hs k h
  refine ⟨?_, hcov, htar, fun hne => target_bounded hm hs k hne h⟩
  intro r hr hp
  have hcap := captured_of_reported hm hs k hq h hr
  have hcovered : coveredByDurable s' = true := by
    have hread : (reading c s').pending = 0 := (honest_step hs h r hr).symm.trans hp
    exact pending_eq_zero hm hs hread
  exact ((kept_step hm hs k h).mine_awaited hcap).trans (target_of_covered hcovered)

/-- An editor's session with a server and a stored local copy. -/
def editor : Config := ⟨true, false, true, true⟩

/-- Three operations of an earlier visit, as the stored copy holds them. -/
def stored : Span := ⟨∅, AList.singleton 7 3⟩

/-- The answer of a server that has nothing. -/
def emptyState : DocState versions := ⟨PROTOCOL, none, none, none, none, none, []⟩

def opened : Session versions := createProjectSession versions editor

def restoredSession : Session versions := (restore stored opened).1

/-- A session that has restored and captured its copy reports it as pending when the room
answers. -/
theorem saved_truthful_captured :
    ∃ s s' mine out, Run editor ReportsCaptured s mine ∧
      step editor s (.join (.state emptyState)) = some (s', out) ∧
      (7, 0) ∈ mine ∧ coverage s' = ∅ ∧ ∀ r, Effect.reported r ∈ out → r.pending = 1 := by
  have h1 : Run editor ReportsCaptured restoredSession
      (∅ ∪ made opened restoredSession (.restore stored)) :=
    .step (.restore stored) .opened nofun rfl
  have h2 : Run editor ReportsCaptured (endHydration editor .hydrated restoredSession).1 _ :=
    .step (.hydration .hydrated) h1 nofun rfl
  have hq : ReportsCaptured (endHydration editor .hydrated restoredSession).1
      (.join (.state emptyState)) := fun _ => .inl rfl
  have hstep : step editor (endHydration editor .hydrated restoredSession).1
      (.join (.state emptyState)) = some (sequenceJoin editor (.state emptyState)
        (endHydration editor .hydrated restoredSession).1) := rfl
  have hcov : coverage (sequenceJoin editor (.state emptyState)
      (endHydration editor .hydrated restoredSession).1).1 = ∅ := operations_empty
  have hmine : (7, 0) ∈ (∅ ∪ made opened restoredSession (.restore stored)) ∪
      made restoredSession (endHydration editor .hydrated restoredSession).1
        (.hydration .hydrated) := by
    refine .inl (.inr ⟨?_, ?_⟩)
    · show 0 < counter (merge ∅ stored.stop) 7
      decide
    · show ¬ 0 < counter (∅ : VersionVector ℕ) 7
      decide
  obtain ⟨htruth, -⟩ := saved_truthful rfl rfl h2 hq hstep
  refine ⟨_, _, _, _, h2, hstep, hmine, hcov, ?_⟩
  intro r hr
  have hne : r.pending ≠ 0 := by
    intro h0
    exact Set.notMem_empty _ (hcov.subset (htruth r hr h0 (.inl hmine)))
  have hle : r.pending ≤ 1 := by
    rw [mem_report hr]
    exact pending_le_one rfl _
  omega

/-- The room answers between the import of the stored copy and its capture: the report
says that nothing is pending, and the server has nothing. -/
theorem saved_before_capture :
    ∃ s s' mine out r, Run editor (fun _ _ => True) s mine ∧
      step editor s (.join (.state emptyState)) = some (s', out) ∧
      Effect.reported r ∈ out ∧ r.pending = 0 ∧ (7, 0) ∈ mine ∧ (7, 0) ∉ coverage s' := by
  have h1 : Run editor (fun _ _ => True) restoredSession
      (∅ ∪ made opened restoredSession (.restore stored)) :=
    .step (.restore stored) .opened trivial rfl
  refine ⟨_, _, _, _, ⟨0, false, 0, "", false⟩, h1, rfl, ?_, rfl, ?_, ?_⟩
  · exact mem_singleton.2 rfl
  · refine .inr ⟨?_, ?_⟩
    · show 0 < counter (merge ∅ stored.stop) 7
      decide
    · show ¬ 0 < counter (∅ : VersionVector ℕ) 7
      decide
  · show ¬ 0 < counter (∅ : VersionVector ℕ) 7
    decide

end LibrePaper.Client
