import LibrePaper.Client.Room

/-!
# No edit is stranded

Whenever a joined session has no update in flight and no retry armed, the server's head
covers every operation that this browser made or restored. The invariant follows each
vector that the server states: none is beyond the head while its connection lasts.
-/
namespace LibrePaper.Client
open Library List Option

variable {P : Type} [DecidableEq P] {R : Replica P} {c : Config}

/-- The vectors of a join frame are not beyond the head and the durable log. -/
def JoinFrame.Stated (H D : Set (Operation P)) (f : JoinFrame R) : Prop :=
  operations (f.vector.getD ∅) ⊆ H ∧ operations (f.durableVector.getD ∅) ⊆ D

/-- The vector of an event is not beyond the head, or the durable log. -/
def Op.Stated (H D : Set (Operation P)) : Op R → Prop
  | .join f => f.Stated H D
  | .gap v => operations (v.getD ∅) ⊆ H
  | .pressure v => v.isSome = true ∧ operations (v.getD ∅) ⊆ H
  | .durable v => operations (v.getD ∅) ⊆ D
  | _ => True

/-- A catch-up that was sent: the update holds what the document has beyond a vector that
the head covers. -/
def Caught (H : Set (Operation P)) (s : Session R) (out : List (Effect R)) : Prop :=
  ∃ u n, Effect.sent (.docUpdate u n) ∈ out ∧ held s ⊆ H ∪ operations (R.stop u)

/-- What the invariant needs of a session: its vectors are stated, and it has captured its
local copy when it is joined. -/
structure Trusted (H D : Set (Operation P)) (s : Session R) : Prop where
  coverage : coverage s ⊆ D
  gate : ∀ st ∈ s.gate, st.frame.Stated H D
  timer : s.pressureTimer.isSome = true → operations (s.pressureVector.getD ∅) ⊆ H
  captured : s.joined = true → s.hydrationCaptured = true

/-- Nothing is left to send: a retry is armed, everything is durable, or a catch-up went
out. -/
def Recovered (H : Set (Operation P)) (t : Session R) (out : List (Effect R)) : Prop :=
  t.pressureTimer.isSome = true ∨ target t ⊆ coverage t ∨ Caught H t out

/-- Why a joined session has nothing to send after an event: it was joined and its retry
is as it was, or it has recovered. -/
def Settles (H : Set (Operation P)) (s t : Session R) (out : List (Effect R)) : Prop :=
  t.joined = true → t.left = false →
    (s.joined = true ∧ s.left = false ∧ t.pressureTimer = s.pressureTimer) ∨ Recovered H t out

/-- What one event keeps of a session, and what it sends. -/
structure Deals (H D : Set (Operation P)) (s : Session R) (a : Session R × List (Effect R)) :
    Prop where
  trusted : Trusted H D a.1
  settles : Settles H s a.1 a.2

variable {H D : Set (Operation P)} {s t : Session R}

lemma settles_of_same (hj : t.joined = s.joined) (hl : t.left = s.left)
    (ht : t.pressureTimer = s.pressureTimer) (out : List (Effect R)) : Settles H s t out :=
  fun h h' => .inl ⟨hj ▸ h, hl ▸ h', ht⟩

variable {out : List (Effect R)} {frame : JoinFrame R} {st : JoinStep R} {w : Chain}
  {s' : Session R} {op : Op R} {f : Frame R} {r r' : Room R} {m : Message R}

/-- An event that touches none of what the invariant is about. -/
lemma deals_of_same (tr : Trusted H D s) (hcov : coverage t ⊆ coverage s) (hg : t.gate = s.gate)
    (hj : t.joined = s.joined) (hl : t.left = s.left) (ht : t.pressureTimer = s.pressureTimer)
    (hv : t.pressureVector = s.pressureVector)
    (hc : s.hydrationCaptured = true → t.hydrationCaptured = true) : Deals H D s (t, out) where
  trusted := by
    refine ⟨hcov.trans tr.coverage, ?_, ?_, fun h => hc (tr.captured (hj ▸ h))⟩
    · rw [hg]
      exact tr.gate
    · rw [ht, hv]
      exact tr.timer
  settles := settles_of_same hj hl ht out

lemma caught_catchUp (v : Option (VersionVector P)) (s : Session R)
    (hv : operations (v.getD ∅) ⊆ H) : Caught H (catchUp c v s).1 (catchUp c v s).2 := by
  refine ⟨R.exportFrom s.doc (v.getD ∅), s.seq + 1, ?_, ?_⟩
  · exact mem_append_right _ (mem_singleton.2 rfl)
  · exact (R.export_covers s.doc (v.getD ∅)).trans (Set.union_subset_union_left _ hv)

lemma trusted_catchUp (tr : Trusted H D s) (v : Option (VersionVector P)) :
    Trusted H D (catchUp c v s).1 :=
  ⟨tr.coverage, tr.gate, tr.timer, tr.captured⟩

/-- A gap is answered with a catch-up. -/
lemma trusted_gap (tr : Trusted H D s) (v : Option (VersionVector P)) :
    Trusted H D (gap c v s).1 := by
  have tr' : Trusted H D (pressureEased s) := ⟨tr.coverage, tr.gate, tr.timer, tr.captured⟩
  unfold gap
  split_ifs
  · exact tr
  · exact trusted_catchUp tr' v

lemma recovered_gap (hm : c.mayEdit = true) (v : Option (VersionVector P))
    (hv : operations (v.getD ∅) ⊆ H) (hl : s.left = false) :
    Recovered H (gap c v s).1 (gap c v s).2 := by
  unfold gap
  simp only [hl, hm, Bool.not_true, Bool.or_self, Bool.false_eq_true, if_false]
  exact .inr (.inr (caught_catchUp v _ hv))

/-- A refused update arms a retry, or finds one armed. -/
lemma trusted_pressure (tr : Trusted H D s) (v : Option (VersionVector P))
    (hs : v.isSome = true) (hv : operations (v.getD ∅) ⊆ H) :
    Trusted H D (pressure c v s) := by
  obtain ⟨v, rfl⟩ := isSome_iff_exists.1 hs
  unfold pressure armRetry
  split_ifs
  · exact tr
  · exact ⟨tr.coverage, tr.gate, fun _ => hv, tr.captured⟩
  · exact ⟨tr.coverage, tr.gate, fun _ => hv, tr.captured⟩

lemma recovered_pressure (hm : c.mayEdit = true) (v : Option (VersionVector P))
    (hl : s.left = false) (out : List (Effect R)) : Recovered H (pressure c v s) out := by
  unfold pressure armRetry
  simp only [hl, hm, Bool.not_true, Bool.or_self, Bool.false_eq_true, if_false]
  split_ifs with ha
  · exact .inl ha
  · exact .inl rfl

/-- The retry fires: it sends what the refused head and the durable log do not cover. -/
lemma deals_pressureFired (hDH : D ⊆ H) (tr : Trusted H D s)
    (ht : s.pressureTimer.isSome = true) : Deals H D s (pressureFired c s) := by
  have tr' : Trusted H D { s with pressureTimer := none } :=
    ⟨tr.coverage, tr.gate, nofun, tr.captured⟩
  unfold pressureFired
  simp only
  split_ifs with hj hc
  · refine ⟨tr', fun h h' => ?_⟩
    simp only at h h'
    simp [h, h'] at hj
  · exact ⟨tr', fun _ _ => .inr (.inr (.inl (target_of_covered hc)))⟩
  · refine ⟨trusted_catchUp tr' _, fun _ _ => .inr (.inr (.inr (caught_catchUp _ _ ?_)))⟩
    rw [getD_some, operations_mergeVectors]
    exact Set.union_subset (tr.timer ht) (tr.coverage.trans hDH)

lemma coverage_mergeDurableCoverage (v : Option (VersionVector P)) (s : Session R) :
    coverage (mergeDurableCoverage v s) = coverage s ∪ operations (v.getD ∅) := by
  cases v with
  | none => simp [mergeDurableCoverage]
  | some v => simp [coverage, mergeDurableCoverage, operations_mergeVectors]

lemma deals_durable (tr : Trusted H D s) (v : Option (VersionVector P))
    (hv : operations (v.getD ∅) ⊆ D) : Deals H D s (durable c v s) := by
  have hcov : coverage (mergeDurableCoverage v s) ⊆ D := by
    rw [coverage_mergeDurableCoverage]
    exact Set.union_subset tr.coverage hv
  have tr' : Trusted H D (mergeDurableCoverage v s) := by
    cases v <;> exact ⟨hcov, tr.gate, tr.timer, tr.captured⟩
  have hsame : (mergeDurableCoverage v s).joined = s.joined ∧
      (mergeDurableCoverage v s).left = s.left ∧
      (mergeDurableCoverage v s).pressureTimer = s.pressureTimer := by
    cases v <;> exact ⟨rfl, rfl, rfl⟩
  unfold durable
  split_ifs with h
  · exact deals_of_same tr subset_rfl rfl rfl rfl rfl rfl id
  · unfold clearWhenCovered
    split_ifs with hc
    · exact ⟨⟨tr'.coverage, tr'.gate, nofun, tr'.captured⟩,
        fun _ _ => .inr (.inr (.inl (target_of_covered hc)))⟩
    · exact ⟨tr', settles_of_same hsame.1 hsame.2.1 hsame.2.2 _⟩

/-- The end of a join: the session is joined only with a catch-up on its way. -/
lemma deals_finishJoin (hm : c.mayEdit = true) (tr : Trusted H D s)
    (hcap : s.hydrationCaptured = true) {v w : Option (VersionVector P)}
    (hv : operations (v.getD ∅) ⊆ H) (hw : operations (w.getD ∅) ⊆ D) :
    Deals H D s (finishJoin c v w s) := by
  have hcov : coverage (mergeDurableCoverage w s) ⊆ D := by
    rw [coverage_mergeDurableCoverage]
    exact Set.union_subset tr.coverage hw
  have tr' : Trusted H D (mergeDurableCoverage w s) := by
    cases w <;> exact ⟨hcov, tr.gate, tr.timer, tr.captured⟩
  have hcap' : (mergeDurableCoverage w s).hydrationCaptured = true := by cases w <;> exact hcap
  have hsame : (mergeDurableCoverage w s).joined = s.joined ∧
      (mergeDurableCoverage w s).left = s.left ∧
      (mergeDurableCoverage w s).pressureTimer = s.pressureTimer := by
    cases w <;> exact ⟨rfl, rfl, rfl⟩
  have tj : Trusted H D { mergeDurableCoverage w s with joined := true } :=
    ⟨hcov, tr'.gate, tr'.timer, fun _ => hcap'⟩
  have ta : Trusted H D (announcePresence c { mergeDurableCoverage w s with joined := true }).1 := by
    unfold announcePresence
    split_ifs
    · exact tj
    · exact ⟨tj.coverage, tj.gate, tj.timer, tj.captured⟩
  unfold finishJoin
  simp only [hm, if_true]
  split_ifs with h
  · exact ⟨tr', settles_of_same hsame.1 hsame.2.1 hsame.2.2 _⟩
  · obtain ⟨u, n, hu, hheld⟩ := caught_catchUp (c := c) v
      (announcePresence c { mergeDurableCoverage w s with joined := true }).1 hv
    exact ⟨trusted_catchUp (c := c) ta v,
      fun _ _ => .inr (.inr (.inr ⟨u, n, mem_append_right _ hu, hheld⟩))⟩

lemma trusted_of_grows (tr : Trusted H D s) (hd : coverage t ⊆ coverage s)
    (hg : t.gate = s.gate) (ht : t.pressureTimer = s.pressureTimer)
    (hv : t.pressureVector = s.pressureVector) (hc : t.joined = true → t.hydrationCaptured = true) :
    Trusted H D t := by
  refine ⟨hd.trans tr.coverage, ?_, ?_, hc⟩
  · rw [hg]
    exact tr.gate
  · rw [ht, hv]
    exact tr.timer

lemma deals_receive (hm : c.mayEdit = true) (tr : Trusted H D s)
    (hcap : s.hydrationCaptured = true) (base : List R.Update) (hf : frame.Stated H D) :
    Deals H D s (receive c base frame s) := by
  have tr' : Trusted H D (flushRemoteDuringHydration (importBatch (base ++ frame.updates) s).1).1 :=
    ⟨tr.coverage, tr.gate, tr.timer, tr.captured⟩
  have hd := deals_finishJoin hm tr' hcap hf.1 hf.2
  refine ⟨hd.trusted, fun hj hl => ?_⟩
  rcases hd.settles hj hl with h | h | h | ⟨u, n, hu, hheld⟩
  · exact .inl h
  · exact .inr (.inl h)
  · exact .inr (.inr (.inl h))
  · exact .inr (.inr (.inr ⟨u, n,
      mem_append_right _ (mem_append_right _ hu), hheld⟩))

lemma trusted_capture (hm : c.mayEdit = true) (tr : Trusted H D s) :
    Trusted H D (captureHydratedTarget c s) := by
  have hj : (captureHydratedTarget c s).pressureTimer = s.pressureTimer ∧
      (captureHydratedTarget c s).pressureVector = s.pressureVector := by
    unfold captureHydratedTarget rememberLocalTarget
    split_ifs <;> exact ⟨rfl, rfl⟩
  exact trusted_of_grows tr (coverage_capture s).le (capture_gate s) hj.1 hj.2
    fun _ => capture_captured hm s

lemma capture_joined (s : Session R) :
    (captureHydratedTarget c s).joined = s.joined ∧
    (captureHydratedTarget c s).pressureTimer = s.pressureTimer := by
  unfold captureHydratedTarget rememberLocalTarget
  split_ifs <;> exact ⟨rfl, rfl⟩

lemma trusted_awake (hm : c.mayEdit = true) (tr : Trusted H D s) {m : Session R}
    (h : Awake c st s m) :
    Trusted H D m ∧ m.joined = s.joined ∧ m.left = s.left ∧
    m.pressureTimer = s.pressureTimer := by
  cases h with
  | hydrated _ _ _ =>
    exact ⟨trusted_capture hm tr, (capture_joined s).1, capture_left s, (capture_joined s).2⟩
  | later _ => exact ⟨tr, rfl, rfl, rfl⟩

lemma turning_frame {st' : JoinStep R} {t : Turned R} (h : Turning c st s t)
    (ht : t.step = some st') : st'.frame = st.frame := by
  cases h with
  | queued _ _ =>
    cases ht
    rfl
  | fetching _ _ _ _ =>
    cases ht
    rfl
  | hashing _ _ _ =>
    cases ht
    rfl
  | obsolete _ _ _ => cases ht
  | rejected _ _ _ _ _ => cases ht
  | reopened _ _ => cases ht
  | received _ _ _ _ _ => cases ht

/-- The session that a turn leaves, before its chain is put back. -/
lemma deals_turning (hm : c.mayEdit = true) (tr : Trusted H D s) (o : Ordered s)
    {mine : Set (Operation P)} (k : Kept s mine) {rest : List (JoinStep R)}
    (hw : s.chain w = st :: rest) {t : Turned R} (h : Turning c st s t) :
    Deals H D s (t.session, t.effects) := by
  have hst : st ∈ live s := mem_live_of_chain (w := w) (by simp [hw])
  have hawake : ∀ m out, Awake c st s m → Deals H D s (m, out) := by
    intro m out ha
    obtain ⟨hm', hj, hl, ht⟩ := trusted_awake hm tr ha
    exact ⟨hm', settles_of_same hj hl ht out⟩
  have hself : ∀ out, Deals H D s (s, out) := fun out =>
    ⟨tr, settles_of_same rfl rfl rfl out⟩
  cases h with
  | queued _ _ => exact hself _
  | obsolete m hmm _ =>
    rcases hmm with rfl | ha
    · exact hself _
    · exact hawake m _ ha
  | rejected m _ ha _ _ => exact hawake m _ ha
  | fetching m ha _ _ => exact hawake m _ ha
  | reopened _ _ => exact hself _
  | hashing _ _ _ => exact hself _
  | received m base ha hs hb =>
    have hcap := awake_captured hm ha (captured_of_base k hst hb)
    obtain ⟨hgate, -⟩ := chain_current o hw (not_obsolete ha hs)
    have hf : st.frame.Stated H D := tr.gate st (by simp [hgate])
    obtain ⟨hm', hj, hl, ht⟩ := trusted_awake hm tr ha
    have hd := deals_receive hm hm' hcap base hf
    refine ⟨hd.trusted, fun hj' hl' => ?_⟩
    rcases hd.settles hj' hl' with ⟨h1, h2, h3⟩ | h
    · exact .inl ⟨hj ▸ h1, hl ▸ h2, h3.trans ht⟩
    · exact .inr h

lemma deals_advance (hm : c.mayEdit = true) (tr : Trusted H D s) (o : Ordered s)
    {mine : Set (Operation P)} (k : Kept s mine) {answer : Fetched R}
    (h : advance c w answer s = some (s', out)) : Deals H D s (s', out) := by
  obtain ⟨st, rest, t, hw, ht, rfl, rfl⟩ := advance_cases h
  have hd := deals_turning hm tr o k hw ht
  have hstill := still_turning ht
  refine ⟨?_, ?_⟩
  · cases w with
    | abandoned i =>
      exact ⟨hd.trusted.coverage, hd.trusted.gate, hd.trusted.timer, hd.trusted.captured⟩
    | gate =>
      refine ⟨hd.trusted.coverage, ?_, hd.trusted.timer, hd.trusted.captured⟩
      intro st' hst'
      have hgate : s.gate = st :: rest := hw
      rcases mem_append.1 hst' with h' | h'
      · rw [turning_frame ht (by simpa using h')]
        exact tr.gate st (by simp [hgate])
      · exact tr.gate st' (by simp [hgate, h'])
  · have hs := hd.settles
    cases w <;> exact hs

lemma deals_endHydration (hm : c.mayEdit = true) (hs : c.standalone = false)
    (tr : Trusted H D s) (h : Hydration) : Deals H D s (endHydration c h s) := by
  cases h with
  | hydrated =>
    simp only [endHydration, andThen, settled_of_room hs]
    have tr' : Trusted H D { s with hydrating := false, isLocal := true } :=
      ⟨tr.coverage, tr.gate, tr.timer, tr.captured⟩
    obtain ⟨hj, ht⟩ := capture_joined (c := c) { s with hydrating := false, isLocal := true }
    exact ⟨trusted_capture hm tr', settles_of_same hj (capture_left _) ht _⟩
  | failed error =>
    simp only [endHydration, andThen, settled_of_room hs]
    exact deals_of_same tr subset_rfl rfl rfl rfl rfl rfl id
  | silent =>
    simp only [endHydration, settled_of_room hs]
    exact deals_of_same tr subset_rfl rfl rfl rfl rfl rfl id

lemma deals_localEdit (tr : Trusted H D s) (e : R.Edit) : Deals H D s (localEdit c e s) := by
  unfold localEdit rememberLocalTarget
  simp only
  split_ifs <;> exact deals_of_same tr subset_rfl rfl rfl rfl rfl rfl id

lemma deals_apply (tr : Trusted H D s) (u : R.Update) : Deals H D s (apply u s) := by
  unfold apply
  split_ifs <;> exact deals_of_same tr subset_rfl rfl rfl rfl rfl rfl id

lemma deals_acknowledge (tr : Trusted H D s) (n : ℕ) :
    Deals H D s (acknowledge c n s) := by
  unfold acknowledge
  split_ifs <;> exact deals_of_same tr subset_rfl rfl rfl rfl rfl rfl id

lemma deals_sequenceJoin (tr : Trusted H D s) (hf : frame.Stated H D) :
    Deals H D s (sequenceJoin c frame s) := by
  refine ⟨⟨tr.coverage, ?_, tr.timer, nofun⟩, nofun⟩
  intro st hst
  rcases mem_append.1 hst with h | h
  · exact tr.gate st h
  · rw [mem_singleton.1 h]
    exact hf

lemma trusted_disconnected (tr : Trusted H D s) : Trusted H D (disconnected c s).1 :=
  ⟨tr.coverage, nofun, nofun, nofun⟩

/-- Every event but a refusal, which `recovered_gap` and `recovered_pressure` answer. -/
lemma deals_step (hm : c.mayEdit = true) (hs : c.standalone = false) (hDH : D ⊆ H)
    (tr : Trusted H D s) (o : Ordered s) {mine : Set (Operation P)} (k : Kept s mine)
    (hop : op.Stated H D) (h : step c s op = some (s', out)) :
    Trusted H D s' ∧ ((∀ v, op ≠ .gap v) → (∀ v, op ≠ .pressure v) → Settles H s s' out) := by
  have of_deals : Deals H D s (s', out) → Trusted H D s' ∧
      ((∀ v, op ≠ .gap v) → (∀ v, op ≠ .pressure v) → Settles H s s' out) :=
    fun hd => ⟨hd.trusted, fun _ _ => hd.settles⟩
  cases op with
  | gap v =>
    obtain ⟨rfl, -⟩ := of_some h
    exact ⟨trusted_gap tr v, fun hg => absurd rfl (hg v)⟩
  | pressure v =>
    obtain ⟨rfl, -⟩ := of_some h
    exact ⟨trusted_pressure tr v hop.1 hop.2, fun _ hp => absurd rfl (hp v)⟩
  | edit e =>
    obtain ⟨rfl, rfl⟩ := of_some h
    exact of_deals (deals_localEdit tr e)
  | restore u =>
    obtain ⟨-, rfl, rfl⟩ := of_guard h
    exact of_deals (deals_of_same tr subset_rfl rfl rfl rfl rfl rfl id)
  | hydration e =>
    obtain ⟨-, rfl, rfl⟩ := of_guard h
    exact of_deals (deals_endHydration hm hs tr e)
  | writing n =>
    obtain ⟨rfl, rfl⟩ := of_some h
    refine of_deals ?_
    unfold writing
    simp only
    split_ifs <;> exact deals_of_same tr subset_rfl rfl rfl rfl rfl rfl id
  | persisted =>
    obtain ⟨rfl, rfl⟩ := of_some h
    exact of_deals (deals_of_same tr subset_rfl rfl rfl rfl rfl rfl id)
  | failed e =>
    obtain ⟨rfl, rfl⟩ := of_some h
    exact of_deals (deals_of_same tr subset_rfl rfl rfl rfl rfl rfl id)
  | join frame =>
    obtain ⟨rfl, rfl⟩ := of_some h
    exact of_deals (deals_sequenceJoin tr hop)
  | turn w answer => exact of_deals (deals_advance hm tr o k h)
  | apply u =>
    obtain ⟨rfl, rfl⟩ := of_some h
    exact of_deals (deals_apply tr u)
  | acknowledge n =>
    obtain ⟨rfl, rfl⟩ := of_some h
    exact of_deals (deals_acknowledge tr n)
  | durable v =>
    obtain ⟨rfl, rfl⟩ := of_some h
    exact of_deals (deals_durable tr v hop)
  | timer =>
    obtain ⟨ht, rfl, rfl⟩ := of_guard h
    exact of_deals (deals_pressureFired hDH tr ht)
  | disconnected =>
    obtain ⟨rfl, rfl⟩ := of_some h
    exact of_deals ⟨trusted_disconnected tr, nofun⟩
  | leave =>
    obtain ⟨rfl, rfl⟩ := of_some h
    exact of_deals ⟨⟨tr.coverage, nofun, nofun, tr.captured⟩, nofun⟩

/-- The operations of the updates that are on their way to the server. -/
def stops (ms : List (Message R)) : Set (Operation P) :=
  {o | ∃ u n, Message.docUpdate u n ∈ ms ∧ o ∈ operations (R.stop u)}

lemma stops_mono {ms ns : List (Message R)} (h : ms ⊆ ns) : stops ms ⊆ stops ns := by
  rintro o ⟨u, n, hu, ho⟩
  exact ⟨u, n, h hu, ho⟩

lemma stops_of_sent {u : R.Update} {n : ℕ} (hj : s.joined = true) (hl : s.left = false)
    (h : Effect.sent (.docUpdate u n) ∈ out) :
    operations (R.stop u) ⊆ stops (out.filterMap (wire s)) := by
  intro o ho
  exact ⟨u, n, mem_filterMap.2 ⟨_, h, by simp [wire, hj, hl]⟩, ho⟩

/-- The vectors of a frame are not beyond the head and the durable log. -/
def Frame.Stated (H D : Set (Operation P)) : Frame R → Prop
  | .join f => f.Stated H D
  | .gap v => operations v ⊆ H
  | .pressure v => operations v ⊆ H
  | .durable v => operations v ⊆ D
  | _ => True

lemma Frame.stated_op (h : f.Stated H D) : f.op.Stated H D := by
  cases f with
  | pressure v => exact ⟨rfl, h⟩
  | join f => exact h
  | gap v => exact h
  | durable v => exact h
  | ack n => trivial
  | relayed u => trivial

lemma Frame.Stated.mono {H' D' : Set (Operation P)} (hH : H ⊆ H') (hD : D ⊆ D')
    (h : f.Stated H D) : f.Stated H' D' := by
  cases f with
  | join f => exact ⟨h.1.trans hH, h.2.trans hD⟩
  | gap v => exact Set.Subset.trans h hH
  | pressure v => exact Set.Subset.trans h hH
  | durable v => exact Set.Subset.trans h hD
  | ack n => trivial
  | relayed u => trivial

lemma Trusted.mono {H' D' : Set (Operation P)} (hH : H ⊆ H') (hD : D ⊆ D')
    (tr : Trusted H D s) : Trusted H' D' s :=
  ⟨tr.coverage.trans hD, fun st hst => ⟨(tr.gate st hst).1.trans hH, (tr.gate st hst).2.trans hD⟩,
    fun ht => (tr.timer ht).trans hH, tr.captured⟩

/-- What holds of a room in every run, up to what the session has still to send. -/
structure Core (r : Room R) : Prop where
  kept : Kept r.session r.mine
  ordered : Ordered r.session
  durable : operations r.durable ⊆ operations r.head
  trusted : Trusted (operations r.head) (operations r.durable) r.session
  frames : ∀ f ∈ r.toClient, f.Stated (operations r.head) (operations r.durable)

/-- Everything of this browser is with the server or on its way, or a retry is armed. -/
def Reaching (r : Room R) : Prop :=
  r.mine ⊆ operations r.head ∪ stops r.toServer ∨ r.session.pressureTimer.isSome = true

/-- What holds of a room in every run: a joined session has nothing more to send, or it
has a refusal to handle. -/
structure Sound (r : Room R) : Prop extends Core r where
  reaching : r.session.joined = true → r.session.left = false →
    Reaching r ∨ r.toClient.any Frame.isRefusal = true

lemma core_act (hm : c.mayEdit = true) (hs : c.standalone = false) (k : Core r)
    (hop : op.Stated (operations r.head) (operations r.durable)) (h : r.act c op = some r') :
    Core r' := by
  unfold Room.act at h
  simp only [map_eq_some_iff] at h
  obtain ⟨⟨s', out⟩, h, rfl⟩ := h
  exact ⟨kept_step hm hs k.kept h, ordered_step k.ordered h, k.durable,
    (deals_step hm hs k.durable k.trusted k.ordered k.kept hop h).1, k.frames⟩

/-- A session that has recovered has everything with the server, on its way, or armed. -/
lemma reaching_of_recovered (k : Core r) (hj : r.session.joined = true)
    (hl : r.session.left = false) (hout : out.filterMap (wire r.session) ⊆ r.toServer)
    (h : Recovered (operations r.head) r.session out) : Reaching r := by
  rcases h with h | h | ⟨u, n, hu, hheld⟩
  · exact .inr h
  · have hmine := k.kept.awaited (k.trusted.captured hj)
    have hcov := k.trusted.coverage.trans k.durable
    exact .inl ((hmine.trans (h.trans hcov)).trans Set.subset_union_left)
  · have hstop := (stops_of_sent hj hl hu).trans (stops_mono hout)
    exact .inl ((k.kept.known.trans hheld).trans (Set.union_subset_union_right _ hstop))

/-- Local edits: what they add is sent at once. -/
lemma reaching_edit (hm : c.mayEdit = true) (hs : c.standalone = false) (e : R.Edit)
    (hj : r.session.joined = true) (hl : r.session.left = false) (h : Reaching r)
    (ha : r.act c (.edit e) = some r') : Reaching r' := by
  unfold Room.act at ha
  simp only [step, map_some, some.injEq] at ha
  subst ha
  have hsame : (localEdit c e r.session).1.joined = r.session.joined ∧
      (localEdit c e r.session).1.left = r.session.left ∧
      (localEdit c e r.session).1.pressureTimer = r.session.pressureTimer := by
    unfold localEdit rememberLocalTarget
    simp only
    split_ifs <;> exact ⟨rfl, rfl, rfl⟩
  have hsent : Effect.sent (.docUpdate (R.edit r.session.doc e).2 (r.session.seq + 1)) ∈
      (localEdit c e r.session).2 := by
    unfold localEdit rememberLocalTarget
    simp [hm, hs]
  rcases h with h | h
  · refine .inl (Set.union_subset ?_ ?_)
    · exact h.trans (Set.union_subset_union_right _ (stops_mono (subset_append_left _ _)))
    · have hstop := stops_of_sent (hsame.1.trans hj) (hsame.2.1.trans hl) hsent
      have hmade : held (localEdit c e r.session).1 \ held r.session ⊆
          operations (R.stop (R.edit r.session.doc e).2) := by
        rintro o ⟨ho, hn⟩
        rw [held_localEdit] at ho
        exact ho.resolve_left hn
      exact (hmade.trans (hstop.trans (stops_mono (subset_append_right _ _)))).trans
        Set.subset_union_right
  · exact .inr (by rw [hsame.2.2]; exact h)

/-- An event of the session keeps the room sound; a refusal that it handles is answered by
what the event does. -/
lemma sound_act (hm : c.mayEdit = true) (hs : c.standalone = false) (k : Core r)
    (hop : op.Stated (operations r.head) (operations r.durable))
    (hr : (∀ v, op ≠ .gap v) → (∀ v, op ≠ .pressure v) → r.session.joined = true →
      r.session.left = false → Reaching r ∨ r.toClient.any Frame.isRefusal = true)
    (h : r.act c op = some r') : Sound r' := by
  have k' := core_act hm hs k hop h
  refine ⟨k', fun hj hl => ?_⟩
  have ha := h
  unfold Room.act at h
  simp only [map_eq_some_iff] at h
  obtain ⟨⟨s', out⟩, h, rfl⟩ := h
  have hout : out.filterMap (wire s') ⊆ r.toServer ++ out.filterMap (wire s') :=
    subset_append_right _ _
  have hrec : Recovered (operations r.head) s' out →
      Reaching ⟨s', r.mine ∪ made r.session s' op, r.up, r.head, r.durable,
        r.toServer ++ out.filterMap (wire s'), r.toClient⟩ :=
    reaching_of_recovered k' hj hl hout
  have hd := (deals_step hm hs k.durable k.trusted k.ordered k.kept hop h).2
  by_cases hg : ∃ v, op = .gap v
  · obtain ⟨v, rfl⟩ := hg
    obtain ⟨rfl, rfl⟩ := of_some h
    refine .inl (hrec (recovered_gap hm v hop ?_))
    unfold gap at hl
    split_ifs at hl with hc
    · exact hl
    · simpa [hm] using hc
  by_cases hp : ∃ v, op = .pressure v
  · obtain ⟨v, rfl⟩ := hp
    obtain ⟨rfl, rfl⟩ := of_some h
    refine .inl (hrec (recovered_pressure hm v ?_ _))
    by_contra hn
    have hn' : r.session.left = true := by simpa using hn
    simp [pressure, hn'] at hl
  have hng : ∀ v, op ≠ .gap v := fun v hv => hg ⟨v, hv⟩
  have hnp : ∀ v, op ≠ .pressure v := fun v hv => hp ⟨v, hv⟩
  rcases hd hng hnp hj hl with ⟨hj₀, hl₀, ht₀⟩ | hrecovered
  · rcases hr hng hnp hj₀ hl₀ with hreach | href
    · by_cases hk : op.keeps = true
      · have hmade : made r.session s' op = ∅ := by cases op <;> first | rfl | cases hk
        refine .inl ?_
        rcases hreach with hreach | hreach
        · refine .inl ?_
          simp only [hmade, Set.union_empty]
          exact hreach.trans (Set.union_subset_union_right _ (stops_mono (subset_append_left _ _)))
        · refine .inr ?_
          show s'.pressureTimer.isSome = true
          rw [ht₀]
          exact hreach
      · cases op with
        | edit e => exact .inl (reaching_edit hm hs e hj₀ hl₀ hreach ha)
        | restore u =>
          obtain ⟨hh, -, -⟩ := of_guard h
          rw [k.kept.settled (k.trusted.captured hj₀)] at hh
          cases hh
        | _ => exact absurd rfl hk
    · exact .inr href
  · exact .inl (hrec hrecovered)

/-- The server's side moves on: its head and its durable log grow. -/
lemma Core.grow (k : Core r) {head durable : VersionVector P} {toServer : List (Message R)}
    {toClient : List (Frame R)} {up : Bool} (hH : operations r.head ⊆ operations head)
    (hD : operations r.durable ⊆ operations durable) (hDH : operations durable ⊆ operations head)
    (hf : ∀ f ∈ toClient, f ∈ r.toClient ∨ f.Stated (operations head) (operations durable)) :
    Core ⟨r.session, r.mine, up, head, durable, toServer, toClient⟩ := by
  refine ⟨k.kept, k.ordered, hDH, k.trusted.mono hH hD, ?_⟩
  intro f hmem
  rcases hf f hmem with h | h
  · exact (k.frames f h).mono hH hD
  · exact h

lemma stops_cons (m : Message R) (ms : List (Message R)) :
    stops (m :: ms) = stops [m] ∪ stops ms := by
  ext o
  simp only [stops, mem_cons, not_mem_nil, or_false, Set.mem_ofPred_eq, Set.mem_union]
  constructor
  · rintro ⟨u, n, h | h, ho⟩
    · exact .inl ⟨u, n, h, ho⟩
    · exact .inr ⟨u, n, h, ho⟩
  · rintro (⟨u, n, h, ho⟩ | ⟨u, n, h, ho⟩)
    · exact ⟨u, n, .inl h, ho⟩
    · exact ⟨u, n, .inr h, ho⟩

lemma stops_docUpdate (u : R.Update) (n : ℕ) :
    stops [Message.docUpdate u n] = operations (R.stop u) := by
  ext o
  constructor
  · rintro ⟨u', n', h, ho⟩
    cases mem_singleton.1 h
    exact ho
  · exact fun ho => ⟨u, n, mem_singleton.2 rfl, ho⟩

lemma stops_other (h : m.isUpdate = false) : stops [m] = ∅ := by
  ext o
  constructor
  · rintro ⟨u, n, hu, -⟩
    rw [← mem_singleton.1 hu] at h
    cases h
  · exact fun ho => absurd ho (Set.notMem_empty o)

/-- The server answers: an accepted update is with it, and a refused one leaves a refusal
behind. -/
lemma sound_answer {rest : List (Message R)} {a : Answer R} (k : Core r)
    (hr : r.session.joined = true → r.session.left = false →
      (r.mine ⊆ operations r.head ∪ stops (m :: rest) ∨
        r.session.pressureTimer.isSome = true) ∨ r.toClient.any Frame.isRefusal = true)
    (hrest : r.toServer = rest) (h : r.answer m a = some r') : Sound r' := by
  unfold Room.answer at h
  split at h
  · next u n =>
    split_ifs at h with hc
    cases h
    have hH : operations r.head ⊆ operations (merge r.head (R.stop u)) := by
      rw [operations_merge]
      exact Set.subset_union_left
    refine ⟨k.grow hH subset_rfl (k.durable.trans hH) (fun _ => .inl), fun hj hl => ?_⟩
    rcases hr hj hl with (h | h) | h
    · refine .inl (.inl ?_)
      rw [stops_cons, stops_docUpdate, ← Set.union_assoc, ← operations_merge] at h
      rw [hrest]
      exact h
    · exact .inl (.inr h)
    · exact .inr h
  · cases h
    refine ⟨k.grow subset_rfl subset_rfl k.durable ?_, fun _ _ => .inr ?_⟩
    · intro f hf
      rcases mem_append.1 hf with hf | hf
      · exact .inl hf
      · rw [mem_singleton.1 hf]
        exact .inr subset_rfl
    · simp [Frame.isRefusal]
  · cases h
    refine ⟨k.grow subset_rfl subset_rfl k.durable ?_, fun _ _ => .inr ?_⟩
    · intro f hf
      rcases mem_append.1 hf with hf | hf
      · exact .inl hf
      · rw [mem_singleton.1 hf]
        exact .inr subset_rfl
    · simp [Frame.isRefusal]
  · next v frames =>
    cases h
    refine ⟨k.grow subset_rfl subset_rfl k.durable ?_, fun hj hl => ?_⟩
    · intro f hf
      rcases mem_append.1 hf with hf | hf
      · exact .inl hf
      · obtain ⟨frame, -, rfl⟩ := mem_map.1 hf
        cases frame <;> exact .inr ⟨subset_rfl, subset_rfl⟩
    · rw [stops_cons, stops_other rfl, Set.empty_union, ← hrest] at hr
      rcases hr hj hl with h | h
      · exact .inl h
      · exact .inr (by simp [h])
  · cases h
    rw [stops_cons, stops_other rfl, Set.empty_union, ← hrest] at hr
    exact ⟨k, hr⟩
  · cases h

lemma core_disconnect (hm : c.mayEdit = true) (hs : c.standalone = false) (k : Core r)
    (up : Bool) : Sound { r.disconnect c with up := up } := by
  have hstep : step c r.session .disconnected =
      some ((disconnected c r.session).1, (disconnected c r.session).2) := rfl
  have hkept := kept_step hm hs k.kept hstep
  simp only [made, Set.union_empty] at hkept
  refine ⟨⟨hkept, ordered_step k.ordered hstep, k.durable,
    trusted_disconnected (c := c) k.trusted, ?_⟩,
    fun hj => by cases hj⟩
  nofun

lemma sound_step (hm : c.mayEdit = true) (hs : c.standalone = false) (d : Sound r) {op : RoomOp R}
    (h : r.step c op = some r') : Sound r' := by
  have k := d.toCore
  cases op with
  | own op =>
    simp only [Room.step] at h
    split_ifs at h with ho
    refine sound_act hm hs k ?_ (fun _ _ => d.reaching) h
    cases op <;> trivial
  | receive =>
    simp only [Room.step] at h
    split at h
    · cases h
    · next f rest hf =>
      split_ifs at h
      have hmem : f ∈ r.toClient := by simp [hf]
      have k' : Core { r with toClient := rest } :=
        ⟨k.kept, k.ordered, k.durable, k.trusted, fun g hg => k.frames g (by simp [hf, hg])⟩
      refine sound_act hm hs k' (Frame.stated_op (k.frames f hmem)) ?_ h
      intro hng hnp hj hl
      have hnot : f.isRefusal = false := by
        cases f with
        | gap v => exact absurd rfl (hng (some v))
        | pressure v => exact absurd rfl (hnp (some v))
        | _ => rfl
      rcases d.reaching hj hl with h | h
      · exact .inl h
      · rw [hf, List.any_cons, hnot, Bool.false_or] at h
        exact .inr h
  | openRoom =>
    simp only [Room.step] at h
    split_ifs at h
    cases h
    refine ⟨k.grow subset_rfl subset_rfl k.durable fun _ => .inl, fun hj hl => ?_⟩
    rcases d.reaching hj hl with (h | h) | h
    · exact .inl (.inl (h.trans
        (Set.union_subset_union_right _ (stops_mono (List.subset_append_left _ _)))))
    · exact .inl (.inr h)
    · exact .inr h
  | serve a =>
    simp only [Room.step] at h
    split at h
    · cases h
    · next m rest hms =>
      split_ifs at h
      have k' : Core { r with toServer := rest } :=
        ⟨k.kept, k.ordered, k.durable, k.trusted, k.frames⟩
      refine sound_answer k' ?_ rfl h
      intro hj hl
      have hreach := d.reaching hj hl
      unfold Reaching at hreach
      rwa [hms] at hreach
  | others v =>
    cases h
    have hH : operations r.head ⊆ operations (merge r.head v) := by
      rw [operations_merge]
      exact Set.subset_union_left
    refine ⟨k.grow hH subset_rfl (k.durable.trans hH) fun _ => .inl, fun hj hl => ?_⟩
    rcases d.reaching hj hl with (h | h) | h
    · exact .inl (.inl (h.trans (Set.union_subset_union_left _ hH)))
    · exact .inl (.inr h)
    · exact .inr h
  | flush v notify =>
    simp only [Room.step] at h
    by_cases hc : covers r.head v = true
    swap
    · rw [if_neg hc] at h
      cases h
    rw [if_pos hc] at h
    cases h
    have hv : operations v ⊆ operations r.head := operations_subset.2 ((covers_iff _ _).1 hc)
    have hD : operations r.durable ⊆ operations (merge r.durable v) := by
      rw [operations_merge]
      exact Set.subset_union_left
    have hDH : operations (merge r.durable v) ⊆ operations r.head := by
      rw [operations_merge]
      exact Set.union_subset k.durable hv
    refine ⟨k.grow subset_rfl hD hDH ?_, fun hj hl => ?_⟩
    · intro f hf
      split_ifs at hf
      · rcases List.mem_append.1 hf with hf | hf
        · exact .inl hf
        · rw [List.mem_singleton.1 hf]
          exact .inr subset_rfl
      · exact .inl hf
    · rcases d.reaching hj hl with h | h
      · exact .inl h
      · refine .inr ?_
        show (if (notify && r.up) = true then _ else _ : List (Frame R)).any _ = true
        split_ifs
        · simp [h]
        · exact h
  | ack n =>
    simp only [Room.step] at h
    split_ifs at h
    cases h
    refine ⟨k.grow subset_rfl subset_rfl k.durable ?_, fun hj hl => ?_⟩
    · intro f hf
      rcases List.mem_append.1 hf with hf | hf
      · exact .inl hf
      · rw [List.mem_singleton.1 hf]
        exact .inr trivial
    · rcases d.reaching hj hl with h | h
      · exact .inl h
      · exact .inr (by simp [h])
  | relay u =>
    simp only [Room.step] at h
    split_ifs at h
    cases h
    refine ⟨k.grow subset_rfl subset_rfl k.durable ?_, fun hj hl => ?_⟩
    · intro f hf
      rcases List.mem_append.1 hf with hf | hf
      · exact .inl hf
      · rw [List.mem_singleton.1 hf]
        exact .inr trivial
    · rcases d.reaching hj hl with h | h
      · exact .inl h
      · exact .inr (by simp [h])
  | drop =>
    cases h
    exact ⟨k.grow subset_rfl subset_rfl k.durable fun _ => .inl, d.reaching⟩
  | told =>
    simp only [Room.step] at h
    split_ifs at h
    cases h
    exact core_disconnect hm hs k r.up
  | reconnect =>
    simp only [Room.step] at h
    split_ifs at h
    cases h
    exact core_disconnect hm hs k true
  | restart head =>
    simp only [Room.step] at h
    split_ifs at h with hc
    cases h
    simp only [Room.idle, Bool.and_eq_true, List.isEmpty_iff, Bool.not_eq_true',
      Option.isNone_iff_eq_none] at hc
    obtain ⟨⟨⟨⟨⟨⟨-, hj⟩, hg⟩, ht⟩, -⟩, hf⟩, hcov⟩ := hc
    have hD : operations r.durable ⊆ operations head :=
      operations_subset.2 ((covers_iff _ _).1 hcov)
    refine ⟨⟨k.kept, k.ordered, hD, ⟨k.trusted.coverage, ?_, ?_, k.trusted.captured⟩, ?_⟩, ?_⟩
    · simp [hg]
    · simp [ht]
    · simp [hf]
    · intro hj'
      simp only at hj'
      rw [hj] at hj'
      cases hj'

lemma sound_opened (hm : c.mayEdit = true) (hs : c.standalone = false)
    {head durable : VersionVector P} (h : covers head durable = true) :
    Sound (.opened R c head durable) := by
  have hD : operations durable ⊆ operations head := operations_subset.2 ((covers_iff _ _).1 h)
  have hj : (createProjectSession R c).joined = false := by
    unfold createProjectSession captureHydratedTarget rememberLocalTarget
    simp only
    split_ifs <;> simp [hs]
  have hcov : (createProjectSession R c).durableCoverage = none ∧
      (createProjectSession R c).gate = [] ∧
      (createProjectSession R c).pressureTimer = none := by
    unfold createProjectSession captureHydratedTarget rememberLocalTarget
    simp only
    split_ifs <;> exact ⟨rfl, rfl, rfl⟩
  refine ⟨⟨kept_opened hm, ordered_opened, hD, ⟨?_, ?_, ?_, ?_⟩, nofun⟩, ?_⟩
  · show coverage (createProjectSession R c) ⊆ _
    simp [coverage, hcov.1]
  · show ∀ st ∈ (createProjectSession R c).gate, _
    simp [hcov.2.1]
  · show (createProjectSession R c).pressureTimer.isSome = true → _
    simp [hcov.2.2]
  · show (createProjectSession R c).joined = true → _
    simp [hj]
  · show (createProjectSession R c).joined = true → _
    simp [hj]

lemma Room.Reachable.sound (hm : c.mayEdit = true) (hs : c.standalone = false)
    (h : Room.Reachable c r) : Sound r := by
  induction h with
  | opened head durable hc => exact sound_opened hm hs hc
  | step op _ hstep ih => exact sound_step hm hs ih hstep

/-- No edit is stranded: whenever the session is joined, has no update in flight and no
retry armed, the server's head covers every operation that this browser made or
restored. -/
theorem no_edit_stranded (hm : c.mayEdit = true) (hs : c.standalone = false) {r : Room R}
    (h : Room.Reachable c r) (hj : r.joined = true) (hf : r.inFlight = false)
    (ht : r.session.pressureTimer = none) : r.mine ⊆ operations r.head := by
  simp only [Room.joined, Bool.and_eq_true, Bool.not_eq_true'] at hj
  simp only [Room.inFlight, Bool.or_eq_false_iff] at hf
  have hstops : stops r.toServer = ∅ := by
    ext o
    constructor
    · rintro ⟨u, n, hu, -⟩
      have := any_eq_false.1 hf.1 _ hu
      exact absurd rfl this
    · exact fun ho => absurd ho (Set.notMem_empty o)
  rcases (h.sound hm hs).reaching hj.1 hj.2 with (h | h) | h
  · rwa [hstops, Set.union_empty] at h
  · simp [ht] at h
  · rw [hf.2] at h
    cases h

/-- A list of events of a room. -/
def runRoom (c : Config) (r : Room R) : List (RoomOp R) → Option (Room R)
  | [] => some r
  | op :: ops => (r.step c op).bind fun r' => runRoom c r' ops

lemma Room.Reachable.run (h : Room.Reachable c r) :
    ∀ {ops : List (RoomOp R)}, runRoom c r ops = some r' → Room.Reachable c r' := by
  intro ops hr
  induction ops generalizing r with
  | nil =>
    cases hr
    exact h
  | cons op ops ih =>
    obtain ⟨r₁, h₁, hr⟩ := bind_eq_some_iff.1 hr
    exact ih (.step op h h₁) hr

/-- A browser joins an empty room, and writes two operations that the server refuses for
want of room and accepts when they are sent again. -/
def refusedOnce : List (RoomOp versions) :=
  [.reconnect, .openRoom,
    .serve (.join [.state ⟨PROTOCOL, some ∅, some ∅, none, none, none, []⟩]), .receive,
    .own (.turn .gate .failed), .own (.turn .gate .failed), .serve .nothing, .serve .accept,
    .own (.edit (1, 2)), .serve .pressure, .receive, .own .timer, .serve .accept]

lemma refusedOnce_runs :
    (runRoom fresh (.opened versions fresh ∅ ∅) refusedOnce).isSome = true := by decide

def savedRoom : Room versions :=
  (runRoom fresh (.opened versions fresh ∅ ∅) refusedOnce).get refusedOnce_runs

theorem no_edit_stranded_refused :
    savedRoom.joined = true ∧ (1, 1) ∈ operations savedRoom.head ∧
    savedRoom.mine ⊆ operations savedRoom.head := by
  have hreach : Room.Reachable fresh savedRoom :=
    Room.Reachable.run (.opened ∅ ∅ rfl) (some_get refusedOnce_runs).symm
  have hj : savedRoom.joined = true := by decide
  have hf : savedRoom.inFlight = false := by decide
  have ht : savedRoom.session.pressureTimer = none := by decide
  refine ⟨hj, ?_, no_edit_stranded rfl rfl hreach hj hf ht⟩
  show 1 < counter savedRoom.head 1
  decide

end LibrePaper.Client
