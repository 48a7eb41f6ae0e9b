import LibrePaper.Log.Compaction

/-!
# History trimming

A shallow base holds no operations from before the version it was trimmed at, and what is
built from it holds none either. The state is traced with the version that the base and
the cached document start after, so that it can be said what a snapshot, a join reply and
a later base hold of the history that has been trimmed.
-/
namespace LibrePaper.Log
open Library List Option

set_option linter.unusedSectionVars false

variable {V K D : Type} [SemilatticeSup V] [OrderBot V] {P : Platform V K D}

/-- What runs from a first to a last version holds nothing from before `trim`: whatever
it reaches of that, it starts after. -/
def Past (trim : V) (e : Extent V) : Prop := ∀ v ≤ trim, v ≤ e.stop → v ≤ e.start

lemma Past.of_le {trim : V} {e : Extent V} (h : trim ≤ e.start) : Past trim e :=
  fun _ hv _ => hv.trans h

lemma Past.mono {trim trim' : V} {e : Extent V} (h : Past trim' e) (hle : trim ≤ trim') :
    Past trim e :=
  fun v hv => h v (hv.trans hle)

/-- A sequencer and its log with the version that the base starts after, the one that the
cached document starts after, the ones that the waiting snapshots start after, and the
version of the last shallow base. -/
structure Traced (P : Platform V K D) where
  sys : Sys P
  baseSince : V
  cacheSince : V
  taken : List V
  trimmed : V

def Traced.start (P : Platform V K D) (d : Durable V K D) (baseSince trimmed : V) : Traced P :=
  ⟨Sys.start P d, baseSince, ⊥, [], trimmed⟩

/-- What a new base starts after: a shallow export at its own version, a full export of a
document where the document does. -/
def Traced.since (t : Traced P) (a : Activated V) : V :=
  if a.shallow then a.snapshot.logVector else (t.taken[a.index]?).getD ⊥

section Steps

variable [DecidableEq V] [DecidableLE V] [DecidableEq K] [DecidableEq D]

/-- What a step gives out: the snapshot it takes, the base and the batches it replies
with, the base it activates. -/
def Traced.exports (t : Traced P) : Op V → List (Extent V)
  | .snapshot => t.sys.inner.snapshotAtLogVector.toList.map fun n => ⟨t.cacheSince, n.logVector⟩
  | .joinReply =>
    match t.sys.gate with
    | .joined r =>
      (r.reply t.sys.durable).base.toList.map (fun v => ⟨t.baseSince, v⟩) ++
        (r.reply t.sys.durable).batches.map P.extent
    | _ => []
  | op => (t.sys.activated op).toList.map fun a => ⟨t.since a, a.snapshot.logVector⟩

/-- One step of the traced system. -/
def Traced.step (c : Config) (t : Traced P) (op : Op V) : Option (Traced P) :=
  (Log.step c t.sys op).map fun r =>
    { sys := r.1
      baseSince := (t.sys.activated op).elim t.baseSince t.since
      cacheSince := if op.builds then t.baseSince else t.cacheSince
      taken := match op with
        | .snapshot => t.taken ++ [t.cacheSince]
        | _ => t.taken
      trimmed := ((t.sys.activated op).filter Activated.shallow).elim t.trimmed
        fun a => a.snapshot.logVector }

/-- A run of steps that `allowed` admits, with everything it gives out, in order; a new
sequencer may be admitted on the log at any time. -/
inductive Traced.Run (c : Config) (allowed : Traced P → Op V → Prop) :
    Traced P → List (Extent V) → Traced P → Prop
  | refl (t : Traced P) : Run c allowed t [] t
  | admitted {t u : Traced P} {exports : List (Extent V)} :
      Run c allowed (.start P t.sys.durable t.baseSince t.trimmed) exports u →
        Run c allowed t exports u
  | step {t u v : Traced P} {exports : List (Extent V)} (op : Op V) : allowed t op →
      t.step c op = some u → Run c allowed u exports v → Run c allowed t (t.exports op ++ exports) v

/-- Whether a step is an activation that is settled by reading storage again. -/
def Op.recovers : Op V → Bool
  | .activate _ _ _ (.failed _ true) => true
  | _ => false

/-- What the code relies on where it trims: no update repeats operations from before the
trim, a shallow base whose activation is settled by reading storage again leaves no
document cached that starts before it, and a full base starts after the trim. -/
structure Traced.Allows (t : Traced P) (op : Op V) : Prop where
  brings : ∀ bytes ∈ op.brings, Past t.trimmed (P.extent bytes)
  shallow : ∀ a, t.sys.activated op = some a → a.shallow = true →
    (t.sys.based a.snapshot a.snapshotBytes).Carries
        (fun bytes => Past a.snapshot.logVector (P.extent bytes)) ∧
      (op.recovers = true → t.sys.inner.fenced = none → t.sys.inner.cache ≠ none →
        a.snapshot.logVector ≤ t.cacheSince)
  full : ∀ a, t.sys.activated op = some a → a.shallow = false → t.trimmed ≤ t.since a

/-- Nothing from before the trim is in the base, in the cached document of a sequencer
that is not fenced, or in an update that is carried. -/
structure Traced.Trimmed (t : Traced P) : Prop where
  base : t.trimmed ≤ t.baseSince
  cache : t.sys.inner.fenced = none → t.sys.inner.cache ≠ none → t.trimmed ≤ t.cacheSince
  carries : t.sys.Carries fun bytes => Past t.trimmed (P.extent bytes)

/-- What is known of every state of an allowed run. -/
structure Traced.Ok (t : Traced P) : Prop extends t.Trimmed where
  inv : Inv t.sys
  trimmed_le : t.trimmed ≤ t.sys.durable.baseVector

variable {c : Config} {t u : Traced P} {op : Op V}

lemma Traced.Ok.admitted (h : t.Ok) :
    (Traced.start P t.sys.durable t.baseSince t.trimmed).Ok where
  base := h.base
  cache := fun _ => absurd rfl
  carries := ⟨h.carries.rows, by simp [Traced.start, Sys.start, admitDocument],
    by simp [Traced.start, Sys.start], trivial⟩
  inv := .start h.inv.durable
  trimmed_le := h.trimmed_le

lemma Traced.Ok.le_snapshot (h : t.Ok) {a : Activated V} (ha : t.sys.activated op = some a) :
    t.trimmed ≤ a.snapshot.logVector := by
  obtain ⟨-, -, hvec⟩ := h.inv.activated ha
  rw [hvec]
  exact h.trimmed_le.trans (h.inv.durable.baseVector_le _)

variable {s : Sys P}

/-- The batches of a join reply are carried by the rows or by the holder of the gate. -/
lemma Registration.reply_batches {ok : List UInt8 → Prop} {r : Registration V} (h : s.Carries ok)
    (hgate : s.gate = .joined r) : ∀ bytes ∈ (r.reply s.durable).batches, ok bytes := by
  have hg := h.gate
  rw [hgate] at hg
  intro bytes hb
  rcases mem_append.1 hb with hb | hb
  · cases hfrom : r.fromRow with
    | none => simp [hfrom] at hb
    | some n =>
      rw [hfrom] at hb
      obtain ⟨row, hrow, hb⟩ := mem_flatMap.1 hb
      obtain ⟨b, hbatch, rfl⟩ := mem_map.1 hb
      exact h.rows row (mem_of_mem_filter hrow) b hbatch
  · exact hg bytes hb

/-- Nothing that an allowed step gives out is from before the trim. -/
lemma Traced.Ok.exports (h : t.Ok) (hallow : t.Allows op) :
    ∀ e ∈ t.exports op, Past t.trimmed e := by
  have hbase : ∀ e ∈ (t.sys.activated op).toList.map fun a =>
      (⟨t.since a, a.snapshot.logVector⟩ : Extent V), Past t.trimmed e := by
    intro e he
    obtain ⟨a, ha, rfl⟩ := mem_map.1 he
    have ha := mem_toList.1 ha
    refine .of_le ?_
    cases hs : a.shallow with
    | false => exact hallow.full a ha hs
    | true =>
      rw [Traced.since, if_pos hs]
      exact h.le_snapshot ha
  unfold Traced.exports
  split
  · intro e he
    obtain ⟨n, hn, rfl⟩ := mem_map.1 he
    have hn := mem_toList.1 hn
    unfold Inner.snapshotAtLogVector at hn
    split_ifs at hn with hmarks hcache
    refine .of_le (h.cache ?_ ?_)
    · simpa using fun hf => hmarks (.inl hf)
    · rw [not_not.1 hcache]
      exact some_ne_none _
  · split
    · rename_i r hgate
      intro e he
      rcases mem_append.1 he with he | he
      · obtain ⟨v, -, rfl⟩ := mem_map.1 he
        exact .of_le h.base
      · obtain ⟨bytes, hb, rfl⟩ := mem_map.1 he
        exact Registration.reply_batches h.carries hgate bytes hb
    · nofun
  · exact hbase

/-- The trimmed version only grows. -/
lemma Traced.Ok.trimmed_mono (h : t.Ok) (hs : t.step c op = some u) :
    t.trimmed ≤ u.trimmed := by
  obtain ⟨r, -, rfl⟩ := Option.map_eq_some_iff.1 hs
  cases ha : t.sys.activated op with
  | none => simp
  | some a =>
    cases hshallow : a.shallow
    · simp [Option.filter, hshallow]
    · simpa [Option.filter, hshallow] using h.le_snapshot ha

lemma Sys.activated_op {a : Activated V} (h : s.activated op = some a) :
    ∃ i bytes shallow outcome, op = .activate i bytes shallow outcome := by
  cases op with
  | activate i bytes shallow outcome => exact ⟨i, bytes, shallow, outcome, rfl⟩
  | _ => cases h

/-- What a step leaves after it has made a base durable. -/
lemma Sys.activated_step {s' : Sys P} {shown : List (Event V)} {a : Activated V} (h : Inv s)
    (hs : Log.step c s op = some (s', shown)) (ha : s.activated op = some a) :
    (∀ ok, (s.based a.snapshot a.snapshotBytes).Carries ok → s'.Carries ok) ∧
      (a.shallow = true → s'.inner.fenced = none → s'.inner.cache ≠ none → op.recovers = true) := by
  obtain ⟨i, bytes, shallow, outcome, rfl⟩ := Sys.activated_op ha
  obtain ⟨n, -, hget, hcases⟩ := Sys.activate_cases hs
  cases hcases with
  | noted reread hop ht =>
    obtain rfl := some.inj (hop.symm.trans ha)
    subst ht
    refine ⟨fun ok hc => hc.inner hc.buffer, fun hshallow _ hcache => ?_⟩
    dsimp only at hshallow hcache
    rw [if_pos hshallow] at hcache
    exact absurd rfl hcache
  | stale reread b hb hle hop ht => cases hop.symm.trans ha
  | ahead reread hahead =>
    have hn := (h.snapshots n (mem_of_getElem? hget)).1
    have hbehind := h.tracks.behind
    omega
  | committed reread hop ht =>
    obtain rfl := some.inj (hop.symm.trans ha)
    subst ht
    refine ⟨(s.reconcile_spec (s.based n bytes).durable reread n.isBase).2.1, ?_⟩
    intro _ hfenced _
    cases reread
    · cases hfenced
    · rfl
  | uncommitted sent reread hop ht => cases hop.symm.trans ha

/-- A step that makes no base durable keeps the trim. -/
lemma Traced.Ok.keep (h : t.Ok) (hallow : t.Allows op) {shown : List (Event V)}
    (hs : Log.step c t.sys op = some (s, shown)) (taken : List V)
    (hbase : s.durable.baseVector = t.sys.durable.baseVector) :
    (⟨s, t.baseSince, if op.builds then t.baseSince else t.cacheSince, taken, t.trimmed⟩ :
      Traced P).Ok where
  base := h.base
  cache := by
    have hlogs := step_logs h.inv hs
    intro hfenced hcache
    dsimp only
    split_ifs with hbuilds
    · exact h.base
    · exact h.cache (hlogs.fenced hfenced) (hlogs.cache (Bool.eq_false_iff.2 hbuilds) hcache)
  carries := (step_logs h.inv hs).carries _ h.carries hallow.brings
  inv := h.inv.step hs
  trimmed_le := hbase ▸ h.trimmed_le

/-- A step that makes a base durable trims at that base, when it is shallow. -/
lemma Traced.Ok.rebase (h : t.Ok) (hallow : t.Allows op) {shown : List (Event V)}
    (hs : Log.step c t.sys op = some (s, shown)) (taken : List V) {a : Activated V}
    (ha : t.sys.activated op = some a) (hbase : s.durable.baseVector = a.snapshot.logVector) :
    (⟨s, t.since a, t.cacheSince, taken,
      if a.shallow then a.snapshot.logVector else t.trimmed⟩ : Traced P).Ok := by
  have hlogs := step_logs h.inv hs
  obtain ⟨hcarries, hrecovers⟩ := Sys.activated_step h.inv hs ha
  have hbuilds : op.builds = false := by
    obtain ⟨i, bytes, shallow, outcome, rfl⟩ := Sys.activated_op ha
    rfl
  cases hshallow : a.shallow with
  | false =>
    exact
      { base := hallow.full a ha hshallow
        cache := fun hf hcache => h.cache (hlogs.fenced hf) (hlogs.cache hbuilds hcache)
        carries := hlogs.carries _ h.carries hallow.brings
        inv := h.inv.step hs
        trimmed_le := hbase ▸ h.le_snapshot ha }
  | true =>
    obtain ⟨hpast, hsince⟩ := hallow.shallow a ha hshallow
    exact
      { base := by
          dsimp only [Traced.since]
          rw [if_pos hshallow]
          exact le_rfl
        cache := fun hf hcache => hsince (hrecovers hshallow hf hcache) (hlogs.fenced hf)
          (hlogs.cache hbuilds hcache)
        carries := hcarries _ hpast
        inv := h.inv.step hs
        trimmed_le := hbase.ge }

lemma Traced.Ok.step (h : t.Ok) (hallow : t.Allows op) (hs : t.step c op = some u) : u.Ok := by
  obtain ⟨⟨s, shown⟩, hr, rfl⟩ := Option.map_eq_some_iff.1 hs
  dsimp only
  cases (step_logs h.inv hr).log with
  | kept left hop hlog =>
    rw [hop]
    exact h.keep hallow hr _ (by rw [hlog]; rfl)
  | pushed batches vector left hop hlog =>
    rw [hop]
    exact h.keep hallow hr _ (by rw [hlog]; rfl)
  | rebased a hop hlog =>
    have hrebased := h.rebase hallow hr
      (match op with
        | .snapshot => t.taken ++ [t.cacheSince]
        | _ => t.taken) hop (by rw [hlog]; rfl)
    obtain ⟨i, bytes, shallow, outcome, rfl⟩ := Sys.activated_op hop
    rw [hop]
    cases hshallow : a.shallow <;>
      simpa [Option.filter, hshallow, Op.builds] using hrebased

lemma Traced.Run.ok {exports : List (Extent V)}
    (hrun : Traced.Run c Traced.Allows t exports u) (h : t.Ok) :
    u.Ok ∧ t.trimmed ≤ u.trimmed ∧ ∀ e ∈ exports, Past t.trimmed e := by
  induction hrun with
  | refl => exact ⟨h, le_rfl, by simp⟩
  | admitted _ ih => exact ih h.admitted
  | step op hallow hs _ ih =>
    obtain ⟨hok, hle, hpast⟩ := ih (h.step hallow hs)
    have hmono := h.trimmed_mono hs
    refine ⟨hok, hmono.trans hle, fun e he => ?_⟩
    rcases mem_append.1 he with he | he
    · exact h.exports hallow e he
    · exact (hpast e he).mono hmono

lemma Traced.Ok.first : (Traced.start P .empty ⊥ ⊥ : Traced P).Ok where
  base := le_rfl
  cache := fun _ => absurd rfl
  carries := ⟨by simp [Traced.start, Sys.start, Durable.empty],
    by simp [Traced.start, Sys.start, admitDocument], by simp [Traced.start, Sys.start], trivial⟩
  inv := .start .empty
  trimmed_le := bot_le

/-- Takes steps one after another. -/
def Traced.runOps (c : Config) (t : Traced P) : List (Op V) →
    Option (Traced P × List (Extent V))
  | [] => some (t, [])
  | op :: ops => (t.step c op).bind fun u =>
      (Traced.runOps c u ops).map fun r => (r.1, t.exports op ++ r.2)

lemma Traced.runOps_run (ops : List (Op V)) {exports : List (Extent V)}
    (h : t.runOps c ops = some (u, exports)) : Traced.Run c (fun _ _ => True) t exports u := by
  induction ops generalizing t exports with
  | nil =>
    obtain ⟨rfl, rfl⟩ := Prod.mk.inj (some.inj h)
    exact .refl t
  | cons op ops ih =>
    obtain ⟨s, hs, hrest⟩ := bind_eq_some_iff.1 h
    obtain ⟨⟨v, rest⟩, hv, hlast⟩ := map_eq_some_iff.1 hrest
    obtain ⟨rfl, rfl⟩ := Prod.mk.inj hlast
    exact .step op trivial hs (ih hv)

lemma Traced.Allows.inert (ha : t.sys.activated op = none)
    (hb : ∀ bytes ∈ op.brings, Past t.trimmed (P.extent bytes)) : t.Allows op where
  brings := hb
  shallow := by simp [ha]
  full := by simp [ha]

/-- A document is written, read and trimmed; the activation gets the outcome given. -/
def sampleTrim (outcome : Activation) : List (Op ℕ) :=
  [.ingest sampleOutside 7 "7" 1 [0, 1], .flush, .flushWritten, .flushRetired [], .build true,
    .snapshot, .activate 0 9 true outcome]

/-- One more update is written, and the document compacted. -/
def sampleCompacted : List (Op ℕ) :=
  [.ingest sampleOutside 7 "7" 2 [1, 2], .flush, .flushWritten, .flushRetired [], .snapshot,
    .activate 1 9 false (.replied true)]

def sampleTraced : Traced samplePlatform := .start samplePlatform .empty 0 0

/-- A document of one row. -/
def sampleRow : Durable ℕ (String × ℤ × List UInt8) (List UInt8) :=
  Durable.empty.push [⟨"7", 1, [0, 1]⟩] 1 []

/-- A document of one row that has been trimmed. -/
def sampleTrimmed : Traced samplePlatform :=
  (((Traced.start samplePlatform sampleRow 0 0).runOps sampleConfig
    [.build true, .snapshot, .activate 0 9 true (.replied true)]).get rfl).1

/-- Somebody joins. -/
def sampleJoin : List (Op ℕ) := [.joinRead 0, .joinRegister 9 ⟨.editor, "9"⟩, .joinReply]

lemma sampleActivate_allowed (t : Traced samplePlatform)
    (ht : t.sys.activated (.activate 0 9 true (.replied true)) = some ⟨0, ⟨1, 1⟩, 9, true⟩)
    (hrows : (t.sys.based ⟨1, 1⟩ 9).durable.rows = []) (hbuf : t.sys.inner.buffer = [])
    (hlost : t.sys.lost = []) (hgate : t.sys.gate = .idle) :
    t.Allows (.activate 0 9 true (.replied true)) where
  brings := by simp [Op.brings]
  shallow := by
    intro a ha _
    obtain rfl := some.inj (ht.symm.trans ha)
    refine ⟨⟨?_, ?_, ?_, ?_⟩, nofun⟩
    · simp [hrows]
    · simp [Sys.based, hbuf]
    · simp [Sys.based, hlost]
    · rw [Sys.based, hgate]
      trivial
  full := by
    intro a ha hshallow
    obtain rfl := some.inj (ht.symm.trans ha)
    cases hshallow

lemma sampleTrimmed_run :
    ∃ before, Traced.Run sampleConfig Traced.Allows sampleTraced before sampleTrimmed :=
  ⟨_, .step (.otherRow [⟨"7", 1, [0, 1]⟩])
      (.inert rfl fun _ _ v hv _ => le_trans hv (Nat.zero_le _)) rfl <|
    .admitted <|
    .step (.build true) (.inert rfl (by simp [Op.brings])) rfl <|
    .step .snapshot (.inert rfl (by simp [Op.brings])) rfl <|
    .step (.activate 0 9 true (.replied true))
      (sampleActivate_allowed _ rfl rfl rfl rfl rfl) rfl <| .refl _⟩

/-- In every run of allowed steps, a version that has been trimmed stays trimmed: nothing
from before it is in the base, in the cached document or in an update that is carried, and
no snapshot, join reply or base that is given out afterwards holds anything of it. -/
theorem trim_holds {before after : List (Extent V)}
    (h : Traced.Run c Traced.Allows (.start P .empty ⊥ ⊥) before t)
    (hrun : Traced.Run c Traced.Allows t after u) :
    u.Trimmed ∧ t.trimmed ≤ u.trimmed ∧ ∀ e ∈ after, Past t.trimmed e := by
  obtain ⟨hok, hle, hpast⟩ := hrun.ok (h.ok .first).1
  exact ⟨hok.toTrimmed, hle, hpast⟩

theorem trim_holds_join :
    ((sampleTrimmed.runOps sampleConfig sampleJoin).get rfl).1.Trimmed := by
  obtain ⟨before, hbefore⟩ := sampleTrimmed_run
  exact (trim_holds hbefore (.step (.joinRead 0) (.inert rfl (by simp [Op.brings])) rfl <|
    .step (.joinRegister 9 ⟨.editor, "9"⟩) (.inert rfl (by simp [Op.brings])) rfl <|
    .step .joinReply (.inert rfl (by simp [Op.brings])) rfl <| .refl _)).1

/-- The reply of a trim is lost; a later compaction writes the trimmed history into a new
base. -/
theorem trimmed_history_returns : ∃ t u : Traced samplePlatform, ∃ before after,
    Traced.Run sampleConfig (fun _ _ => True) (.start samplePlatform .empty ⊥ ⊥) before t ∧
    Traced.Run sampleConfig (fun _ _ => True) t after u ∧ t.trimmed = 1 ∧
    u.sys.inner.fenced = none ∧ u.baseSince = 0 ∧ ¬ ∀ e ∈ after, Past t.trimmed e := by
  refine ⟨((sampleTraced.runOps sampleConfig (sampleTrim (.failed true true))).get rfl).1, _, _, _,
    Traced.runOps_run (sampleTrim (.failed true true)) rfl,
    Traced.runOps_run sampleCompacted rfl, rfl, rfl, rfl, fun h => ?_⟩
  have hpast := h ⟨0, 2⟩ (by decide)
  exact absurd (hpast 1 le_rfl (by decide)) (by decide)

end Steps

end LibrePaper.Log
