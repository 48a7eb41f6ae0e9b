import LibrePaper.Agents.Calls

/-!
# What the steps of an operation keep

Each step keeps an effect single, a kept outcome with its effect and a lookup with its admission.
The steps that record a refusal, or that go on after one, ask for it not to come late.
-/
namespace LibrePaper.Agents
open Library List Function

section Outcomes
variable {rows rows' : List Outcome} {now : ℕ} {row : Outcome}

lemma recordOperationOutcome_eq (h : recordOperationOutcome rows now row = some rows') :
    rows' = rows.filter (now < ·.expiresAt) ++ [row] ∧ rows'.length ≤ recoveryCapacity ∧
      ∀ r ∈ rows, now < r.expiresAt → r.key ≠ row.key := by
  rw [recordOperationOutcome] at h
  split at h
  · cases h
  · next hroom =>
    split at h
    · cases h
    · next hfree =>
      cases h
      refine ⟨rfl, ?_, fun r hr hlive heq => hfree ?_⟩
      · rw [length_append, length_singleton]
        exact Nat.lt_of_not_le hroom
      · exact any_eq_true.2
          ⟨r, mem_filter.2 ⟨hr, decide_eq_true hlive⟩, decide_eq_true heq⟩

lemma mem_recordOperationOutcome (h : recordOperationOutcome rows now row = some rows')
    {r : Outcome} (hr : r ∈ rows') : r ∈ rows ∨ r = row := by
  rw [(recordOperationOutcome_eq h).1] at hr
  rcases mem_append.1 hr with hr | hr
  · exact .inl (mem_filter.1 hr).1
  · exact .inr (mem_singleton.1 hr)

end Outcomes

namespace System
variable {s s' : System} {c l : ℕ} {x y : Call} {k : OperationKey}

/-- The kept outcome of a key says what became of its effect. -/
def Tells (s : System) (key : OperationKey) : Status → Prop
  | .committed => key ∈ s.effects
  | .refused => key ∈ s.refusals

lemma Tells.mono {key : OperationKey} {status : Status} (h : s.Tells key status)
    (heffects : key ∈ s.effects → key ∈ s'.effects)
    (hrefusals : key ∈ s.refusals → key ∈ s'.refusals) : s'.Tells key status := by
  cases status with
  | committed => exact heffects h
  | refused => exact hrefusals h

structure Inv (s : System) : Prop where
  fits : ∀ c x, s.calls c = some x → s.Fits x
  alone : s.Alone
  candidates : ∀ k d candidate, s.candidates k d = some candidate →
    candidate.operation = k ∧ candidate.digest = d ∧
    (∃ a, s.admissions k = some a ∧ a.digest = d ∧ a.tool = .propose ∧
      a.context.publish = candidate.publish) ∧
    (candidate.publish = .privateOnly → k ∈ s.effects) ∧
    (candidate.publish = .suggestions → k ∈ s.effects → k ∈ s.labels)
  nodup : s.effects.Nodup
  evidence : ∀ k ∈ s.effects, (∃ a, s.admissions k = some a) ∧
    ((∃ row ∈ s.outcomes, row.key = k) ∨ k.expiry ≤ s.now ∨
      ∃ d candidate, s.candidates k d = some candidate ∧ candidate.publish = .privateOnly)
  refusals : ∀ k ∈ s.refusals, k ∉ s.effects ∧ ∃ a, s.admissions k = some a
  outcomes : ∀ row ∈ s.outcomes, (∃ a, s.admissions row.key = some a ∧ a.digest = row.digest ∧
    a.tool = row.tool) ∧ row.key.expiry ≤ row.expiresAt ∧ s.Tells row.key row.status
  bounded : s.outcomes.length ≤ recoveryCapacity
  lookups : ∀ l x, s.lookups l = some x → s.admissions x.key = some x.admission ∧
    (x.phase ≠ .ended → ∀ d, x.expected = some d → x.admission.digest = d) ∧
    (x.phase = .candidate → x.admission.context.publish = .privateOnly)
  answers : ∀ answer ∈ s.answers, ((∃ a, s.admissions answer.key = some a ∧
    a.digest = answer.digest ∧ a.tool = answer.tool) ∧
    ∀ d, answer.expected = some d → answer.digest = d) ∧ s.Tells answer.key answer.status

lemma inv_fresh (now : ℕ) : (fresh now).Inv := by
  refine ⟨fun _ _ hno => (by cases hno), ⟨fun _ _ _ _ hno => (by cases hno),
    fun _ _ _ _ hno => (by cases hno)⟩, fun _ _ _ hno => (by cases hno), nodup_nil,
    fun _ hno => absurd hno not_mem_nil, fun _ hno => absurd hno not_mem_nil,
    fun _ hno => absurd hno not_mem_nil, Nat.zero_le _, fun _ _ hno => (by cases hno),
    fun _ hno => absurd hno not_mem_nil⟩

/-- Only calls change. -/
lemma Inv.setCall (h : s.Inv) (hfits : s.Fits y) (halone : (s.setCall c y).Alone) :
    (s.setCall c y).Inv := by
  refine ⟨fun d z hz => ?_, halone, h.candidates, h.nodup, h.evidence, h.refusals, h.outcomes,
    h.bounded, h.lookups, h.answers⟩
  have hfits' : s.Fits z := by
    rw [calls_setCall] at hz
    split at hz
    · cases hz
      exact hfits
    · exact h.fits d z hz
  exact ⟨hfits'.admission, hfits'.publish, hfits'.finishing, hfits'.retain, hfits'.done,
    hfits'.first, hfits'.allowed, hfits'.unclaimed⟩

lemma Inv.move (h : s.Inv) (hx : s.calls c = some x) (hkey : y.request.key = x.request.key)
    (hruns : y.Runs → x.Runs) (hrefuses : y.Refuses → x.Refuses) (hfits : s.Fits y) :
    (s.setCall c y).Inv :=
  h.setCall hfits (h.alone.setCall hx hkey hruns hrefuses)

variable {request : Request} {phase : Phase} {replied : Bool} {d : ℕ}

/-- A call is over, or fails. -/
lemma Inv.rest (h : s.Inv) {finishing : Bool} {phase' : Phase}
    (hx : s.calls c = some ⟨request, finishing, phase⟩)
    (hidle : (Call.mk request finishing phase').Idle) :
    (s.setCall c ⟨request, finishing, phase'⟩).Inv := by
  have hnot : ¬(Call.mk request finishing phase').Runs ∧
      ¬(Call.mk request finishing phase').Refuses := by
    constructor <;> cases phase' <;> first
      | exact hidle.elim
      | exact fun hno => hno.2.elim
      | exact fun hno => hno.elim
  refine h.move hx rfl (fun hno => absurd hno hnot.1) (fun hno => absurd hno hnot.2)
    (.idle ?_ hidle)
  exact fun hf => ⟨((h.fits c _ hx).finishing hf).1, ((h.fits c _ hx).finishing hf).2.1⟩

lemma Inv.begins (h : s.Inv) (hx : s.calls c = some x)
    (hphase : x.phase = .arrived ∨ x.phase = .checked) : x.finishing = false := by
  refine Bool.eq_false_iff.2 fun hf => ?_
  obtain ⟨-, -, harrived, hchecked, -⟩ := (h.fits c x hx).finishing hf
  exact hphase.elim harrived hchecked

lemma Inv.call (h : s.Inv) (hs : s.call c request = some s') : s'.Inv := by
  rw [System.call] at hs
  split at hs <;> cases hs
  exact h.setCall (.idle nofun rfl)
    (h.alone.join (fun hno => hno.2.elim) (fun hno => hno.elim) fun hno => hno.elim)

lemma Inv.deny (h : s.Inv) (hs : s.deny c = some s') : s'.Inv := by
  rw [System.deny] at hs
  split at hs
  · next hx =>
    cases hs
    exact h.rest hx trivial
  · cases hs

lemma Inv.mcpRefuseIfAdmitted (h : s.Inv) (hs : s.mcpRefuseIfAdmitted c = some s') :
    s'.Inv := by
  rw [System.mcpRefuseIfAdmitted] at hs
  split at hs
  · next hx =>
    cases hs
    have hbegins := h.begins hx (.inl rfl)
    refine h.rest hx ?_
    split
    · exact hbegins
    · trivial
  · cases hs

/-- Nothing is stored under a key that was not admitted. -/
lemma Inv.unadmitted (h : s.Inv) (hnone : s.admissions k = none) : k ∉ s.effects ∧
    k ∉ s.refusals ∧ (∀ d, s.candidates k d = none) ∧
    ∀ c x, s.calls c = some x → x.request.key = k → ¬x.Claims := by
  refine ⟨fun hk => ?_, fun hk => ?_, fun d => ?_, fun c x hx hkey hclaims => ?_⟩
  · obtain ⟨⟨a, ha⟩, -⟩ := h.evidence k hk
    cases hnone.symm.trans ha
  · obtain ⟨-, a, ha⟩ := h.refusals k hk
    cases hnone.symm.trans ha
  · cases hcandidate : s.candidates k d with
    | none => rfl
    | some candidate =>
      obtain ⟨-, -, ⟨a, ha, -⟩, -⟩ := h.candidates k d candidate hcandidate
      cases hnone.symm.trans ha
  · obtain ⟨a, ha, -⟩ := (h.fits c x hx).admission hclaims
    cases hnone.symm.trans (hkey ▸ ha)

/-- An admission is stored under a key that has none. -/
lemma Inv.admissions (h : s.Inv) (hnone : s.admissions k = none) (a : Admission) :
    Inv { s with admissions := update s.admissions k (some a) } := by
  have hgrow : ∀ j b, s.admissions j = some b →
      update s.admissions k (some a) j = some b := by
    intro j b hb
    rw [update_of_ne]
    · exact hb
    · rintro rfl
      cases hnone.symm.trans hb
  refine ⟨fun c x hx => ?_, ⟨h.alone.once, h.alone.apart⟩,
    fun j d candidate hcandidate => ?_, h.nodup, fun j hj => ?_,
    fun j hj => ?_, fun row hrow => ?_, h.bounded, fun l x hx => ?_, fun answer hanswer => ?_⟩
  · have hfits := h.fits c x hx
    exact hfits.frame (hgrow _) rfl hfits.done hfits.allowed (Nat.le_refl _)
  · obtain ⟨hkey, hdigest, ⟨b, hb, hrest⟩, heffect⟩ := h.candidates j d candidate hcandidate
    exact ⟨hkey, hdigest, ⟨b, hgrow j b hb, hrest⟩, heffect⟩
  · obtain ⟨⟨b, hb⟩, hevidence⟩ := h.evidence j hj
    exact ⟨⟨b, hgrow j b hb⟩, hevidence⟩
  · obtain ⟨heffect, b, hb⟩ := h.refusals j hj
    exact ⟨heffect, b, hgrow j b hb⟩
  · obtain ⟨⟨b, hb, hrest⟩, hexpiry, htells⟩ := h.outcomes row hrow
    exact ⟨⟨b, hgrow _ b hb, hrest⟩, hexpiry, htells.mono id id⟩
  · exact ⟨hgrow _ _ (h.lookups l x hx).1, (h.lookups l x hx).2⟩
  · obtain ⟨⟨⟨b, hb, hrest⟩, hexpected⟩, htells⟩ := h.answers answer hanswer
    exact ⟨⟨⟨b, hgrow _ b hb, hrest⟩, hexpected⟩, htells.mono id id⟩

lemma Inv.mcpAdmit (h : s.Inv) (hs : s.mcpAdmit c replied = some s') : s'.Inv := by
  rw [System.mcpAdmit] at hs
  split at hs
  · next request finishing hx =>
    split at hs
    · next hfree =>
      cases hs
      have hadmitted := h.admissions hfree.2 ⟨request.digest, request.tool, request.context⟩
      obtain ⟨heffects, hrefusals, hcandidates, hcalls⟩ := h.unadmitted hfree.2
      have hbegins : finishing = false := h.begins hx (.inr rfl)
      subst hbegins
      cases replied with
      | false => exact hadmitted.rest hx trivial
      | true =>
        refine hadmitted.setCall ⟨fun _ => ⟨_, update_self .., rfl, rfl⟩,
          fun _ a ha => ?_, fun hf => (by cases hf), fun r hr => ?_,
          fun hk => absurd hk heffects, fun _ => hcandidates, fun _ => hrefusals,
          fun hno => hno.elim⟩ (hadmitted.alone.join (fun _ d z _ hz hkey => ?_)
            (fun hno => hno.elim) fun hno => hno.elim)
        · have ha := (update_self ..).symm.trans ha
          cases ha
          rfl
        · rcases hr with hr | hr <;> cases hr
        · exact ⟨fun hruns => hcalls d z hz hkey hruns.claims,
            fun hrefuses => hcalls d z hz hkey (.inr (.inr hrefuses))⟩
    · cases hs
      exact h.rest hx trivial
  · cases hs

lemma Inv.others (h : s.Inv) (hx : s.calls c = some x) (hruns : x.Runs) (hd : d ≠ c)
    (hy : s.calls d = some y) (hkey : y.request.key = x.request.key) : ¬y.Runs ∧ ¬y.Refuses :=
  ⟨fun hno => hd (h.alone.once d c y x hy hx hno hruns hkey),
    fun hno => h.alone.apart d c y x hy hx hno hruns hkey⟩

lemma candidates_update (s : System) (key k : OperationKey) (digest d : ℕ)
    (candidate : Option Candidate) :
    update s.candidates key (update (s.candidates key) digest candidate) k d =
      if k = key ∧ d = digest then candidate else s.candidates k d := by
  rw [update_apply]
  split
  · next hk =>
    subst hk
    rw [update_apply]
    split
    · next hd => rw [if_pos ⟨rfl, hd⟩]
    · next hd => rw [if_neg fun hno => hd hno.2]
  · next hk => rw [if_neg fun hno => hk hno.1]

/-- An admitted proposal is stored. -/
lemma Inv.stage (h : s.Inv) (hs : s.stage c = some s') : s'.Inv := by
  rw [System.stage] at hs
  split at hs
  · next request finishing hx =>
    split at hs
    · next htool =>
      split at hs
      · cases hs
        have hfits := h.fits c _ hx
        have hf : finishing = false := Bool.eq_false_iff.2 fun hf =>
          (hfits.finishing hf).2.2.2.2 rfl
        subst hf
        have hruns : (Call.mk request false .admitted).Runs := ⟨rfl, trivial⟩
        have hnone : ∀ d, s.candidates request.key d = none := hfits.first rfl
        have hfresh : request.key ∉ s.effects := fun hk => (hfits.done hk trivial).1 rfl
        obtain ⟨a, ha, hdigest, hatool⟩ := hfits.admission hruns.claims
        have hcontext := hfits.publish hruns a ha
        have hmem : ∀ k, k ∈ (if request.context.publish = .privateOnly then
            request.key :: s.effects else s.effects) →
            k ∈ s.effects ∨ request.context.publish = .privateOnly ∧ k = request.key := by
          intro k hk
          split at hk
          · next hprivate =>
            rcases mem_cons.1 hk with hk | hk
            · exact .inr ⟨hprivate, hk⟩
            · exact .inl hk
          · exact .inl hk
        have hgrow : ∀ k ∈ s.effects, k ∈ (if request.context.publish = .privateOnly then
            request.key :: s.effects else s.effects) := by
          intro k hk
          split
          · exact mem_cons_of_mem _ hk
          · exact hk
        have hkept : ∀ k d candidate, s.candidates k d = some candidate →
            ¬(k = request.key ∧ d = request.digest) := by
          rintro k d candidate hcandidate ⟨rfl, -⟩
          cases (hnone d).symm.trans hcandidate
        have halone := h.alone.setCall (y := ⟨request, false, .staged⟩) hx rfl
          (fun _ => hruns) fun hno => hno.elim
        refine ⟨fun d z hz => ?_, ⟨halone.once, halone.apart⟩, fun k d candidate hk => ?_, ?_,
          fun k hk => ?_, fun k hk => ?_, fun row hrow => ?_, h.bounded, h.lookups,
          fun answer hanswer => ?_⟩
        · have hz := (calls_setCall d).symm.trans hz
          split at hz
          · cases hz
            refine ⟨fun _ => ⟨a, ha, hdigest, hatool⟩, fun _ => hfits.publish hruns,
              fun hno => (by cases hno), fun r hr => ?_, fun hk hpending => ?_,
              fun hno => (by cases hno), fun _ => hfits.allowed hruns, fun hno => hno.elim⟩
            · rcases hr with hr | hr <;> cases hr
            · rcases hmem _ hk with hk | ⟨hprivate, -⟩
              · exact absurd hk hfresh
              · cases hprivate.symm.trans hpending
          · next hd =>
            by_cases hkey : z.request.key = request.key
            · obtain ⟨hzruns, hzrefuses⟩ := h.others hx hruns hd hz hkey
              have hzf : z.finishing = false := by
                refine Bool.eq_false_iff.2 fun hf => ?_
                have hsome := ((h.fits d z hz).finishing hf).2.1
                rw [hkey, hnone] at hsome
                cases hsome
              exact .idle (fun hf => by cases hzf.symm.trans hf)
                (Call.idle_of_not hzruns hzrefuses hzf)
            · have hzfits := h.fits d z hz
              refine hzfits.frame (fun _ => id) (update_of_ne hkey ..) (fun hk => ?_)
                hzfits.allowed (Nat.le_refl _)
              exact (hmem _ hk).elim hzfits.done fun hno => absurd hno.2 hkey
        · have hk := (candidates_update ..).symm.trans hk
          split at hk
          · next heq =>
            cases hk
            obtain ⟨rfl, rfl⟩ := heq
            refine ⟨rfl, rfl, ⟨a, ha, hdigest, hatool.trans htool, ?_⟩, fun hprivate => ?_,
              fun hsuggestions hk => ?_⟩
            · rw [hcontext]
            · exact (if_pos hprivate).symm ▸ mem_cons_self
            · rcases hmem _ hk with hk | ⟨hprivate, -⟩
              · exact absurd hk hfresh
              · cases hprivate.symm.trans hsuggestions
          · next hother =>
            obtain ⟨hoperation, hd, hadmission, heffect, hlabel⟩ := h.candidates k d candidate hk
            refine ⟨hoperation, hd, hadmission, fun hprivate => hgrow k (heffect hprivate),
              fun hsuggestions hk' => ?_⟩
            rcases hmem _ hk' with hk' | ⟨-, rfl⟩
            · exact hlabel hsuggestions hk'
            · cases (hnone d).symm.trans hk
        · change Nodup (if request.context.publish = .privateOnly then
            request.key :: s.effects else s.effects)
          split
          · exact nodup_cons.2 ⟨hfresh, h.nodup⟩
          · exact h.nodup
        · rcases hmem k hk with hk | ⟨hprivate, rfl⟩
          · obtain ⟨hadmission, hevidence⟩ := h.evidence k hk
            refine ⟨hadmission, hevidence.imp_right (Or.imp_right ?_)⟩
            rintro ⟨d, candidate, hcandidate, hprivate⟩
            exact ⟨d, candidate, (candidates_update ..).trans
              ((if_neg (hkept k d candidate hcandidate)).trans hcandidate), hprivate⟩
          · exact ⟨⟨a, ha⟩, .inr (.inr ⟨request.digest, _,
              (candidates_update ..).trans (if_pos ⟨rfl, rfl⟩), hprivate⟩)⟩
        · obtain ⟨heffect, hadmission⟩ := h.refusals k hk
          refine ⟨fun hno => ?_, hadmission⟩
          rcases hmem k hno with hno | ⟨-, rfl⟩
          · exact heffect hno
          · exact hfits.allowed hruns hk
        · obtain ⟨hadmission, hexpiry, htells⟩ := h.outcomes row hrow
          exact ⟨hadmission, hexpiry, htells.mono (hgrow _) id⟩
        · obtain ⟨hadmission, htells⟩ := h.answers answer hanswer
          exact ⟨hadmission, htells.mono (hgrow _) id⟩
      · cases hs
        exact h.rest hx trivial
    · cases hs
  · cases hs

lemma mcpOperationReceipt_retain (s : System)
    (hphase : phase = .transacting (k.expiry - s.now) ∨ phase = .recording (k.expiry - s.now)) :
    ∀ r, phase = .transacting r ∨ phase = .recording r → k.expiry ≤ s.now + r := by
  have hretain : k.expiry ≤ s.now + (k.expiry - s.now) := by omega
  rintro r (rfl | rfl) <;> rcases hphase with hphase | hphase <;> cases hphase <;> exact hretain

lemma Inv.mcpOperationReceipt (h : s.Inv) (hs : s.mcpOperationReceipt c = some s') :
    s'.Inv := by
  rw [System.mcpOperationReceipt] at hs
  split at hs
  · next request finishing hx =>
    split at hs <;> cases hs
    have hfits := h.fits c _ hx
    exact h.move hx rfl (fun hy => ⟨hy.1, trivial⟩) (fun hno => hno.elim)
      (hfits.advance (hfits.admission (.inr (.inl trivial))) (fun hy => ⟨hy.1, trivial⟩)
        (fun _ => trivial) (fun hno => hno.elim) (mcpOperationReceipt_retain s (.inl rfl))
        ⟨fun hno => (by cases hno), fun hno => (by cases hno), nofun⟩)
  · next request finishing hx =>
    split at hs
    · next hsuggestions =>
      cases hs
      have hfits := h.fits c _ hx
      exact h.move hx rfl (fun hy => ⟨hy.1, trivial⟩) (fun hno => hno.elim)
        (hfits.advance (hfits.admission (.inl rfl)) (fun hy => ⟨hy.1, trivial⟩)
          (fun _ => hsuggestions) (fun hno => hno.elim) (mcpOperationReceipt_retain s (.inl rfl))
          ⟨fun hno => (by cases hno), fun hno => (by cases hno), nofun⟩)
    · cases hs
  · next request finishing hx =>
    cases hs
    have hfits := h.fits c _ hx
    exact h.move hx rfl (fun hno => hno.2.elim) (fun _ => trivial)
      (hfits.advance (hfits.admission (.inr (.inr trivial))) (fun hno => hno.2.elim)
        (fun hno => hno.elim) (fun _ => hfits.unclaimed trivial)
        (mcpOperationReceipt_retain s (.inr rfl))
        ⟨fun hno => (by cases hno), fun hno => (by cases hno), nofun⟩)
  · cases hs

lemma Inv.refuse (h : s.Inv) (hs : s.refuse c = some s') : s'.Inv := by
  rw [System.refuse] at hs
  split at hs
  · next hx =>
    cases hs
    exact h.rest hx trivial
  · next hx =>
    cases hs
    exact h.rest hx trivial
  · next hx =>
    cases hs
    exact h.rest hx trivial
  · cases hs

lemma labelled_of_propose (h : request.tool = .propose) : request.labelled = true := by
  rw [Request.labelled, h]

lemma labels_insertLabel (request : Request) (hk : k ∈ s.labels) : k ∈ s.insertLabel request := by
  rw [insertLabel]
  split
  · exact mem_cons_of_mem _ hk
  · exact hk

lemma mem_insertLabel (h : request.tool = .propose) : request.key ∈ s.insertLabel request := by
  rw [insertLabel, if_pos (labelled_of_propose h)]
  exact mem_cons_self

/-- The rows of a key outlast its epoch. -/
lemma Inv.evidence_record (h : s.Inv) {row : Outcome} {outcomes : List Outcome}
    (hrecord : recordOperationOutcome s.outcomes s.now row = some outcomes)
    (hk : (∃ r ∈ s.outcomes, r.key = k) ∨ k.expiry ≤ s.now ∨
      ∃ d candidate, s.candidates k d = some candidate ∧ candidate.publish = .privateOnly) :
    (∃ r ∈ outcomes, r.key = k) ∨ k.expiry ≤ s.now ∨
      ∃ d candidate, s.candidates k d = some candidate ∧ candidate.publish = .privateOnly := by
  rcases hk with ⟨r, hr, rfl⟩ | hk
  · by_cases hlive : s.now < r.expiresAt
    · refine .inl ⟨r, ?_, rfl⟩
      rw [(recordOperationOutcome_eq hrecord).1]
      exact mem_append_left _ (mem_filter.2 ⟨hr, decide_eq_true hlive⟩)
    · exact .inr (.inl (Nat.le_trans (h.outcomes r hr).2.1 (Nat.le_of_not_lt hlive)))
  · exact .inr hk

/-- The effect of a transaction, its retry record and its outcome. -/
lemma Inv.commit (h : s.Inv)
    (hlate : ∀ x, s.calls c = some x → x.finishing = true → x.request.key ∈ s.refusals →
      ∃ row ∈ s.outcomes, row.key = x.request.key ∧ s.now < row.expiresAt)
    (hs : s.commit c replied = some s') : s'.Inv := by
  rw [System.commit] at hs
  split at hs
  · next request finishing retain hx =>
    split at hs
    · cases hs
      exact h.rest hx trivial
    · next hreplay =>
      split at hs
      · cases hs
        exact h.rest hx trivial
      · next outcomes hrecord =>
        cases hs
        have hfits := h.fits c _ hx
        have hpending : (Call.mk request finishing (.transacting retain)).Pending := trivial
        have hfresh : request.key ∉ s.effects := fun hk => hreplay (hfits.done hk hpending).2
        obtain ⟨a, ha, hdigest, hatool⟩ := hfits.admission (.inr (.inl hpending))
        obtain ⟨hrows, hbounded, hkeys⟩ := recordOperationOutcome_eq hrecord
        have hallowed : request.key ∉ s.refusals := by
          cases finishing with
          | false => exact hfits.allowed (hpending.runs rfl)
          | true =>
            intro hk
            obtain ⟨row, hrow, hkey, hlive⟩ := hlate _ hx rfl hk
            exact hkeys row hrow hlive hkey
        have hidle : (Call.mk request finishing (request.replyPhase replied)).Idle := by
          rw [Request.replyPhase]
          split <;> trivial
        have hrest := h.rest hx hidle
        refine ⟨fun d z hz => ?_, ⟨hrest.alone.once, hrest.alone.apart⟩,
          fun k d candidate hk => ?_, nodup_cons.2 ⟨hfresh, h.nodup⟩, fun k hk => ?_,
          fun k hk => ?_, fun row hrow => ?_, hbounded, h.lookups, fun answer hanswer => ?_⟩
        · have hzrest := hrest.fits d z hz
          refine hzrest.frame (fun _ => id) rfl (fun hk hzpending => ?_) hzrest.allowed
            (Nat.le_refl _)
          rcases mem_cons.1 hk with heq | hold
          · have hzcall := (calls_setCall d).symm.trans hz
            split at hzcall
            · cases hzcall
              rw [Request.replyPhase] at hzpending
              split at hzpending <;> exact hzpending.elim
            · next hd =>
              have hzfits := h.fits d z hzcall
              obtain ⟨b, hb, -, hbtool⟩ := hzfits.admission (.inr (.inl hzpending))
              rw [heq] at hb
              cases hb.symm.trans ha
              have htools : request.tool = .propose ∧ z.phase ≠ .admitted := by
                cases hzf : z.finishing with
                | true =>
                  obtain ⟨hztool, -, -, -, hphase⟩ := hzfits.finishing hzf
                  exact ⟨hatool.symm.trans (hbtool.trans hztool), hphase⟩
                | false =>
                  cases finishing with
                  | true =>
                    obtain ⟨htool, hcandidate, -⟩ := hfits.finishing rfl
                    refine ⟨htool, fun hphase => ?_⟩
                    have hnone := hzfits.first hphase request.digest
                    rw [heq] at hnone
                    exact absurd hcandidate (by rw [hnone]; exact Bool.false_ne_true)
                  | false =>
                    exact absurd (h.alone.once d c z _ hzcall hx (hzpending.runs hzf)
                      (hpending.runs rfl) heq) hd
              have hztool : z.request.tool = .propose := hbtool.symm.trans (hatool.trans htools.1)
              refine ⟨htools.2, labelled_of_propose hztool, ?_⟩
              rw [heq]
              exact mem_insertLabel htools.1
          · obtain ⟨hphase, hzlabelled, hlabel⟩ := hzrest.done hold hzpending
            exact ⟨hphase, hzlabelled, labels_insertLabel _ hlabel⟩
        · obtain ⟨hoperation, hd, hadmission, heffect, hlabel⟩ := h.candidates k d candidate hk
          refine ⟨hoperation, hd, hadmission, fun hprivate => mem_cons_of_mem _
            (heffect hprivate), fun hsuggestions hk' => ?_⟩
          rcases mem_cons.1 hk' with rfl | hk'
          · obtain ⟨b, hb, -, hbtool, -⟩ := hadmission
            cases hb.symm.trans ha
            exact mem_insertLabel (hatool.symm.trans hbtool)
          · exact labels_insertLabel _ (hlabel hsuggestions hk')
        · rcases mem_cons.1 hk with rfl | hk
          · refine ⟨⟨a, ha⟩, .inl ⟨request.outcome .committed (s.now + retain), ?_, rfl⟩⟩
            rw [hrows]
            exact mem_append_right _ (mem_singleton_self _)
          · obtain ⟨hadmission, hevidence⟩ := h.evidence k hk
            exact ⟨hadmission, h.evidence_record hrecord hevidence⟩
        · obtain ⟨heffect, hadmission⟩ := h.refusals k hk
          refine ⟨fun hno => ?_, hadmission⟩
          rcases mem_cons.1 hno with rfl | hno
          · exact hallowed hk
          · exact heffect hno
        · rcases mem_recordOperationOutcome hrecord hrow with hrow | rfl
          · obtain ⟨hadmission, hexpiry, htells⟩ := h.outcomes row hrow
            exact ⟨hadmission, hexpiry, htells.mono (mem_cons_of_mem _) id⟩
          · exact ⟨⟨a, ha, hdigest, hatool⟩, hfits.retain retain (.inl rfl), mem_cons_self⟩
        · obtain ⟨hadmission, htells⟩ := h.answers answer hanswer
          exact ⟨hadmission, htells.mono (mem_cons_of_mem _) id⟩
  · cases hs

/-- A refusal owns the admission of a request that nobody runs. -/
lemma Inv.loadAdmission (h : s.Inv)
    (hfree : ∀ x, s.calls c = some x → ∀ d y, s.calls d = some y →
      y.request.key = x.request.key → ¬y.Runs)
    (hs : s.loadAdmission c = some s') : s'.Inv := by
  rw [System.loadAdmission] at hs
  split at hs
  · next request hx =>
    cases hs
    by_cases howned : (s.loadedAdmission request.key).any (fun a =>
        a.tool = request.tool ∧ a.digest = request.digest) = true
    · rw [if_pos howned]
      obtain ⟨a, hloaded, hmatch⟩ := (Option.any_eq_true ..).1 howned
      have ha : s.admissions request.key = some a := by
        rw [loadedAdmission] at hloaded
        split at hloaded
        · exact hloaded
        · cases hloaded
      obtain ⟨htool, hdigest⟩ := of_decide_eq_true hmatch
      refine h.setCall ((h.fits c _ hx).advance ⟨a, ha, hdigest, htool⟩ (fun hno => hno.2.elim)
        (fun hno => hno.elim) (fun hno => hno.elim) (fun r hr => ?_)
        ⟨fun hno => (by cases hno), fun hno => (by cases hno), nofun⟩)
        (h.alone.join (fun hno => hno.2.elim) (fun _ d z _ hz => hfree _ hx d z hz)
          fun _ hno => hno.2.elim)
      rcases hr with hr | hr <;> cases hr
    · rw [if_neg howned]
      exact h.rest hx trivial
  · cases hs

lemma Inv.loadCandidate (h : s.Inv) {readable : Bool}
    (hseen : ∀ x candidate, s.calls c = some x →
      s.candidates x.request.key x.request.digest = some candidate →
      candidate.publish = .privateOnly → readable = true ∧ s.now < candidate.expiresAt)
    (hs : s.loadCandidate c readable = some s') : s'.Inv := by
  rw [System.loadCandidate] at hs
  split at hs
  · next request finishing hx =>
    split at hs
    · cases hs
      exact h.rest hx trivial
    · next hnot =>
      cases hs
      have hfits := h.fits c _ hx
      obtain ⟨a, ha, hdigest, htool⟩ := hfits.admission (.inr (.inr trivial))
      refine h.move hx rfl (fun hno => hno.2.elim) (fun _ => trivial)
        (hfits.advance ⟨a, ha, hdigest, htool⟩ (fun hno => hno.2.elim) (fun hno => hno.elim)
          (fun _ d candidate hcandidate => ?_) (fun r hr => ?_)
          ⟨fun hno => (by cases hno), fun hno => (by cases hno), nofun⟩)
      · obtain ⟨-, -, ⟨b, hb, hbdigest, hbtool, -⟩, -⟩ := h.candidates _ d candidate hcandidate
        cases hb.symm.trans ha
        have hd : d = request.digest := hbdigest.symm.trans hdigest
        subst hd
        cases hpublish : candidate.publish with
        | suggestions => rfl
        | privateOnly =>
          obtain ⟨hreadable, hlive⟩ := hseen _ candidate hx hcandidate hpublish
          refine absurd ⟨htool.symm.trans hbtool, hreadable, ?_⟩ hnot
          rw [hasPrivateCandidate, loadedCandidate, hcandidate, Option.filter_some,
            if_pos (decide_eq_true hlive)]
          exact decide_eq_true hpublish
      · rcases hr with hr | hr <;> cases hr
  · cases hs

/-- A refusal is stored where the key has no outcome and its epoch has not expired. -/
lemma Inv.storeOperationRefusal (h : s.Inv)
    (hearly : ∀ x, s.calls c = some x → s.now < x.request.key.expiry)
    (hs : s.storeOperationRefusal c = some s') : s'.Inv := by
  rw [System.storeOperationRefusal] at hs
  split at hs
  · next request finishing retain hx =>
    split at hs
    · cases hs
      exact h.rest hx trivial
    · next hnone =>
      split at hs
      · cases hs
        exact h.rest hx trivial
      · next outcomes hrecord =>
        cases hs
        have hfits := h.fits c _ hx
        have hrefuses : (Call.mk request finishing (.recording retain)).Refuses := trivial
        have hrest : (s.setCall c ⟨request, finishing, .ended⟩).Inv := h.rest hx trivial
        obtain ⟨a, ha, hdigest, htool⟩ := hfits.admission (.inr (.inr trivial))
        obtain ⟨hrows, hbounded, -⟩ := recordOperationOutcome_eq hrecord
        have hfresh : request.key ∉ s.effects := by
          intro hk
          obtain ⟨-, ⟨row, hrow, hkey⟩ | hlate | ⟨d, candidate, hcandidate, hprivate⟩⟩ :=
            h.evidence _ hk
          · exact hnone (any_eq_true.2 ⟨row, hrow, decide_eq_true hkey⟩)
          · exact absurd (hearly _ hx) (Nat.not_lt_of_le hlate)
          · cases hprivate.symm.trans (hfits.unclaimed trivial d candidate hcandidate)
        refine ⟨fun d z hz => ?_, ⟨hrest.alone.once, hrest.alone.apart⟩, h.candidates, h.nodup,
          fun k hk => ⟨(h.evidence k hk).1, h.evidence_record hrecord (h.evidence k hk).2⟩,
          fun k hk => ?_, fun row hrow => ?_, hbounded, h.lookups, fun answer hanswer => ?_⟩
        · have hzrest := hrest.fits d z hz
          refine hzrest.frame (fun _ => id) rfl hzrest.done (fun hruns hk => ?_) (Nat.le_refl _)
          rcases mem_cons.1 hk with hk | hk
          · have hzcall := (calls_setCall d).symm.trans hz
            split at hzcall
            · cases hzcall
              exact hruns.2.elim
            · exact h.alone.apart c d _ z hx hzcall hrefuses hruns hk.symm
          · exact hzrest.allowed hruns hk
        · rcases mem_cons.1 hk with rfl | hk
          · exact ⟨hfresh, a, ha⟩
          · exact h.refusals k hk
        · rcases mem_recordOperationOutcome hrecord hrow with hrow | rfl
          · obtain ⟨hadmission, hexpiry, htells⟩ := h.outcomes row hrow
            exact ⟨hadmission, hexpiry, htells.mono id (mem_cons_of_mem _)⟩
          · exact ⟨⟨a, ha, hdigest, htool⟩, hfits.retain retain (.inr rfl), mem_cons_self⟩
        · obtain ⟨hadmission, htells⟩ := h.answers answer hanswer
          exact ⟨hadmission, htells.mono id (mem_cons_of_mem _)⟩
  · cases hs

lemma loadedCandidate_eq {candidate : Candidate} (h : s.loadedCandidate k d = some candidate) :
    s.candidates k d = some candidate :=
  (Option.filter_eq_some_iff.1 h).1

/-- The finishing of a candidate goes on from what was stored. -/
lemma Inv.finish (h : s.Inv) (hs : s.finish c k d = some s') : s'.Inv := by
  rw [System.finish] at hs
  split at hs
  · next candidate hx hloaded =>
    cases hs
    have hcandidate := loadedCandidate_eq hloaded
    obtain ⟨hoperation, hdigest, ⟨a, ha, hadigest, hatool, hpublish⟩, -, hlabel⟩ :=
      h.candidates k d candidate hcandidate
    subst hoperation
    subst hdigest
    refine h.setCall ⟨fun _ => ⟨a, ha, hadigest, hatool⟩, fun hno => (by cases hno.1),
      fun _ => ⟨rfl, by rw [hcandidate]; rfl, fun hno => (by cases hno), fun hno => (by cases hno),
        fun hno => by cases hno⟩, fun r hr => ?_, fun hk hpending => ⟨fun hno => (by cases hno),
        rfl, hlabel hpending hk⟩, fun hno => (by cases hno), fun hno => (by cases hno.1),
      fun hno => hno.elim⟩ (h.alone.join (fun hno => by cases hno.1) (fun hno => hno.elim)
        fun hno => hno.elim)
    rcases hr with hr | hr <;> cases hr
  · cases hs

lemma Inv.drop (h : s.Inv) : Inv { s with calls := update s.calls c none } := by
  have hback : ∀ d z, update s.calls c none d = some z → s.calls d = some z := by
    intro d z hz
    rw [update_apply] at hz
    split at hz
    · cases hz
    · exact hz
  refine ⟨fun d z hz => ?_, ⟨fun d e z w hz hw => ?_, fun d e z w hz hw => ?_⟩, h.candidates,
    h.nodup, h.evidence, h.refusals, h.outcomes, h.bounded, h.lookups, h.answers⟩
  · have hfits := h.fits d z (hback d z hz)
    exact hfits.frame (fun _ => id) rfl hfits.done hfits.allowed (Nat.le_refl _)
  · exact h.alone.once d e z w (hback d z hz) (hback e w hw)
  · exact h.alone.apart d e z w (hback d z hz) (hback e w hw)

lemma Inv.setLookup (h : s.Inv) {x : Lookup} (hx : s.admissions x.key = some x.admission)
    (hexpected : x.phase ≠ .ended → ∀ d, x.expected = some d → x.admission.digest = d)
    (hphase : x.phase = .candidate → x.admission.context.publish = .privateOnly) :
    (s.setLookup l x).Inv := by
  refine ⟨fun c y hy => ?_, ⟨h.alone.once, h.alone.apart⟩, h.candidates, h.nodup, h.evidence,
    h.refusals, h.outcomes, h.bounded, fun m y hy => ?_, h.answers⟩
  · have hfits := h.fits c y hy
    exact hfits.frame (fun _ => id) rfl hfits.done hfits.allowed (Nat.le_refl _)
  · have hy := (update_apply ..).symm.trans hy
    split at hy
    · cases hy
      exact ⟨hx, hexpected, hphase⟩
    · exact h.lookups m y hy

lemma Inv.answer (h : s.Inv) {answer : Answer}
    (hadmission : ∃ a, s.admissions answer.key = some a ∧ a.digest = answer.digest ∧
      a.tool = answer.tool) (hexpected : ∀ d, answer.expected = some d → answer.digest = d)
    (htells : s.Tells answer.key answer.status) :
    Inv { s with answers := answer :: s.answers } := by
  refine ⟨fun c y hy => ?_, ⟨h.alone.once, h.alone.apart⟩, h.candidates, h.nodup, h.evidence,
    h.refusals, h.outcomes, h.bounded, h.lookups, fun b hb => ?_⟩
  · have hfits := h.fits c y hy
    exact hfits.frame (fun _ => id) rfl hfits.done hfits.allowed (Nat.le_refl _)
  · rcases mem_cons.1 hb with rfl | hb
    · exact ⟨⟨hadmission, hexpected⟩, htells.mono id id⟩
    · exact ⟨(h.answers b hb).1, (h.answers b hb).2.mono id id⟩

lemma Inv.lookup (h : s.Inv) {expected : Option ℕ} (hs : s.lookup l k expected = some s') :
    s'.Inv := by
  rw [System.lookup] at hs
  split at hs
  · next a hl hloaded =>
    have ha : s.admissions k = some a := by
      rw [loadedAdmission] at hloaded
      split at hloaded
      · exact hloaded
      · cases hloaded
    split at hs
    · next hexpected =>
      cases hs
      refine h.setLookup ha (fun _ d hd => ?_) fun hno => by cases hno
      cases hd
      exact (of_decide_eq_true hexpected).1
    · cases hs
      exact h.setLookup ha (absurd rfl) fun hno => by cases hno
  · cases hs

/-- What a kept outcome answers was recorded for the request that was admitted. -/
lemma Inv.readReceipt (h : s.Inv) (hs : s.readReceipt l = some s') : s'.Inv := by
  rw [System.readReceipt] at hs
  split at hs
  · next key expected a hl =>
    obtain ⟨ha, hexpected, -⟩ := h.lookups l _ hl
    have hdigest := hexpected fun hno => by cases hno
    split at hs
    · next row hrow =>
      have hover := h.setLookup (l := l) (x := ⟨key, expected, a, .ended⟩) ha
        (absurd rfl) fun hno => by cases hno
      split at hs
      · next hmatch =>
        cases hs
        have hfound := find?_some hrow
        obtain ⟨hkey, -⟩ := of_decide_eq_true hfound
        obtain ⟨-, -, htells⟩ := h.outcomes row (mem_of_find?_eq_some hrow)
        exact hover.answer ⟨a, ha, hmatch.1.symm, hmatch.2.symm⟩
          (fun d hd => hmatch.1.trans (hdigest d hd)) ((hkey ▸ htells).mono id id)
      · cases hs
        exact hover
    · cases hs
      refine h.setLookup ha (fun _ => hdigest) fun hphase => ?_
      by_cases hprivate : a.tool = .propose ∧ a.context.publish = .privateOnly
      · exact hprivate.2
      · rw [if_neg hprivate] at hphase
        cases hphase
  · cases hs

lemma Inv.mcpRecoverPrivateCandidate (h : s.Inv) {verified : Bool}
    (hs : s.mcpRecoverPrivateCandidate l verified = some s') : s'.Inv := by
  rw [System.mcpRecoverPrivateCandidate] at hs
  split at hs
  · next key expected a hl =>
    obtain ⟨ha, hexpected, hphase⟩ := h.lookups l _ hl
    have hover := h.setLookup (l := l) (x := ⟨key, expected, a, .ended⟩) ha
      (absurd rfl) fun hno => by cases hno
    split at hs
    · next candidate hloaded =>
      split at hs
      · cases hs
        exact hover
      · cases hs
        obtain ⟨-, hdigest, ⟨b, hb, -, -, hpublish⟩, heffect, -⟩ :=
          h.candidates key a.digest candidate (loadedCandidate_eq hloaded)
        cases hb.symm.trans ha
        exact hover.answer ⟨a, ha, hdigest.symm, rfl⟩
          (fun d hd => hdigest.trans (hexpected nofun d hd))
          (heffect (hpublish.symm.trans (hphase rfl)))
    · cases hs
      exact hover
  · cases hs

lemma Inv.tick (h : s.Inv) : Inv { s with now := s.now + 1 } := by
  refine ⟨fun c y hy => ?_, ⟨h.alone.once, h.alone.apart⟩, h.candidates, h.nodup, fun k hk => ?_,
    h.refusals, fun row hrow => ?_, h.bounded, h.lookups, fun answer hanswer => ?_⟩
  · have hfits := h.fits c y hy
    exact hfits.frame (fun _ => id) rfl hfits.done hfits.allowed (Nat.le_succ _)
  · obtain ⟨hadmission, hevidence⟩ := h.evidence k hk
    exact ⟨hadmission, hevidence.imp_right (Or.imp_left Nat.le_succ_of_le)⟩
  · obtain ⟨hadmission, hexpiry, htells⟩ := h.outcomes row hrow
    exact ⟨hadmission, hexpiry, htells.mono id id⟩
  · exact ⟨(h.answers answer hanswer).1, (h.answers answer hanswer).2.mono id id⟩

/-- Expired outcomes are deleted. -/
lemma Inv.purge (h : s.Inv) :
    Inv { s with outcomes := s.outcomes.filter (s.now < ·.expiresAt) } := by
  refine ⟨fun c y hy => ?_, ⟨h.alone.once, h.alone.apart⟩, h.candidates, h.nodup, fun k hk => ?_,
    h.refusals, fun row hrow => ?_, Nat.le_trans (length_filter_le ..) h.bounded, h.lookups,
    fun answer hanswer => ?_⟩
  · have hfits := h.fits c y hy
    exact hfits.frame (fun _ => id) rfl hfits.done hfits.allowed (Nat.le_refl _)
  · obtain ⟨hadmission, ⟨row, hrow, hkey⟩ | hevidence⟩ := h.evidence k hk
    · refine ⟨hadmission, ?_⟩
      by_cases hlive : s.now < row.expiresAt
      · exact .inl ⟨row, mem_filter.2 ⟨hrow, decide_eq_true hlive⟩, hkey⟩
      · exact .inr (.inl (hkey ▸ Nat.le_trans (h.outcomes row hrow).2.1 (Nat.le_of_not_lt hlive)))
    · exact ⟨hadmission, .inr hevidence⟩
  · obtain ⟨hadmission, hexpiry, htells⟩ := h.outcomes row (mem_filter.1 hrow).1
    exact ⟨hadmission, hexpiry, htells.mono id id⟩
  · exact ⟨(h.answers answer hanswer).1, (h.answers answer hanswer).2.mono id id⟩

end System
end LibrePaper.Agents
