import LibrePaper.Agents.Operations

/-!
# What a call knows of its operation

One call runs an operation. What a call may still write, and what it may still record, is settled by
where it stands and by what is stored under its key.
-/
namespace LibrePaper.Agents

namespace Call
variable {x : Call}

/-- The call runs its operation. -/
def Runs (x : Call) : Prop :=
  x.finishing = false ∧ match x.phase with
    | .admitted | .staged | .transacting _ => True
    | _ => False

/-- The call may still have an effect. -/
def Pending (x : Call) : Prop :=
  match x.phase with
  | .admitted | .transacting _ => True
  | .staged => x.request.context.publish = .suggestions
  | _ => False

/-- The call is about to record a refusal. -/
def Refuses (x : Call) : Prop :=
  match x.phase with
  | .owning | .unclaimed | .recording _ => True
  | _ => False

/-- The call has found no private candidate. -/
def Unclaimed (x : Call) : Prop :=
  match x.phase with
  | .unclaimed | .recording _ => True
  | _ => False

/-- The call is past its admission, or has found it. -/
def Claims (x : Call) : Prop := x.phase = .staged ∨ x.Pending ∨ x.Refuses

/-- The call has just begun, or is over with its writes. -/
def Idle (x : Call) : Prop :=
  match x.phase with
  | .arrived | .checked => x.finishing = false
  | .failed | .ended => True
  | _ => False

lemma Runs.claims (h : x.Runs) : x.Claims := by
  obtain ⟨request, finishing, phase⟩ := x
  obtain ⟨-, h⟩ := h
  cases phase <;> first | exact .inl rfl | exact .inr (.inl trivial) | exact h.elim

lemma Pending.runs (h : x.Pending) (hx : x.finishing = false) : x.Runs := by
  obtain ⟨request, finishing, phase⟩ := x
  refine ⟨hx, ?_⟩
  cases phase <;> trivial

/-- A call that neither runs nor refuses, and that is not the finishing of a candidate. -/
lemma idle_of_not (hruns : ¬x.Runs) (hrefuses : ¬x.Refuses) (hx : x.finishing = false) :
    x.Idle := by
  obtain ⟨request, finishing, phase⟩ := x
  cases phase with
  | arrived => exact hx
  | checked => exact hx
  | failed => trivial
  | ended => trivial
  | admitted => exact absurd ⟨hx, trivial⟩ hruns
  | staged => exact absurd ⟨hx, trivial⟩ hruns
  | transacting => exact absurd ⟨hx, trivial⟩ hruns
  | owning => exact absurd trivial hrefuses
  | unclaimed => exact absurd trivial hrefuses
  | recording => exact absurd trivial hrefuses

end Call

namespace System
variable {s s' : System} {c : ℕ} {x y : Call}

structure Fits (s : System) (x : Call) : Prop where
  admission : x.Claims → ∃ a, s.admissions x.request.key = some a ∧
    a.digest = x.request.digest ∧ a.tool = x.request.tool
  publish : x.Runs → ∀ a, s.admissions x.request.key = some a → a.context = x.request.context
  finishing : x.finishing = true → x.request.tool = .propose ∧
    (s.candidates x.request.key x.request.digest).isSome = true ∧
    x.phase ≠ .arrived ∧ x.phase ≠ .checked ∧ x.phase ≠ .admitted
  retain : ∀ r, x.phase = .transacting r ∨ x.phase = .recording r → x.request.key.expiry ≤ s.now + r
  done : x.request.key ∈ s.effects → x.Pending → x.phase ≠ .admitted ∧
    x.request.labelled = true ∧ x.request.key ∈ s.labels
  first : x.phase = .admitted → ∀ d, s.candidates x.request.key d = none
  allowed : x.Runs → x.request.key ∉ s.refusals
  unclaimed : x.Unclaimed → ∀ d candidate, s.candidates x.request.key d = some candidate →
    candidate.publish = .suggestions

/-- A call that is over with its writes, or has just begun. -/
lemma Fits.idle (hfinishing : x.finishing = true → x.request.tool = .propose ∧
    (s.candidates x.request.key x.request.digest).isSome = true) (h : x.Idle) : s.Fits x := by
  obtain ⟨request, finishing, phase⟩ := x
  have hnot : ¬(Call.mk request finishing phase).Claims ∧
      ¬(Call.mk request finishing phase).Runs ∧ ¬(Call.mk request finishing phase).Pending ∧
      ¬(Call.mk request finishing phase).Unclaimed := by
    refine ⟨?_, ?_, ?_, ?_⟩ <;> cases phase <;> first
      | exact h.elim
      | (rintro (hno | hno | hno) <;> cases hno)
      | exact fun hno => hno.2.elim
  refine ⟨fun hno => absurd hno hnot.1, fun hno => absurd hno hnot.2.1, fun hx => ?_,
    fun r hno => ?_, fun _ hno => absurd hno hnot.2.2.1, fun hno => ?_,
    fun hno => absurd hno hnot.2.1, fun hno => absurd hno hnot.2.2.2⟩
  · obtain ⟨htool, hcandidate⟩ := hfinishing hx
    refine ⟨htool, hcandidate, ?_, ?_, ?_⟩ <;> rintro hphase <;> cases hphase
    · cases hx.symm.trans h
    · cases hx.symm.trans h
    · exact h.elim
  · rcases hno with hno | hno <;> cases hno <;> exact h.elim
  · cases hno
    exact h.elim

/-- What is stored under the call's key stays or grows. -/
lemma Fits.frame (h : s.Fits x)
    (hadmissions : ∀ a, s.admissions x.request.key = some a → s'.admissions x.request.key = some a)
    (hcandidates : s'.candidates x.request.key = s.candidates x.request.key)
    (hdone : x.request.key ∈ s'.effects → x.Pending → x.phase ≠ .admitted ∧
      x.request.labelled = true ∧ x.request.key ∈ s'.labels)
    (hallowed : x.Runs → x.request.key ∉ s'.refusals) (hnow : s.now ≤ s'.now) : s'.Fits x := by
  refine ⟨fun hx => ?_, fun hx a ha => ?_, fun hx => ?_, fun r hr => ?_, hdone, fun hx d => ?_,
    hallowed, fun hx d => ?_⟩
  · obtain ⟨a, ha, hdigest, htool⟩ := h.admission hx
    exact ⟨a, hadmissions a ha, hdigest, htool⟩
  · obtain ⟨b, hb, -, -⟩ := h.admission hx.claims
    have heq : a = b := Option.some.inj (ha.symm.trans (hadmissions b hb))
    exact heq ▸ h.publish hx b hb
  · rw [hcandidates]
    exact h.finishing hx
  · exact Nat.le_trans (h.retain r hr) (Nat.add_le_add_right hnow r)
  · rw [hcandidates]
    exact h.first hx d
  · rw [hcandidates]
    exact h.unclaimed hx d

/-- A call goes on from its admission. -/
lemma Fits.advance {request : Request} {finishing : Bool} {phase phase' : Phase}
    (h : s.Fits ⟨request, finishing, phase⟩)
    (hadmission : ∃ a, s.admissions request.key = some a ∧ a.digest = request.digest ∧
      a.tool = request.tool)
    (hruns : (Call.mk request finishing phase').Runs → (Call.mk request finishing phase).Runs)
    (hpending : (Call.mk request finishing phase').Pending →
      (Call.mk request finishing phase).Pending)
    (hunclaimed : (Call.mk request finishing phase').Unclaimed → ∀ d candidate,
      s.candidates request.key d = some candidate → candidate.publish = .suggestions)
    (hretain : ∀ r, phase' = .transacting r ∨ phase' = .recording r →
      request.key.expiry ≤ s.now + r)
    (hlater : phase' ≠ .arrived ∧ phase' ≠ .checked ∧ phase' ≠ .admitted) :
    s.Fits ⟨request, finishing, phase'⟩ := by
  refine ⟨fun _ => hadmission, fun hx => h.publish (hruns hx), fun hf => ?_, hretain,
    fun hk hx => ⟨hlater.2.2, (h.done hk (hpending hx)).2⟩, fun hx => absurd hx hlater.2.2,
    fun hx => h.allowed (hruns hx), hunclaimed⟩
  obtain ⟨htool, hcandidate, -⟩ := h.finishing hf
  exact ⟨htool, hcandidate, hlater⟩

/-- The call that runs an operation is alone, and no call of its key is about to record a
refusal. -/
structure Alone (s : System) : Prop where
  once : ∀ c d x y, s.calls c = some x → s.calls d = some y → x.Runs → y.Runs →
    x.request.key = y.request.key → c = d
  apart : ∀ c d x y, s.calls c = some x → s.calls d = some y → x.Refuses → y.Runs →
    x.request.key ≠ y.request.key

lemma calls_setCall (d : ℕ) : (s.setCall c y).calls d = if d = c then some y else s.calls d :=
  Function.update_apply ..

/-- A call goes on: it runs or refuses only if it did before. -/
lemma Alone.setCall (h : s.Alone) (hx : s.calls c = some x) (hkey : y.request.key = x.request.key)
    (hruns : y.Runs → x.Runs) (hrefuses : y.Refuses → x.Refuses) : (s.setCall c y).Alone := by
  have hback : ∀ d z, (s.setCall c y).calls d = some z → ∃ w, s.calls d = some w ∧
      z.request.key = w.request.key ∧ (z.Runs → w.Runs) ∧ (z.Refuses → w.Refuses) := by
    intro d z hz
    rw [calls_setCall] at hz
    split at hz
    · next hd =>
      cases hz
      exact ⟨x, hd ▸ hx, hkey, hruns, hrefuses⟩
    · exact ⟨z, hz, rfl, id, id⟩
  refine ⟨fun d e z w hz hw hzr hwr heq => ?_, fun d e z w hz hw hzr hwr heq => ?_⟩
  all_goals
    obtain ⟨z', hz', hzkey, hz1, hz2⟩ := hback d z hz
    obtain ⟨w', hw', hwkey, hw1, -⟩ := hback e w hw
  · exact h.once d e z' w' hz' hw' (hz1 hzr) (hw1 hwr) (hzkey.symm.trans (heq.trans hwkey))
  · exact h.apart d e z' w' hz' hw' (hz2 hzr) (hw1 hwr) (hzkey.symm.trans (heq.trans hwkey))

/-- A call that starts to run, or to refuse, where no other call of its key is in the way. -/
lemma Alone.join (h : s.Alone)
    (hruns : y.Runs → ∀ d z, d ≠ c → s.calls d = some z → z.request.key = y.request.key →
      ¬z.Runs ∧ ¬z.Refuses)
    (hrefuses : y.Refuses → ∀ d z, d ≠ c → s.calls d = some z → z.request.key = y.request.key →
      ¬z.Runs)
    (hone : y.Refuses → ¬y.Runs) : (s.setCall c y).Alone := by
  refine ⟨fun d e z w hz hw hzr hwr heq => ?_, fun d e z w hz hw hzr hwr heq => ?_⟩
  all_goals
    rw [calls_setCall] at hz hw
    split at hz <;> split at hw
  · next hd he => exact hd.trans he.symm
  · next hd he =>
    cases hz
    exact absurd hwr (hruns hzr e w he hw heq.symm).1
  · next hd he =>
    cases hw
    exact absurd hzr (hruns hwr d z hd hz heq).1
  · exact h.once d e z w hz hw hzr hwr heq
  · next hd he =>
    cases hz
    cases hw
    exact hone hzr hwr
  · next hd he =>
    cases hz
    exact hrefuses hzr e w he hw heq.symm hwr
  · next hd he =>
    cases hw
    exact (hruns hwr d z hd hz heq).2 hzr
  · exact h.apart d e z w hz hw hzr hwr heq

end System
end LibrePaper.Agents
