import LibrePaper.Renders.Invariant

/-!
# A render answer belongs to its request

A call that returns a result returns one that an attached browser sent for its id, its base and its
revision, and a result that matches a waiting call resolves it: in every run in which an id that is
used again finds no result of another identity, no waiting call's identity is given up, and the
agent takes what answers a waiting call.
-/
namespace LibrePaper.Renders
open Library Option

namespace Hub

variable {s t : Hub} {c r : ℕ} {call : Call} {relay : Relay} {frame : Frame}

/-- The relay has let the result through as one for a known render, and will settle it. -/
def Underway (s : Hub) (r : ℕ) (frame : Frame) : Prop :=
  ∃ relay, s.relays r = some relay ∧ relay.frame = frame ∧ relay.known = true ∧
    (relay.stage = .delivering ∨ ∃ reply, relay.stage = .settling reply)

lemma result_underway (hs : s.Inv) {socket : ℕ} (hc : s.calls c = some call)
    (hw : call.phase = .waiting) (hsocket : s.channel.browser = some socket)
    (hvalid : checkPreviewResult .user frame = .ok ())
    (hanswers : frame.Answers call.id call.base call.revision) :
    (s.result r .user socket frame).Underway r frame := by
  obtain ⟨hid, hbase, hrevision⟩ := hanswers
  have hexpected := hs.expected c call hc hw
  have hlookup : s.channel.renderExpected.lookup (frame.requestId.getD "") =
      some (call.base, call.revision) := by
    rw [hid]
    exact hexpected
  have hcheck := Channel.check_of_expected hlookup hbase hrevision hsocket
  unfold Hub.result
  rw [if_pos ⟨rfl, hsocket⟩, hvalid]
  dsimp only
  rw [hcheck]
  cases s.channel.agent with
  | none => exact ⟨_, relays_setRelay_self, rfl, rfl, .inr ⟨_, rfl⟩⟩
  | some agent => exact ⟨_, relays_setRelay_self, rfl, rfl, .inl rfl⟩

lemma settle_answers (hs : s.Inv) {reply : Option String} (hc : s.calls c = some call)
    (hw : call.phase = .waiting) (hid : relay.frame.requestId = some call.id) :
    (s.settle r relay reply).calls c = some { call with phase := .answered relay.frame } := by
  unfold Hub.settle
  dsimp only
  rw [hid, getD_some, hs.waiter c call hc hw, bind_some, hc, map_some]
  dsimp only
  rw [hw]
  exact calls_setCall_self

variable {old : Call} {digest : String → String} {op : Op} {l : List Op}

lemma calls_dropSender (d : ℕ) (hc : s.calls c = some old) :
    ∃ call, (s.dropSender d).calls c = some call ∧ (call.phase = .waiting → call = old) := by
  unfold Hub.dropSender
  split
  · next other hd =>
    split_ifs
    · by_cases hcd : c = d
      · subst hcd
        exact ⟨_, calls_setCall_self, nofun⟩
      · exact ⟨old, (calls_setCall_of_ne hcd).trans hc, fun _ => rfl⟩
    · exact ⟨old, hc, fun _ => rfl⟩
  · exact ⟨old, hc, fun _ => rfl⟩

lemma calls_result (s : Hub) (r : ℕ) (role : Role) (socket : ℕ) (frame : Frame) :
    (s.result r role socket frame).calls = s.calls := by
  unfold Hub.result
  extract_lets s'
  have hcalls : s'.calls = s.calls := by
    change (if _ then _ else _ : Hub).calls = _
    split_ifs <;> rfl
  split
  · exact hcalls
  · split <;> exact hcalls

lemma calls_setCall {d : ℕ} (hc : s.calls c = some old) (hcall : d = c → call.phase ≠ .waiting) :
    ∃ next, (s.setCall d call).calls c = some next ∧ (next.phase = .waiting → next = old) := by
  by_cases hcd : c = d
  · subst hcd
    exact ⟨_, calls_setCall_self, fun hw => absurd hw (hcall rfl)⟩
  · exact ⟨old, (calls_setCall_of_ne hcd).trans hc, fun _ => rfl⟩

lemma calls_step (hc : s.calls c = some old) (h : s.step digest op = some t) :
    ∃ call, t.calls c = some call ∧ (call.phase = .waiting → call = old) := by
  have hsame : ∃ call, s.calls c = some call ∧ (call.phase = .waiting → call = old) :=
    ⟨old, hc, fun _ => rfl⟩
  cases op <;> dsimp only [Hub.step] at h
  case attach role binding socket =>
    split at h <;> cases h <;> exact hsame
  case detach socket =>
    cases h
    exact hsame
  case event role socket frame limited accepts =>
    split at h <;> cases h <;> exact hsame
  case render d frame accepts order =>
    split_ifs at h with hd
    cases h
    have hne : d ≠ c := by
      rintro rfl
      cases hd.symm.trans hc
    unfold Hub.render
    dsimp only
    split <;> exact calls_setCall hc fun heq => absurd heq hne
  case expire d =>
    split at h
    · split_ifs at h
      cases h
      exact calls_setCall hc fun _ => nofun
    · cases h
  case close d =>
    split at h
    · split_ifs at h
      cases h
      exact calls_setCall hc fun _ => nofun
    · cases h
  case giveUp d =>
    split at h
    · next call hd =>
      split_ifs at h
      cases h
      have hcalls : (s.setChannel { s.channel with
        renderWaiters := s.channel.renderWaiters.erase call.id }).calls c = some old := hc
      obtain ⟨mid, hmid, hkept⟩ : ∃ next, ((s.setChannel { s.channel with
          renderWaiters := s.channel.renderWaiters.erase call.id }).setCall d
            { call with phase := .refused (504, "renderer timed out") }).calls c = some next ∧
          (next.phase = .waiting → next = old) := calls_setCall hcalls fun _ => nofun
      unfold Hub.giveUp
      dsimp only
      split
      · next waiter hwaiter =>
        obtain ⟨last, hlast, hkept'⟩ := calls_dropSender waiter hmid
        refine ⟨last, hlast, fun hw => ?_⟩
        have heq := hkept' hw
        exact heq.trans (hkept (heq ▸ hw))
      · exact ⟨mid, hmid, hkept⟩
    · cases h
  case result r role socket frame =>
    split_ifs at h
    cases h
    exact ⟨old, s.calls_result r role socket frame ▸ hc, fun _ => rfl⟩
  case deliver r limited accepts =>
    split at h
    · split_ifs at h
      cases h
      unfold Hub.deliver
      split <;> exact hsame
    · cases h
  case settle r =>
    split at h
    · split at h
      · cases h
        unfold Hub.settle
        dsimp only
        split
        · split
          · exact calls_setCall hc fun _ => nofun
          · exact hsame
          · exact hsame
        · exact hsame
      · cases h
    · cases h
  case store r order =>
    split at h
    · split at h
      · cases h
        exact hsame
      · cases h
    · cases h

lemma relays_result (s : Hub) (r : ℕ) (role : Role) (socket : ℕ) (frame : Frame) :
    ∃ relay, (s.result r role socket frame).relays = (s.setRelay r relay).relays := by
  unfold Hub.result
  extract_lets s'
  have hrelays : ∀ relay, (s'.setRelay r relay).relays = (s.setRelay r relay).relays := by
    intro relay
    change Function.update (if _ then _ else _ : Hub).relays _ _ = _
    split_ifs <;> rfl
  split
  · exact ⟨_, hrelays _⟩
  · split <;> exact ⟨_, hrelays _⟩

lemma relays_deliver (s : Hub) (digest : String → String) (r : ℕ) (relay : Relay)
    (limited accepts : Bool) :
    ∃ relay', (s.deliver digest r relay limited accepts).relays = (s.setRelay r relay').relays := by
  unfold Hub.deliver
  split <;> exact ⟨_, rfl⟩

lemma relays_settle (s : Hub) (r : ℕ) (relay : Relay) (reply : Option String) :
    ∃ relay', (s.settle r relay reply).relays = (s.setRelay r relay').relays := by
  unfold Hub.settle
  dsimp only
  split
  · split <;> exact ⟨_, rfl⟩
  · exact ⟨_, rfl⟩

/-- While the call waits, its result stays under way. -/
lemma underway_step (hs : s.Inv) (ho : s.Steady digest op) (h : s.step digest op = some t)
    (hc : s.calls c = some call) (hw : call.phase = .waiting) (ht : t.calls c = some call)
    (hanswers : frame.Answers call.id call.base call.revision) (hway : s.Underway r frame) :
    t.Underway r frame := by
  obtain ⟨relay, hr, rfl, hknown, hstage⟩ := hway
  have hsame : t.relays = s.relays → t.Underway r relay.frame := fun heq =>
    ⟨relay, heq ▸ hr, rfl, hknown, hstage⟩
  have hother : ∀ q other, (q = r → False) → t.relays = (s.setRelay q other).relays →
      t.Underway r relay.frame := fun q other hne heq =>
    ⟨relay, heq ▸ (relays_setRelay_of_ne fun heq => hne heq.symm).trans hr, rfl, hknown, hstage⟩
  cases op <;> dsimp only [Hub.step] at h
  case attach role binding socket =>
    split at h <;> cases h <;> exact hsame rfl
  case detach socket =>
    cases h
    exact hsame rfl
  case event role socket frame limited accepts =>
    split at h <;> cases h <;> exact hsame rfl
  case render d frame accepts order =>
    split_ifs at h
    cases h
    refine hsame ?_
    unfold Hub.render
    dsimp only
    split <;> rfl
  case expire d =>
    split at h
    · split_ifs at h
      cases h
      exact hsame rfl
    · cases h
  case close d =>
    split at h
    · split_ifs at h
      cases h
      exact hsame rfl
    · cases h
  case giveUp d =>
    split at h
    · split_ifs at h
      cases h
      refine hsame ?_
      unfold Hub.giveUp
      dsimp only
      split
      · unfold Hub.dropSender
        split
        · split_ifs <;> rfl
        · rfl
      · rfl
    · cases h
  case result q role socket frame =>
    split_ifs at h with hq
    cases h
    have hne : q = r → False := by
      rintro rfl
      cases hq.symm.trans hr
    obtain ⟨other, hrelays⟩ := s.relays_result q role socket frame
    exact hother q other hne hrelays
  case deliver q limited accepts =>
    split at h
    · next other hq =>
      split_ifs at h with hdelivering
      cases h
      by_cases hqr : q = r
      · subst hqr
        cases hq.symm.trans hr
        obtain ⟨⟨ch, reply⟩, hp⟩ := ho relay c call hr hknown hc hw hanswers
        unfold Hub.deliver
        rw [hp]
        dsimp only
        rw [if_pos hknown]
        exact ⟨_, relays_setRelay_self, rfl, hknown, .inr ⟨reply, rfl⟩⟩
      · obtain ⟨other', hrelays⟩ := s.relays_deliver digest q other limited accepts
        exact hother q other' hqr hrelays
    · cases h
  case settle q =>
    split at h
    · next other hq =>
      split at h
      · next reply hsettling =>
        cases h
        by_cases hqr : q = r
        · subst hqr
          cases hq.symm.trans hr
          have hanswered : (s.settle q relay reply).calls c = _ :=
            settle_answers hs hc hw hanswers.1
          have heq := congrArg Call.phase (some.inj (ht.symm.trans hanswered))
          rw [hw] at heq
          cases heq
        · obtain ⟨other', hrelays⟩ := s.relays_settle q other reply
          exact hother q other' hqr hrelays
      · cases h
    · cases h
  case store q order =>
    split at h
    · next other hq =>
      split at h
      · next reply hstoring =>
        cases h
        refine hother q _ ?_ rfl
        rintro rfl
        cases hq.symm.trans hr
        rcases hstage with hstage | ⟨reply', hstage⟩ <;> cases hstage.symm.trans hstoring
      · cases h
    · cases h

/-- A call that waits after a run has waited all along. -/
lemma waiting_run (h : Run (step digest) (Steady digest) s l t) (hc : s.calls c = some old)
    (ht : t.calls c = some call) (hw : call.phase = .waiting) : old = call := by
  induction h generalizing old with
  | nil => exact some.inj (hc.symm.trans ht)
  | cons ho hstep hrest ih =>
    obtain ⟨next, hnext, hsame⟩ := calls_step hc hstep
    have heq := ih hnext ht
    exact (hsame (heq ▸ hw)).symm.trans heq

/-- What is under way is settled with the waiting call, or the call does not wait any more. -/
lemma underway_run (h : Run (step digest) (Steady digest) s l t) (hs : s.Inv)
    (hc : s.calls c = some call) (hw : call.phase = .waiting)
    (hanswers : frame.Answers call.id call.base call.revision) (hway : s.Underway r frame)
    (ht : t.calls c = some call) : t.Inv ∧ t.Underway r frame := by
  induction h with
  | nil => exact ⟨hs, hway⟩
  | cons ho hstep hrest ih =>
    obtain ⟨mid, hmid, -⟩ := calls_step hc hstep
    have hcall := waiting_run hrest hmid ht hw ▸ hmid
    exact ih (hs.step ho hstep) hcall (underway_step hs ho hstep hc hw hcall hanswers hway) ht

/-- A call that returns a result returns one that an attached browser sent for its id, its base
and its revision. A result from the attached browser that matches a waiting call is let through,
and as long as the call waits it is under way and resolves the call when it is settled. -/
theorem render_answers_belong {digest : String → String} {l : List Op} {s : Hub}
    (h : Run (step digest) (Steady digest) empty l s) :
    (∀ c call v, s.calls c = some call → call.phase = .answered v →
      v ∈ s.heard ∧ v.Answers call.id call.base call.revision) ∧
    ∀ c call r socket frame t, s.calls c = some call → call.phase = .waiting →
      s.channel.browser = some socket → checkPreviewResult .user frame = .ok () →
      frame.Answers call.id call.base call.revision →
      s.step digest (.result r .user socket frame) = some t →
      ∀ m u, Run (step digest) (Steady digest) t m u → u.calls c = some call →
        u.Underway r frame ∧ ∀ w, u.step digest (.settle r) = some w →
          w.calls c = some { call with phase := .answered frame } := by
  have hs := inv_of_run h
  refine ⟨hs.answered, ?_⟩
  intro c call r socket frame t hc hw hsocket hvalid hanswers hstep m u hrun hu
  have ht : t = s.result r .user socket frame := by
    unfold Hub.step at hstep
    dsimp only at hstep
    split_ifs at hstep
    exact (some.inj hstep).symm
  have hsteady : s.Steady digest (.result r .user socket frame) := trivial
  have hinv : t.Inv := hs.step hsteady hstep
  have hway : t.Underway r frame := ht ▸ result_underway hs hc hw hsocket hvalid hanswers
  have hcall : t.calls c = some call := by
    rw [ht, calls_result]
    exact hc
  obtain ⟨huinv, huway⟩ := underway_run hrun hinv hcall hw hanswers hway hu
  refine ⟨huway, fun w hsettle => ?_⟩
  obtain ⟨relay, hr, rfl, -, -⟩ := huway
  unfold Hub.step at hsettle
  dsimp only at hsettle
  rw [hr] at hsettle
  dsimp only at hsettle
  split at hsettle
  · cases hsettle
    exact settle_answers huinv hu hw hanswers.1
  · cases hsettle

/-- A request for a render, or the result of one. -/
def frameOf (id requestId : Option String) (base : String) : Frame where
  id := id
  messageId := none
  taskId := some "task"
  requestId := requestId
  baseRevision := some base
  revision := some "candidate"
  ok := some true
  diagnostics := some []
  text := ""

/-- A browser attaches, and a call asks it for a render. -/
def askOps : List Op :=
  [.attach .user none 1, .render 0 (frameOf (some "render") none "base") true fun _ => 0]

def answerOps : List Op :=
  [.result 0 .user 1 (frameOf (some "result") (some "render") "base"), .settle 0]

lemma steady_of_empty {accepts : Bool} {order : ℕ → ℕ} (hexpected : s.channel.renderExpected = ∅)
    (hresults : s.channel.renderResults = ∅) (hrelays : ∀ r, s.relays r = none) :
    s.Steady digest (.render c frame accepts order) := by
  refine ⟨fun v hv => ?_, fun _ => ⟨fun r relay hr => ?_, fun oldest hold => ?_⟩⟩
  · rw [hresults, Finmap.lookup_empty] at hv
    cases hv
  · cases (hrelays r).symm.trans hr
  · have hcard := Channel.card_insert_le s.channel.renderExpected (frame.id.getD "")
      (frame.baseRevision.getD "", frame.revision.getD "")
    rw [hexpected, Finmap.keys_empty, Finset.card_empty] at hcard
    unfold Channel.givenUp at hold
    rw [hexpected, if_neg (by omega)] at hold
    cases hold

/-- The first render of a channel is answered with its result. -/
theorem first_render_answered : ∃ s, Run (step fun _ => "") (Steady fun _ => "") empty
    (askOps ++ answerOps) s ∧ ∃ call v, s.calls 0 = some call ∧ call.phase = .answered v ∧
      v ∈ s.heard ∧ v.Answers call.id call.base call.revision := by
  obtain ⟨s, hrun, call, v, hc, hphase⟩ : ∃ s, Run (step fun _ => "") (Steady fun _ => "") empty
      (askOps ++ answerOps) s ∧ ∃ call v, s.calls 0 = some call ∧ call.phase = .answered v :=
    ⟨_, .cons trivial rfl (.cons (steady_of_empty rfl rfl fun _ => rfl) rfl (.cons trivial rfl
      (.cons trivial rfl (.nil _)))), ⟨_, _, rfl, rfl⟩⟩
  exact ⟨s, hrun, call, v, hc, hphase, (render_answers_belong hrun).1 0 call v hc hphase⟩

/-- A call runs out of time, its result is cached, and the next call with its id, for another
base, returns it. -/
theorem stale_result_returned : ¬∀ (digest : String → String) (l : List Op) (s : Hub),
    Run (step digest) anyStep empty l s → ∀ c call v, s.calls c = some call →
      call.phase = .answered v → v.Answers call.id call.base call.revision := by
  intro h
  obtain ⟨s, hrun, call, hc, hbase, hphase⟩ : ∃ s, Run (step fun _ => "") anyStep empty
      (askOps ++ [.expire 0, .close 0, .giveUp 0] ++ answerOps ++ [.store 0 fun _ => 0,
        .render 1 (frameOf (some "render") none "other") true fun _ => 0]) s ∧
      ∃ call, s.calls 1 = some call ∧ call.base = "other" ∧
        call.phase = .answered (frameOf (some "result") (some "render") "base") :=
    ⟨_, .cons trivial rfl (.cons trivial rfl (.cons trivial rfl (.cons trivial rfl
      (.cons trivial rfl (.cons trivial rfl (.cons trivial rfl (.cons trivial rfl
      (.cons trivial rfl (.nil _))))))))), ⟨_, rfl, rfl, rfl⟩⟩
  have hanswers := (h _ _ s hrun 1 call _ hc hphase).2.1
  rw [hbase] at hanswers
  exact absurd hanswers (by decide)

end Hub
end LibrePaper.Renders
