import LibrePaper.Renders.Hub

/-!
# What a channel keeps of its renders

As long as an id that is used again finds no result of another identity, and no waiting call's
identity is given up, a waiting call has its waiter and its identity in the tables, and every result
that is cached, on its way or returned is one for its request.
-/
namespace LibrePaper.Renders
open Library List Option Function Finmap

/-- The result is one for the id, the base and the revision. -/
def Frame.Answers (v : Frame) (id base revision : String) : Prop :=
  v.requestId = some id ∧ v.baseRevision = some base ∧ v.revision = some revision

/-- The relay has a result for a known render that it has not given away. -/
def Relay.Carrying (relay : Relay) : Prop :=
  relay.known = true ∧ ∀ reply, relay.stage ≠ .done reply

namespace Channel

/-- What the loops leave is what was there. -/
structure Fewer (ch ch' : Channel) : Prop where
  waiters : ch.renderWaiters = ch'.renderWaiters
  browser : ch.browser = ch'.browser
  results : ∀ id v, ch.renderResults.lookup id = some v → ch'.renderResults.lookup id = some v

lemma Fewer.refl (ch : Channel) : Fewer ch ch := ⟨rfl, rfl, fun _ _ h => h⟩

lemma Fewer.trans {a b c : Channel} (h : Fewer a b) (k : Fewer b c) : Fewer a c :=
  ⟨h.waiters.trans k.waiters, h.browser.trans k.browser,
    fun id v hv => k.results id v (h.results id v hv)⟩

variable {α : Type*} {table : Finmap fun _ : String => α} {key id : String} {v : α}

lemma lookup_of_erase (h : (table.erase key).lookup id = some v) :
    id ≠ key ∧ table.lookup id = some v := by
  by_cases hid : id = key
  · subst hid
    rw [lookup_erase] at h
    cases h
  · rw [lookup_erase_ne hid] at h
    exact ⟨hid, h⟩

lemma lookup_of_insert {a : α} (h : (table.insert key a).lookup id = some v) :
    (id = key ∧ v = a) ∨ (id ≠ key ∧ table.lookup id = some v) := by
  by_cases hid : id = key
  · subst hid
    rw [lookup_insert] at h
    exact .inl ⟨rfl, (some.inj h).symm⟩
  · rw [lookup_insert_of_ne _ hid] at h
    exact .inr ⟨hid, h⟩

lemma forgetExpected_fewer (order : ℕ) (ch : Channel) : Fewer (ch.forgetExpected order) ch := by
  unfold forgetExpected
  split
  · exact ⟨rfl, rfl, fun _ _ h => (lookup_of_erase h).2⟩
  · exact Fewer.refl ch

lemma trimExpected_fewer (order : ℕ → ℕ) (n : ℕ) (ch : Channel) :
    Fewer (trimExpected order n ch) ch := by
  induction n generalizing ch with
  | zero => exact Fewer.refl ch
  | succ n ih => exact (ih _).trans (forgetExpected_fewer _ ch)

lemma trimResults_fewer (order : ℕ → ℕ) (n : ℕ) (ch : Channel) :
    Fewer (trimResults order n ch) ch ∧
      (trimResults order n ch).renderExpected = ch.renderExpected := by
  induction n generalizing ch with
  | zero => exact ⟨Fewer.refl ch, rfl⟩
  | succ n ih =>
    have hone : Fewer (ch.forgetResult (order n)) ch ∧
        (ch.forgetResult (order n)).renderExpected = ch.renderExpected := by
      unfold forgetResult
      split
      · exact ⟨⟨rfl, rfl, fun _ _ h => (lookup_of_erase h).2⟩, rfl⟩
      · exact ⟨Fewer.refl ch, rfl⟩
    exact ⟨(ih _).1.trans hone.1, (ih _).2.trans hone.2⟩

/-- The key that is given up for a render call, where there are too many. -/
def givenUp (order : ℕ → ℕ) (ch : Channel) (id : String) (identity : String × String) :
    Option String :=
  if 64 < (ch.renderExpected.insert id identity).keys.card then
    firstKey (order 0) (ch.renderExpected.insert id identity)
  else none

end Channel

namespace Channel

variable {ch ch' : Channel} {order : ℕ → ℕ} {c : ℕ} {frame : Frame} {accepts : Bool}
  {id base revision : String}

variable {α : Type*} {role : Role} {socket : ℕ}

lemma firstKey_mem {n : ℕ} {table : Finmap fun _ : String => α} {key : String}
    (h : firstKey n table = some key) : key ∈ table :=
  mem_keys.1 ((Finset.mem_sort _).1 (mem_of_getElem? h))

lemma exists_firstKey (n : ℕ) (table : Finmap fun _ : String => α) (h : 0 < table.keys.card) :
    ∃ key, firstKey n table = some key := by
  have hlen : 0 < (sortedKeys table).length := by
    rw [sortedKeys, Finset.length_sort]
    exact h
  exact ⟨_, getElem?_eq_getElem (Nat.mod_lt n hlen)⟩

lemma card_insert_le (table : Finmap fun _ : String => α) (id : String) (a : α) :
    (table.insert id a).keys.card ≤ table.keys.card + 1 := by
  have hkeys : (table.insert id a).keys = insert id table.keys := by
    ext k
    rw [Finmap.mem_keys, Finmap.mem_insert, Finset.mem_insert, Finmap.mem_keys]
  rw [hkeys]
  exact Finset.card_insert_le _ _

/-- The loop runs at most once for a render call. -/
lemma trimExpected_expect (hfew : ch.renderExpected.keys.card ≤ 64) (order : ℕ → ℕ) (c : ℕ)
    (id base revision : String) :
    let ch' := ch.expect c id base revision
    let left := trimExpected order (ch'.renderExpected.keys.card - 64) ch'
    left.renderExpected.keys.card ≤ 64 ∧
      ∀ k, ch.givenUp order id (base, revision) ≠ some k →
        left.renderExpected.lookup k = (ch.renderExpected.insert id (base, revision)).lookup k := by
  intro ch' left
  have hcard : ch'.renderExpected.keys.card ≤ 65 :=
    (card_insert_le _ _ _).trans (Nat.succ_le_succ hfew)
  by_cases hmany : 64 < ch'.renderExpected.keys.card
  · have hone : ch'.renderExpected.keys.card - 64 = 1 := by omega
    obtain ⟨oldest, hold⟩ := exists_firstKey (order 0) ch'.renderExpected (by omega)
    have hleft : left.renderExpected = ch'.renderExpected.erase oldest := by
      change (trimExpected order (ch'.renderExpected.keys.card - 64) ch').renderExpected = _
      rw [hone]
      change (ch'.forgetExpected (order 0)).renderExpected = _
      rw [forgetExpected, hold]
    have hgiven : ch.givenUp order id (base, revision) = some oldest := (if_pos hmany).trans hold
    refine ⟨?_, fun k hk => ?_⟩
    · have hmem : oldest ∈ ch'.renderExpected.keys := mem_keys.2 (firstKey_mem hold)
      rw [hleft, keys_erase, Finset.card_erase_of_mem hmem]
      omega
    · have hne : k ≠ oldest := fun heq => hk (heq ▸ hgiven)
      rw [hleft, lookup_erase_ne hne]
      rfl
  · have hnone : ch'.renderExpected.keys.card - 64 = 0 := by omega
    have hleft : left = ch' := by
      change trimExpected order (ch'.renderExpected.keys.card - 64) ch' = ch'
      rw [hnone]
      rfl
    rw [hleft]
    exact ⟨not_lt.1 hmany, fun _ _ => rfl⟩

lemma render_waiting (h : ch.render c frame accepts order = .ok (ch', .waiting)) :
    frame.id.getD "" ∉ ch.renderWaiters ∧
      ∃ waiting, waiting = ch.expect c (frame.id.getD "") (frame.baseRevision.getD "")
          (frame.revision.getD "") ∧
        ch' = trimExpected order (waiting.renderExpected.keys.card - 64) waiting := by
  unfold render at h
  dsimp only at h
  split at h
  · cases h
  · split at h
    · cases h
    · split_ifs at h with hpending
      cases h
      exact ⟨hpending, _, rfl, rfl⟩

lemma render_cached {v : Frame} (h : ch.render c frame accepts order = .ok (ch', .cached v)) :
    ch.renderResults.lookup (frame.id.getD "") = some v ∧
      ch' = { ch with renderResults := ch.renderResults.erase (frame.id.getD "") } := by
  unfold render at h
  dsimp only at h
  split at h
  · cases h
  · split at h
    · next result hresult =>
      cases h
      exact ⟨hresult, rfl⟩
    · split_ifs at h
      cases h

/-- Handing an event on leaves the renders alone. -/
lemma deliver_renders {digest : String → String} {limited : Bool} {reply : Option String}
    (h : ch.deliver digest role socket frame limited accepts = .ok (ch', reply)) :
    ch'.renderWaiters = ch.renderWaiters ∧ ch'.renderExpected = ch.renderExpected ∧
      ch'.renderResults = ch.renderResults := by
  unfold deliver at h
  dsimp only at h
  split at h
  · cases h
  · split at h
    · cases h
    · split at h
      · split_ifs at h
        cases h
        exact ⟨rfl, rfl, rfl⟩
      · split_ifs at h
        cases h
        exact ⟨rfl, rfl, rfl⟩

lemma attachBound_renders {binding : Option String}
    (h : ch.attachBound role binding socket = .ok ch') :
    ch'.renderWaiters = ch.renderWaiters ∧ ch'.renderExpected = ch.renderExpected ∧
      ch'.renderResults = ch.renderResults := by
  unfold attachBound at h
  split_ifs at h
  split at h
  · cases h
    exact ⟨rfl, rfl, rfl⟩
  · split at h
    · split_ifs at h
      cases h
      exact ⟨rfl, rfl, rfl⟩
    · cases h
      exact ⟨rfl, rfl, rfl⟩
    · cases h
      exact ⟨rfl, rfl, rfl⟩

lemma detach_renders (ch : Channel) (socket : ℕ) :
    (ch.detach socket).renderWaiters = ch.renderWaiters ∧
      (ch.detach socket).renderExpected = ch.renderExpected ∧
      (ch.detach socket).renderResults = ch.renderResults := by
  unfold detach detachAgent detachBrowser
  split_ifs <;> exact ⟨rfl, rfl, rfl⟩

/-- A result that is let through is one for the render that is expected under its id, and its
browser is attached. -/
lemma check_known {agent : Bool} (h : ch.check socket frame = .ok (true, agent)) :
    ∃ base revision, ch.renderExpected.lookup (frame.requestId.getD "") = some (base, revision) ∧
      frame.baseRevision = some base ∧ frame.revision = some revision ∧
      ch.browser = some socket := by
  unfold check at h
  dsimp only at h
  split_ifs at h with hmatch hsocket
  obtain ⟨hknown, -⟩ := Prod.mk.inj (Except.ok.inj h)
  obtain ⟨⟨base, revision⟩, hexpected⟩ := isSome_iff_exists.1 hknown
  rw [hexpected] at hmatch
  have hfields : frame.baseRevision = some base ∧ frame.revision = some revision := by
    simpa using hmatch
  exact ⟨base, revision, hexpected, hfields.1, hfields.2, not_not.1 hsocket⟩

lemma check_of_expected
    (h : ch.renderExpected.lookup (frame.requestId.getD "") = some (base, revision))
    (hbase : frame.baseRevision = some base) (hrevision : frame.revision = some revision)
    (hsocket : ch.browser = some socket) : ch.check socket frame = .ok (true, ch.agent.isSome) := by
  simp [check, h, hbase, hrevision, hsocket]

end Channel

lemma requestId_of_check {role : Role} {frame : Frame}
    (h : checkPreviewResult role frame = .ok ()) :
    role = .user ∧ ∃ id, frame.requestId = some id := by
  unfold checkPreviewResult at h
  cases htask : boundedString frame.taskId with
  | error why => rw [htask] at h; cases h
  | ok task =>
    cases hrequest : boundedString frame.requestId with
    | error why => rw [htask, hrequest] at h; cases h
    | ok id =>
      cases hbase : boundedString frame.baseRevision with
      | error why => rw [htask, hrequest, hbase] at h; cases h
      | ok base =>
        rw [htask, hrequest, hbase] at h
        change (if role ≠ .user ∨ _ then _ else _) = _ at h
        split_ifs at h with hrole
        refine ⟨not_not.1 fun hne => hrole (.inl hne), ?_⟩
        cases hid : frame.requestId with
        | none => rw [hid] at hrequest; cases hrequest
        | some id => exact ⟨id, rfl⟩

namespace Hub

/-- A call waits for a result under the id. -/
def Waits (s : Hub) (id : String) : Prop :=
  ∃ c call, s.calls c = some call ∧ call.phase = .waiting ∧ call.id = id

/-- An id that is used again finds no result of another identity, cached or on its way. No waiting
call's identity is given up for another render. The agent takes a result that answers a waiting
call. -/
def Steady (digest : String → String) (s : Hub) : Op → Prop
  | .render c frame accepts order =>
    let id := frame.id.getD ""
    let base := frame.baseRevision.getD ""
    let revision := frame.revision.getD ""
    (∀ v, s.channel.renderResults.lookup id = some v → v.Answers id base revision) ∧
      ((∃ ch, s.channel.render c frame accepts order = .ok (ch, .waiting)) →
        (∀ r relay, s.relays r = some relay → relay.Carrying → relay.frame.requestId = some id →
          relay.frame.Answers id base revision) ∧
        ∀ oldest, s.channel.givenUp order id (base, revision) = some oldest →
          oldest ≠ id ∧ ¬s.Waits oldest)
  | .deliver r limited accepts =>
    ∀ relay c call, s.relays r = some relay → relay.known = true → s.calls c = some call →
      call.phase = .waiting → relay.frame.Answers call.id call.base call.revision →
      ∃ p, s.channel.deliver digest .user relay.socket relay.frame limited accepts = .ok p
  | _ => True

structure Inv (s : Hub) : Prop where
  few : s.channel.renderExpected.keys.card ≤ 64
  waiter : ∀ c call, s.calls c = some call → call.phase = .waiting →
    s.channel.renderWaiters.lookup call.id = some c
  named : ∀ id c, s.channel.renderWaiters.lookup id = some c →
    ∃ call, s.calls c = some call ∧ call.id = id
  expected : ∀ c call, s.calls c = some call → call.phase = .waiting →
    s.channel.renderExpected.lookup call.id = some (call.base, call.revision)
  carried : ∀ r relay, s.relays r = some relay → relay.Carrying →
    relay.frame ∈ s.heard ∧ ∃ id, relay.frame.requestId = some id
  staged : ∀ r relay reply, s.relays r = some relay →
    relay.stage = .settling reply ∨ relay.stage = .storing reply → relay.known = true
  held : ∀ r relay c call, s.relays r = some relay → relay.Carrying → s.calls c = some call →
    call.phase = .waiting → relay.frame.requestId = some call.id →
    relay.frame.Answers call.id call.base call.revision
  cached : ∀ id v, s.channel.renderResults.lookup id = some v →
    v ∈ s.heard ∧ v.requestId = some id
  answered : ∀ c call v, s.calls c = some call → call.phase = .answered v →
    v ∈ s.heard ∧ v.Answers call.id call.base call.revision

variable {s t : Hub} {c r : ℕ} {call : Call} {relay : Relay} {ch : Channel} {frame : Frame}

lemma calls_setCall_self : (s.setCall c call).calls c = some call := update_self ..

variable {d q : ℕ} {digest : String → String} {accepts : Bool} {order : ℕ → ℕ}
  {reply : Option String}

lemma calls_setCall_of_ne (h : d ≠ c) : (s.setCall c call).calls d = s.calls d :=
  update_of_ne h ..

lemma relays_setRelay_self : (s.setRelay r relay).relays r = some relay := update_self ..

lemma relays_setRelay_of_ne (h : q ≠ r) :
    (s.setRelay r relay).relays q = s.relays q := update_of_ne h ..

lemma of_calls_setCall {old : Call} (h : (s.setCall c call).calls d = some old) :
    (d = c ∧ old = call) ∨ (d ≠ c ∧ s.calls d = some old) := by
  by_cases hd : d = c
  · subst hd
    rw [calls_setCall_self] at h
    exact .inl ⟨rfl, (some.inj h).symm⟩
  · rw [calls_setCall_of_ne hd] at h
    exact .inr ⟨hd, h⟩

lemma of_relays_setRelay {old : Relay} (h : (s.setRelay r relay).relays q = some old) :
    (q = r ∧ old = relay) ∨ (q ≠ r ∧ s.relays q = some old) := by
  by_cases hq : q = r
  · subst hq
    rw [relays_setRelay_self] at h
    exact .inl ⟨rfl, (some.inj h).symm⟩
  · rw [relays_setRelay_of_ne hq] at h
    exact .inr ⟨hq, h⟩

lemma Inv.setChannel (hs : s.Inv) (ch : Channel)
    (hwaiters : ch.renderWaiters = s.channel.renderWaiters)
    (hexpected : ch.renderExpected = s.channel.renderExpected)
    (hresults : ∀ id v, ch.renderResults.lookup id = some v →
      v ∈ s.heard ∧ v.requestId = some id) : (s.setChannel ch).Inv where
  few := hexpected ▸ hs.few
  waiter := fun c call hc hw => hwaiters ▸ hs.waiter c call hc hw
  named := fun id c h => hs.named id c (hwaiters ▸ h)
  expected := fun c call hc hw => hexpected ▸ hs.expected c call hc hw
  carried := hs.carried
  staged := hs.staged
  held := hs.held
  cached := hresults
  answered := hs.answered

lemma Inv.sameRenders (hs : s.Inv) (h : ch.renderWaiters = s.channel.renderWaiters ∧
    ch.renderExpected = s.channel.renderExpected ∧ ch.renderResults = s.channel.renderResults) :
    (s.setChannel ch).Inv :=
  hs.setChannel ch h.1 h.2.1 fun id v hv => hs.cached id v (h.2.2 ▸ hv)

/-- A call that does not wait any more, or never did. -/
lemma Inv.setCall (hs : s.Inv) (hid : ∀ old, s.calls c = some old → old.id = call.id)
    (hphase : call.phase ≠ .waiting)
    (hanswer : ∀ v, call.phase = .answered v →
      v ∈ s.heard ∧ v.Answers call.id call.base call.revision) : (s.setCall c call).Inv where
  few := hs.few
  waiter := fun d old hd hw => by
    rcases of_calls_setCall hd with ⟨-, rfl⟩ | ⟨-, hd⟩
    · exact absurd hw hphase
    · exact hs.waiter d old hd hw
  named := fun id d h => by
    obtain ⟨old, hd, hold⟩ := hs.named id d h
    by_cases hdc : d = c
    · subst hdc
      exact ⟨call, calls_setCall_self, (hid old hd).symm.trans hold⟩
    · exact ⟨old, (calls_setCall_of_ne hdc).trans hd, hold⟩
  expected := fun d old hd hw => by
    rcases of_calls_setCall hd with ⟨-, rfl⟩ | ⟨-, hd⟩
    · exact absurd hw hphase
    · exact hs.expected d old hd hw
  carried := hs.carried
  staged := hs.staged
  held := fun r relay d old hr hcarry hd hw hrequest => by
    rcases of_calls_setCall hd with ⟨-, rfl⟩ | ⟨-, hd⟩
    · exact absurd hw hphase
    · exact hs.held r relay d old hr hcarry hd hw hrequest
  cached := hs.cached
  answered := fun d old v hd hv => by
    rcases of_calls_setCall hd with ⟨-, rfl⟩ | ⟨-, hd⟩
    · exact hanswer v hv
    · exact hs.answered d old v hd hv

lemma Inv.setPhase (hs : s.Inv) (hc : s.calls c = some call) (phase : Phase)
    (hphase : phase ≠ .waiting) (hanswer : ∀ v, phase ≠ .answered v) :
    (s.setCall c { call with phase := phase }).Inv := by
  refine hs.setCall (fun old hold => ?_) hphase fun v hv => absurd hv (hanswer v)
  cases hc.symm.trans hold
  rfl

lemma Inv.dropSender (hs : s.Inv) (c : ℕ) : (s.dropSender c).Inv := by
  unfold Hub.dropSender
  split
  · next call hc =>
    split_ifs
    · exact hs.setPhase hc _ (by simp) (by simp)
    · exact hs
  · exact hs

lemma Inv.eraseWaiter (hs : s.Inv) (id : String)
    (h : ∀ c call, s.channel.renderWaiters.lookup id = some c → s.calls c = some call →
      call.phase ≠ .waiting) :
    (s.setChannel { s.channel with
      renderWaiters := s.channel.renderWaiters.erase id }).Inv where
  few := hs.few
  waiter := fun c call hc hw => by
    have hlookup := hs.waiter c call hc hw
    have hne : call.id ≠ id := by
      rintro rfl
      exact h c call hlookup hc hw
    exact (lookup_erase_ne hne).trans hlookup
  named := fun key c hc => hs.named key c (Channel.lookup_of_erase hc).2
  expected := hs.expected
  carried := hs.carried
  staged := hs.staged
  held := hs.held
  cached := hs.cached
  answered := hs.answered

lemma Inv.setRelay (hs : s.Inv)
    (hcarried : relay.Carrying → relay.frame ∈ s.heard ∧ ∃ id, relay.frame.requestId = some id)
    (hstaged : ∀ reply, relay.stage = .settling reply ∨ relay.stage = .storing reply →
      relay.known = true)
    (hheld : relay.Carrying → ∀ c call, s.calls c = some call → call.phase = .waiting →
      relay.frame.requestId = some call.id →
      relay.frame.Answers call.id call.base call.revision) : (s.setRelay r relay).Inv where
  few := hs.few
  waiter := hs.waiter
  named := hs.named
  expected := hs.expected
  carried := fun q old hq hcarry => by
    rcases of_relays_setRelay hq with ⟨-, rfl⟩ | ⟨-, hq⟩
    · exact hcarried hcarry
    · exact hs.carried q old hq hcarry
  staged := fun q old reply hq hstage => by
    rcases of_relays_setRelay hq with ⟨-, rfl⟩ | ⟨-, hq⟩
    · exact hstaged reply hstage
    · exact hs.staged q old reply hq hstage
  held := fun q old c call hq hcarry hc hw hrequest => by
    rcases of_relays_setRelay hq with ⟨-, rfl⟩ | ⟨-, hq⟩
    · exact hheld hcarry c call hc hw hrequest
    · exact hs.held q old c call hq hcarry hc hw hrequest
  cached := hs.cached
  answered := hs.answered

lemma Inv.finish (hs : s.Inv) (relay : Relay) (reply : Except Refusal (Option String)) :
    (s.setRelay r { relay with stage := .done reply }).Inv :=
  hs.setRelay (fun h => absurd rfl (h.2 reply)) (fun _ h => by simp at h)
    fun h => absurd rfl (h.2 reply)

lemma Inv.advance (hs : s.Inv) (hr : s.relays r = some relay) (hcarry : relay.Carrying)
    (stage : Stage) : (s.setRelay r { relay with stage := stage }).Inv :=
  hs.setRelay (fun _ => hs.carried r relay hr hcarry) (fun _ _ => hcarry.1)
    fun _ c call hc hw => hs.held r relay c call hr hcarry hc hw

lemma Inv.hear (hs : s.Inv) (frame : Frame) : Inv { s with heard := frame :: s.heard } where
  few := hs.few
  waiter := hs.waiter
  named := hs.named
  expected := hs.expected
  carried := fun r relay hr hcarry =>
    (hs.carried r relay hr hcarry).imp_left (mem_cons_of_mem _)
  staged := hs.staged
  held := hs.held
  cached := fun id v hv => (hs.cached id v hv).imp_left (mem_cons_of_mem _)
  answered := fun c call v hc hv =>
    (hs.answered c call v hc hv).imp_left (mem_cons_of_mem _)

/-- A render call is registered. -/
lemma Inv.register (hs : s.Inv) (hc : s.calls c = none)
    (ho : s.Steady digest (.render c frame accepts order))
    (h : s.channel.render c frame accepts order = .ok (ch, .waiting)) :
    ((s.setChannel ch).setCall c ⟨frame.id.getD "", frame.baseRevision.getD "",
      frame.revision.getD "", .waiting⟩).Inv := by
  obtain ⟨hnew, waiting, rfl, rfl⟩ := Channel.render_waiting h
  obtain ⟨hway, hgiven⟩ := ho.2 ⟨_, h⟩
  obtain ⟨hcard, hlookup⟩ := Channel.trimExpected_expect hs.few order c
    (frame.id.getD "") (frame.baseRevision.getD "") (frame.revision.getD "")
  have hfewer := Channel.trimExpected_fewer order
    ((s.channel.expect c (frame.id.getD "") (frame.baseRevision.getD "")
      (frame.revision.getD "")).renderExpected.keys.card - 64)
    (s.channel.expect c (frame.id.getD "") (frame.baseRevision.getD "") (frame.revision.getD ""))
  generalize frame.id.getD "" = id at *
  generalize frame.baseRevision.getD "" = base at *
  generalize frame.revision.getD "" = revision at *
  have hother : ∀ d old, s.calls d = some old → old.phase = .waiting → old.id ≠ id := by
    rintro d old hd hw rfl
    exact hnew (mem_of_lookup_eq_some (hs.waiter d old hd hw))
  have hwaiters : (Channel.trimExpected order ((s.channel.expect c id base
      revision).renderExpected.keys.card - 64) (s.channel.expect c id base
      revision)).renderWaiters = s.channel.renderWaiters.insert id c := hfewer.waiters
  refine ⟨hcard, fun d old hd hw => ?_, fun key d hd => ?_, fun d old hd hw => ?_, hs.carried,
    hs.staged, fun r relay d old hr hcarry hd hw hrequest => ?_, fun key v hv => ?_,
    fun d old v hd hv => ?_⟩
  · change (Channel.trimExpected _ _ _).renderWaiters.lookup _ = _
    rw [hwaiters]
    rcases of_calls_setCall hd with ⟨rfl, rfl⟩ | ⟨-, hd⟩
    · exact lookup_insert _
    · exact (lookup_insert_of_ne _ (hother d old hd hw)).trans (hs.waiter d old hd hw)
  · change (Channel.trimExpected _ _ _).renderWaiters.lookup _ = _ at hd
    rw [hwaiters] at hd
    rcases Channel.lookup_of_insert hd with ⟨rfl, rfl⟩ | ⟨-, hd⟩
    · exact ⟨_, calls_setCall_self, rfl⟩
    · obtain ⟨old, hold, hid⟩ := hs.named key d hd
      have hne : d ≠ c := by
        rintro rfl
        cases hc.symm.trans hold
      exact ⟨old, (calls_setCall_of_ne hne).trans hold, hid⟩
  · rcases of_calls_setCall hd with ⟨rfl, rfl⟩ | ⟨-, hd⟩
    · refine (hlookup id fun hk => (hgiven id hk).1 rfl).trans (lookup_insert _)
    · have hne := hother d old hd hw
      have hkept := hlookup old.id fun hk => (hgiven old.id hk).2 ⟨d, old, hd, hw, rfl⟩
      exact hkept.trans ((lookup_insert_of_ne _ hne).trans (hs.expected d old hd hw))
  · rcases of_calls_setCall hd with ⟨rfl, rfl⟩ | ⟨-, hd⟩
    · exact hway r relay hr hcarry hrequest
    · exact hs.held r relay d old hr hcarry hd hw hrequest
  · exact hs.cached key v (hfewer.results key v hv)
  · rcases of_calls_setCall hd with ⟨rfl, rfl⟩ | ⟨-, hd⟩
    · cases hv
    · exact hs.answered d old v hd hv

lemma Inv.render (hs : s.Inv) (hc : s.calls c = none)
    (ho : s.Steady digest (.render c frame accepts order)) :
    (s.render c frame accepts order).Inv := by
  have hfresh : ∀ old : Call, s.calls c = some old → ∀ id, old.id = id := fun old hold =>
    nomatch hc.symm.trans hold
  unfold Hub.render
  dsimp only
  split
  · exact hs.setCall (fun old hold => hfresh old hold _) (by simp) (by simp)
  · next ch v h =>
    obtain ⟨hv, rfl⟩ := Channel.render_cached h
    have hchannel := hs.setChannel { s.channel with
      renderResults := s.channel.renderResults.erase (frame.id.getD "") } rfl rfl
      fun id w hw => hs.cached id w (Channel.lookup_of_erase hw).2
    refine hchannel.setCall (fun old hold => hfresh old hold _) (by simp) fun w hw => ?_
    cases hw
    exact ⟨(hs.cached _ v hv).1, ho.1 v hv⟩
  · next ch h => exact hs.register hc ho h

lemma channel_dropSender (s : Hub) (c : ℕ) : (s.dropSender c).channel = s.channel := by
  unfold Hub.dropSender
  split
  · split_ifs <;> rfl
  · rfl

lemma dropSender_setChannel (s : Hub) (ch : Channel) (c : ℕ) :
    (s.setChannel ch).dropSender c = (s.dropSender c).setChannel ch := by
  have hcalls : (s.setChannel ch).calls c = s.calls c := rfl
  unfold Hub.dropSender
  rw [hcalls]
  cases s.calls c with
  | none => rfl
  | some call =>
    dsimp only
    split_ifs <;> rfl

/-- A call whose sender is dropped does not wait. -/
lemma not_waiting_dropSender (hc : (s.dropSender c).calls c = some call) :
    call.phase ≠ .waiting := by
  unfold Hub.dropSender at hc
  split at hc
  · next old hold =>
    split_ifs at hc with hwaits
    · rw [calls_setCall_self] at hc
      cases hc
      simp
    · cases hold.symm.trans hc
      exact hwaits
  · next hnone => cases hnone.symm.trans hc

lemma Inv.giveUp (hs : s.Inv) (hc : s.calls c = some call) : (s.giveUp c call).Inv := by
  have hover := hs.setPhase hc (.refused (504, "renderer timed out")) (by simp) (by simp)
  unfold Hub.giveUp
  dsimp only
  split
  · next waiter hwaiter =>
    have herased := (hover.dropSender waiter).eraseWaiter call.id fun d old hd hold => by
      rw [channel_dropSender] at hd
      cases hwaiter.symm.trans hd
      exact not_waiting_dropSender hold
    rw [channel_dropSender] at herased
    change (((s.setCall c _).setChannel _).dropSender waiter).Inv
    rw [dropSender_setChannel]
    exact herased
  · next hnone =>
    exact hover.eraseWaiter call.id fun d old hd => nomatch hnone.symm.trans hd

lemma Inv.refuse (hs : s.Inv) (r : ℕ) (socket : ℕ) (frame : Frame) (why : Refusal) :
    (s.setRelay r ⟨socket, frame, false, .done (.error why)⟩).Inv :=
  hs.finish ⟨socket, frame, false, .delivering⟩ _

lemma Inv.result (hs : s.Inv) (r : ℕ) (role : Role) (socket : ℕ) (frame : Frame) :
    (s.result r role socket frame).Inv := by
  unfold Hub.result
  extract_lets s'
  have hs' : s'.Inv := by
    change (if _ then _ else _ : Hub).Inv
    split_ifs
    · exact hs.hear frame
    · exact hs
  split
  · exact hs'.refuse r socket frame _
  · next hvalid =>
    obtain ⟨rfl, id, hid⟩ := requestId_of_check hvalid
    have hknown : ∀ agent, s'.channel.check socket frame = .ok (true, agent) →
        frame ∈ s'.heard ∧ ∀ c call, s'.calls c = some call → call.phase = .waiting →
          frame.requestId = some call.id → frame.Answers call.id call.base call.revision := by
      intro agent hcheck
      obtain ⟨base, revision, hexpected, hbase, hrevision, hbrowser⟩ := Channel.check_known hcheck
      have hheard : s' = { s with heard := frame :: s.heard } := by
        have hchannel : s'.channel = s.channel := by
          change (if _ then _ else _ : Hub).channel = _
          split_ifs <;> rfl
        exact if_pos ⟨rfl, hchannel ▸ hbrowser⟩
      refine ⟨hheard ▸ mem_cons_self, fun c call hc hw hrequest => ?_⟩
      have hcall := hs'.expected c call hc hw
      rw [hrequest] at hexpected
      obtain ⟨rfl, rfl⟩ := Prod.mk.inj (some.inj (hcall.symm.trans hexpected))
      exact ⟨hrequest, hbase, hrevision⟩
    split
    · exact hs'.refuse r socket frame _
    · next known hcheck =>
      refine hs'.setRelay (fun h => ?_) (fun _ h => by simp at h) fun h => ?_
      · obtain rfl : known = true := h.1
        exact ⟨(hknown _ hcheck).1, id, hid⟩
      · obtain rfl : known = true := h.1
        exact (hknown _ hcheck).2
    · next hcheck =>
      exact hs'.setRelay (fun _ => ⟨(hknown _ hcheck).1, id, hid⟩) (fun _ _ => rfl)
        fun _ => (hknown _ hcheck).2
    · exact hs'.refuse r socket frame _

lemma Inv.deliver (hs : s.Inv) (digest : String → String) (limited accepts : Bool)
    (hr : s.relays r = some relay) (hstage : relay.stage = .delivering) :
    (s.deliver digest r relay limited accepts).Inv := by
  unfold Hub.deliver
  split
  · exact hs.finish relay _
  · next ch reply h =>
    have hs' := hs.sameRenders (Channel.deliver_renders h)
    split_ifs with hknown
    · have hcarry : relay.Carrying := ⟨hknown, fun _ h => nomatch hstage.symm.trans h⟩
      exact hs'.advance hr hcarry _
    · exact hs'.finish relay _

lemma Inv.settle (hs : s.Inv) (hr : s.relays r = some relay)
    (hstage : relay.stage = .settling reply) : (s.settle r relay reply).Inv := by
  have hcarry : relay.Carrying :=
    ⟨hs.staged r relay reply hr (.inl hstage), fun _ h => nomatch hstage.symm.trans h⟩
  obtain ⟨hheard, id, hid⟩ := hs.carried r relay hr hcarry
  unfold Hub.settle
  dsimp only
  rw [hid, getD_some]
  cases hwaiter : s.channel.renderWaiters.lookup id with
  | none =>
    have herased := hs.eraseWaiter id fun c call hc => nomatch hwaiter.symm.trans hc
    exact herased.advance hr hcarry _
  | some c =>
    obtain ⟨call, hc, hcall⟩ := hs.named id c hwaiter
    have hphase : call.phase ≠ .waiting →
        (s.setChannel { s.channel with
          renderWaiters := s.channel.renderWaiters.erase id }).Inv := fun hne =>
      hs.eraseWaiter id fun d old hd hold => by
        cases hwaiter.symm.trans hd
        cases hc.symm.trans hold
        exact hne
    rw [bind_some, hc, map_some]
    dsimp only
    split
    · next hw =>
      have hanswers := hs.held r relay c call hr hcarry hc hw (hcall ▸ hid)
      have hanswered : (s.setCall c { call with phase := .answered relay.frame }).Inv := by
        refine hs.setCall (fun old hold => ?_) (by simp) fun v hv => ?_
        · cases hc.symm.trans hold
          rfl
        · cases hv
          exact ⟨hheard, hanswers⟩
      have herased := hanswered.eraseWaiter id fun d old hd hold => by
        cases hwaiter.symm.trans hd
        rw [calls_setCall_self] at hold
        cases hold
        simp
      exact herased.finish relay _
    · next hw => exact (hphase (by rw [hw]; simp)).finish relay _
    · next hw _ => exact (hphase hw).advance hr hcarry _

lemma Inv.store (hs : s.Inv) (order : ℕ → ℕ) (hr : s.relays r = some relay)
    (hstage : relay.stage = .storing reply) : (s.store r relay reply order).Inv := by
  have hcarry : relay.Carrying :=
    ⟨hs.staged r relay reply hr (.inr hstage), fun _ h => nomatch hstage.symm.trans h⟩
  obtain ⟨hheard, id, hid⟩ := hs.carried r relay hr hcarry
  unfold Hub.store
  extract_lets _ held
  obtain ⟨hfewer, hexpected⟩ :=
    Channel.trimResults_fewer order (held.renderResults.keys.card - 32) held
  refine (hs.setChannel _ hfewer.waiters hexpected fun key v hv => ?_).finish relay _
  rcases Channel.lookup_of_insert (hfewer.results key v hv) with ⟨rfl, rfl⟩ | ⟨-, hv⟩
  · rw [hid]
    exact ⟨hheard, rfl⟩
  · exact hs.cached key v hv

lemma Inv.step (hs : s.Inv) {op : Op} (ho : s.Steady digest op) (h : s.step digest op = some t) :
    t.Inv := by
  cases op <;> dsimp only [Hub.step] at h
  case attach role binding socket =>
    split at h
    · next ch hch =>
      cases h
      exact hs.sameRenders (Channel.attachBound_renders hch)
    · cases h
      exact hs
  case detach socket =>
    cases h
    exact hs.sameRenders (s.channel.detach_renders socket)
  case event role socket frame limited accepts =>
    split at h
    · next ch reply hch =>
      cases h
      exact hs.sameRenders (Channel.deliver_renders hch)
    · cases h
      exact hs
  case render c frame accepts order =>
    split_ifs at h with hc
    cases h
    exact hs.render hc ho
  case expire c =>
    split at h
    · next call hc =>
      split_ifs at h
      cases h
      exact hs.setPhase hc _ (by simp) (by simp)
    · cases h
  case close c =>
    split at h
    · next call hc =>
      split_ifs at h
      cases h
      exact hs.setPhase hc _ (by simp) (by simp)
    · cases h
  case giveUp c =>
    split at h
    · next call hc =>
      split_ifs at h
      cases h
      exact hs.giveUp hc
    · cases h
  case result r role socket frame =>
    split_ifs at h
    cases h
    exact hs.result r role socket frame
  case deliver r limited accepts =>
    split at h
    · next relay hr =>
      split_ifs at h with hstage
      cases h
      exact hs.deliver digest limited accepts hr hstage
    · cases h
  case settle r =>
    split at h
    · next relay hr =>
      split at h
      · next reply hstage =>
        cases h
        exact hs.settle hr hstage
      · cases h
    · cases h
  case store r order =>
    split at h
    · next relay hr =>
      split at h
      · next reply hstage =>
        cases h
        exact hs.store order hr hstage
      · cases h
    · cases h

lemma inv_empty : empty.Inv where
  few := by
    have hnone : empty.channel.renderExpected.keys = ∅ := keys_empty
    rw [hnone, Finset.card_empty]
    exact Nat.zero_le _
  waiter := fun _ _ hc _ => nomatch hc
  named := fun id c h => by
    have hnone : empty.channel.renderWaiters.lookup id = none := lookup_empty id
    rw [hnone] at h
    cases h
  expected := fun _ _ hc _ => nomatch hc
  carried := fun _ _ hr _ => nomatch hr
  staged := fun _ _ _ hr _ => nomatch hr
  held := fun _ _ _ _ hr _ => nomatch hr
  cached := fun id v h => by
    have hnone : empty.channel.renderResults.lookup id = none := lookup_empty id
    rw [hnone] at h
    cases h
  answered := fun _ _ _ hc _ => nomatch hc

lemma inv_of_run {l : List Op} (h : Run (step digest) (Steady digest) empty l s) : s.Inv :=
  h.invariant (fun _ _ _ hs ho => hs.step ho) inv_empty

end Hub
end LibrePaper.Renders
