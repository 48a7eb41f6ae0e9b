import LibrePaper.Library.Lists
import LibrePaper.Library.Runs

/-!
# Queues of frames for sockets

Every queue bounds its frames and bytes, and all of them share the bytes of one budget. A frame is
reserved in its queue, admitted by the budget and enqueued, one after the other, and what it was
reserved is given back in two steps. A close that is forced reserves nothing.
-/
namespace LibrePaper.Storage.Queues
open Library Option List

inductive Outgoing
  | text (value : String)
  | close (reason : String)
deriving DecidableEq

def Outgoing.bytes : Outgoing → ℕ
  | text value => value.utf8ByteSize + 2
  | close reason => reason.utf8ByteSize + 2

/-- The state of a queue. Its channel has one slot more than the frames it may reserve. -/
structure QueueState where
  frames : ℕ
  bytes : ℕ
  frameLimit : ℕ
  byteLimit : ℕ
  alive : Bool

namespace QueueState

def channel (frameLimit byteLimit : ℕ) : QueueState :=
  ⟨0, 0, max frameLimit 1, max byteLimit 1, true⟩

def reserve (queue : QueueState) (bytes : ℕ) : Option QueueState :=
  if queue.frameLimit ≤ queue.frames ∨ queue.byteLimit < queue.bytes + bytes then none
  else some { queue with frames := queue.frames + 1, bytes := queue.bytes + bytes }

def release (queue : QueueState) (bytes : ℕ) : QueueState :=
  { queue with frames := queue.frames - 1, bytes := queue.bytes - bytes }

end QueueState

structure SocketBudget where
  queueFrames : ℕ
  queueBytes : ℕ
  queueBytesMax : ℕ

namespace SocketBudget

def queueAdmit (budget : SocketBudget) (bytes : ℕ) : Option SocketBudget :=
  if budget.queueBytesMax < budget.queueBytes + bytes then none
  else some { budget with
    queueFrames := budget.queueFrames + 1
    queueBytes := budget.queueBytes + bytes }

def queueRemove (budget : SocketBudget) (frames bytes : ℕ) : SocketBudget :=
  { budget with
    queueFrames := budget.queueFrames - frames
    queueBytes := budget.queueBytes - bytes }

end SocketBudget

/-- How far a frame is. A frame that the budget refused, or that is dropped, has yet to be released
by its queue, and a released one to be removed from the budget. -/
inductive Stage
  | reserved
  | refused
  | admitted
  | queued
  | held
  | dropped
  | released
deriving DecidableEq

/-- A frame with the bytes that it was reserved. -/
structure QueuedOutgoing where
  queue : ℕ
  outgoing : Outgoing
  durability : Bool
  reservation : Option ℕ
  stage : Stage
deriving DecidableEq

/-- The frames are in the order in which they were made, and those of a channel in its order. -/
structure System where
  queues : ℕ → QueueState
  budget : SocketBudget
  items : List QueuedOutgoing

inductive Action
  | trySend (queue : ℕ) (outgoing : Outgoing) (durability : Bool)
  | enter (item : ℕ)
  | enqueue (item : ℕ)
  | forceClose (queue : ℕ) (reason : String)
  | recv (queue : ℕ)
  | drop (item : ℕ)
  | dropReceiver (queue : ℕ)
  | release (item : ℕ)
  | queueRemove (item : ℕ)

namespace System

/-- Queues of any limits, with nothing sent. -/
def fresh (limits : ℕ → ℕ × ℕ) (queueBytesMax : ℕ) : System :=
  ⟨fun i => .channel (limits i).1 (limits i).2, ⟨0, 0, queueBytesMax⟩, []⟩

def waits (i : ℕ) (x : QueuedOutgoing) : Bool := x.queue = i ∧ x.stage = .queued

/-- Whether the channel of a queue takes one more frame. -/
def room (s : System) (i : ℕ) : Bool :=
  (s.queues i).alive ∧ (s.items.filter (waits i)).length < (s.queues i).frameLimit + 1

def forceClose (s : System) (i : ℕ) (reason : String) : Option System :=
  if s.room i then
    some { s with items := s.items ++ [⟨i, .close reason, true, none, .queued⟩] }
  else none

def put (s : System) (k : ℕ) (x : QueuedOutgoing) (stage : Stage) : System :=
  { s with items := s.items.set k { x with stage := stage } }

def setQueue (s : System) (i : ℕ) (queue : QueueState) : System :=
  { s with queues := Function.update s.queues i queue }

def dropReceiver (s : System) (i : ℕ) : System :=
  { s.setQueue i { s.queues i with alive := false } with
    items := s.items.map fun x => if waits i x then { x with stage := .dropped } else x }

def step (s : System) : Action → Option System
  | .trySend i outgoing durability =>
    match (s.queues i).reserve outgoing.bytes with
    | none => some s
    | some queue => some { s.setQueue i queue with
        items := s.items ++ [⟨i, outgoing, durability, some outgoing.bytes, .reserved⟩] }
  | .enter k =>
    match s.items[k]? with
    | some ⟨i, outgoing, durability, some bytes, .reserved⟩ =>
      let x : QueuedOutgoing := ⟨i, outgoing, durability, some bytes, .reserved⟩
      match s.budget.queueAdmit bytes with
      | none => some (s.put k x .refused)
      | some budget => some { s.put k x .admitted with budget := budget }
    | _ => none
  | .enqueue k =>
    match s.items[k]? with
    | some x =>
      if x.stage = .admitted then
        if s.room x.queue then
          some { s with items := s.items.eraseIdx k ++ [{ x with stage := .queued }] }
        else some (s.put k x .dropped)
      else none
    | none => none
  | .forceClose i reason => some ((s.forceClose i reason).getD s)
  | .recv i =>
    match s.items.findIdx? (waits i) with
    | some k => s.items[k]?.map fun x => s.put k x .held
    | none => none
  | .drop k =>
    match s.items[k]? with
    | some x => if x.stage = .held then some (s.put k x .dropped) else none
    | none => none
  | .dropReceiver i => some (s.dropReceiver i)
  | .release k =>
    match s.items[k]? with
    | some ⟨_, _, _, none, .dropped⟩ => some { s with items := s.items.eraseIdx k }
    | some ⟨i, _, _, some bytes, .refused⟩ =>
      some { s.setQueue i ((s.queues i).release bytes) with items := s.items.eraseIdx k }
    | some ⟨i, outgoing, durability, some bytes, .dropped⟩ =>
      some ((s.setQueue i ((s.queues i).release bytes)).put k
        ⟨i, outgoing, durability, some bytes, .dropped⟩ .released)
    | _ => none
  | .queueRemove k =>
    match s.items[k]? with
    | some ⟨_, _, _, some bytes, .released⟩ => some { s with
        budget := s.budget.queueRemove 1 bytes
        items := s.items.eraseIdx k }
    | _ => none

/-- The counts of a queue, or those of the budget. -/
def counts (s : System) : Option ℕ → ℕ × ℕ
  | some i => ((s.queues i).frames, (s.queues i).bytes)
  | none => (s.budget.queueFrames, s.budget.queueBytes)

end System

/-- One frame and its bytes, if any are reserved. -/
def QueuedOutgoing.reserved (x : QueuedOutgoing) : ℕ × ℕ :=
  x.reservation.elim 0 fun bytes => (1, bytes)

/-- What a queue, or the budget, has yet to be given back for a frame. -/
def QueuedOutgoing.charge (x : QueuedOutgoing) : Option ℕ → ℕ × ℕ
  | some i => if x.queue = i ∧ x.stage ≠ .released then x.reserved else 0
  | none => if x.stage = .reserved ∨ x.stage = .refused then 0 else x.reserved

/-- A frame that is neither on its way in nor released is charged to both. -/
def Stage.charged (stage : Stage) : Bool :=
  stage = .admitted ∨ stage = .queued ∨ stage = .held ∨ stage = .dropped

lemma charge_charged {x : QueuedOutgoing} (hx : x.stage.charged = true) (account : Option ℕ) :
    x.charge account = if account.all fun i => x.queue = i then x.reserved else 0 := by
  have hstage : x.stage ≠ .reserved ∧ x.stage ≠ .refused ∧ x.stage ≠ .released := by
    refine ⟨?_, ?_, ?_⟩
    all_goals
      intro hno
      rw [hno] at hx
      cases hx
  cases account with
  | none => simp [QueuedOutgoing.charge, hstage]
  | some i => simp [QueuedOutgoing.charge, hstage]

lemma charge_stage {x : QueuedOutgoing} {stage : Stage} (hx : x.stage.charged = true)
    (hstage : stage.charged = true) (account : Option ℕ) :
    ({ x with stage := stage } : QueuedOutgoing).charge account = x.charge account :=
  (charge_charged hstage account).trans (charge_charged hx account).symm

/-- What is to be given back for all frames. -/
def load (items : List QueuedOutgoing) (account : Option ℕ) : ℕ × ℕ :=
  (items.map (·.charge account)).sum

variable {items : List QueuedOutgoing} {k i : ℕ} {x y : QueuedOutgoing} {account : Option ℕ}

lemma load_erase (h : items[k]? = some x) :
    load (items.eraseIdx k) account + x.charge account = load items account := by
  have hsum := sum_eraseIdx (s := items.map (·.charge account)) (i := k)
    (by rw [getElem?_map, h]; rfl)
  rw [eraseIdx_map] at hsum
  exact hsum.symm

lemma load_set (h : items[k]? = some x) :
    load (items.set k y) account + x.charge account = load items account + y.charge account := by
  unfold load
  rw [map_set]
  exact sum_set (by rw [getElem?_map, h]; rfl) _

lemma load_append (items : List QueuedOutgoing) (x : QueuedOutgoing) (account : Option ℕ) :
    load (items ++ [x]) account = load items account + x.charge account := by
  simp [load]

namespace System
variable {s s' : System} {bytes : ℕ} {queue : QueueState} {budget : SocketBudget}

/-- The counts are those of the frames, and no limit is passed. -/
structure Inv (s : System) : Prop where
  counts : ∀ account, s.counts account = load s.items account
  limit : s.budget.queueBytes ≤ s.budget.queueBytesMax
  bound : ∀ i, (s.queues i).frames ≤ (s.queues i).frameLimit

lemma balance {a b : ℕ × ℕ} (h : s.Inv) (hcounts : s'.counts account + a = s.counts account + b)
    (hload : load s'.items account + a = load s.items account + b) :
    s'.counts account = load s'.items account :=
  add_right_cancel ((hcounts.trans (by rw [h.counts account])).trans hload.symm)

lemma Inv.put (h : s.Inv) (hx : s.items[k]? = some x) (stage : Stage)
    (hcharge : ∀ account, ({ x with stage := stage } : QueuedOutgoing).charge account =
      x.charge account) : (s.put k x stage).Inv :=
  ⟨fun account => balance h rfl ((load_set hx).trans (by rw [hcharge])), h.limit, h.bound⟩

lemma counts_setQueue : (s.setQueue i queue).counts account =
    if account = some i then (queue.frames, queue.bytes) else s.counts account := by
  cases account with
  | none => rfl
  | some j =>
    unfold setQueue counts
    by_cases hj : j = i
    · rw [hj, if_pos rfl]
      dsimp only
      rw [Function.update_self]
    · rw [if_neg fun h => hj (some.inj h)]
      dsimp only
      rw [Function.update_of_ne hj]

lemma bound_setQueue (h : s.Inv) (hqueue : queue.frames ≤ queue.frameLimit) (j : ℕ) :
    ((s.setQueue i queue).queues j).frames ≤ ((s.setQueue i queue).queues j).frameLimit := by
  unfold setQueue
  rcases eq_or_ne j i with rfl | hj
  · simpa using hqueue
  · simpa [hj] using h.bound j

lemma Inv.trySend (h : s.Inv) {outgoing : Outgoing} (durability : Bool)
    (hreserve : (s.queues i).reserve outgoing.bytes = some queue) :
    ({ s.setQueue i queue with
      items := s.items ++ [⟨i, outgoing, durability, some outgoing.bytes, .reserved⟩] } :
      System).Inv := by
  unfold QueueState.reserve at hreserve
  split_ifs at hreserve with hfull
  cases hreserve
  push Not at hfull
  refine ⟨fun account => ?_, h.limit, bound_setQueue h hfull.1⟩
  refine balance (a := 0) h (counts_setQueue.trans ?_) (load_append _ _ account)
  cases account with
  | none => rfl
  | some j =>
    rcases eq_or_ne j i with rfl | hj
    · simp [System.counts, QueuedOutgoing.charge, QueuedOutgoing.reserved]
    · simp [QueuedOutgoing.charge, hj, hj.symm]

lemma Inv.enter (h : s.Inv) {outgoing : Outgoing} {durability : Bool}
    (hx : s.items[k]? = some ⟨i, outgoing, durability, some bytes, .reserved⟩)
    (hbudget : s.budget.queueAdmit bytes = some budget) :
    ({ s.put k ⟨i, outgoing, durability, some bytes, .reserved⟩ .admitted with
      budget := budget } : System).Inv := by
  unfold SocketBudget.queueAdmit at hbudget
  split_ifs at hbudget with hfull
  cases hbudget
  refine ⟨fun account => balance h ?_ (load_set hx), Nat.le_of_not_lt hfull, h.bound⟩
  cases account with
  | none => simp [System.counts, QueuedOutgoing.charge, QueuedOutgoing.reserved]
  | some j => simp [System.counts, System.put, QueuedOutgoing.charge, QueuedOutgoing.reserved]

/-- The queue of a frame is given its bytes back. -/
lemma Inv.release (h : s.Inv) (hx : s.items[k]? = some x) (hbytes : x.reservation = some bytes)
    (hstage : x.stage ≠ .released) (hitems : ∀ account, load items account + x.charge account =
      load s.items account + if account = some x.queue then 0 else x.charge account) :
    ({ s.setQueue x.queue ((s.queues x.queue).release bytes) with items := items } :
      System).Inv := by
  have hcharge : x.charge (some x.queue) = (1, bytes) := by
    simp [QueuedOutgoing.charge, QueuedOutgoing.reserved, hstage, hbytes]
  have hcounts := h.counts (some x.queue)
  rw [← load_erase hx, hcharge, System.counts, Prod.ext_iff] at hcounts
  refine ⟨fun account => balance h ?_ (hitems account), h.limit, bound_setQueue h ?_⟩
  · refine (congrArg (· + _) counts_setQueue).trans ?_
    split_ifs with haccount
    · rw [haccount, hcharge, System.counts, QueueState.release, Prod.ext_iff]
      dsimp only [Prod.fst_add, Prod.snd_add] at hcounts ⊢
      constructor
      all_goals
        simp only [Prod.fst_zero, Prod.snd_zero]
        omega
    · rfl
  · exact (Nat.sub_le _ _).trans (h.bound x.queue)

lemma Inv.queueRemove (h : s.Inv) {outgoing : Outgoing} {durability : Bool}
    (hx : s.items[k]? = some ⟨i, outgoing, durability, some bytes, .released⟩) :
    ({ s with budget := s.budget.queueRemove 1 bytes, items := s.items.eraseIdx k } :
      System).Inv := by
  have hcounts := h.counts none
  rw [← load_erase hx, System.counts, Prod.ext_iff] at hcounts
  refine ⟨fun account => balance (b := 0) h ?_ (load_erase hx), (Nat.sub_le _ _).trans h.limit,
    h.bound⟩
  cases account with
  | none =>
    simp only [QueuedOutgoing.charge, QueuedOutgoing.reserved, System.counts, SocketBudget.queueRemove,
      Prod.ext_iff] at hcounts ⊢
    simp at hcounts ⊢
    omega
  | some j => simp [QueuedOutgoing.charge, System.counts]

lemma Inv.forceClose (h : s.Inv) {reason : String} (hs : s.forceClose i reason = some s') :
    s'.Inv := by
  unfold System.forceClose at hs
  split_ifs at hs
  cases hs
  refine ⟨fun account => balance (a := 0) h rfl ?_, h.limit, h.bound⟩
  rw [load_append]
  cases account with
  | none => rfl
  | some j => simp [QueuedOutgoing.charge, QueuedOutgoing.reserved]

lemma Inv.dropReceiver (h : s.Inv) (i : ℕ) : (s.dropReceiver i).Inv := by
  refine ⟨fun account => balance (a := 0) (b := 0) h ?_ (congrArg (· + 0) ?_), h.limit,
    bound_setQueue h (h.bound i)⟩
  · refine congrArg (· + 0) (counts_setQueue.trans ?_)
    split_ifs with haccount
    · rw [haccount]
      rfl
    · rfl
  · unfold System.dropReceiver load
    rw [List.map_map]
    refine congrArg List.sum (List.map_congr_left fun x _ => ?_)
    rw [Function.comp_apply]
    split_ifs with hwaits
    · exact charge_stage (by rw [(of_decide_eq_true hwaits).2]; rfl) rfl account
    · rfl

lemma Inv.step (h : s.Inv) {action : Action} (hs : s.step action = some s') : s'.Inv := by
  cases action <;> dsimp only [System.step] at hs
  case trySend i outgoing durability =>
    split at hs
    · cases hs
      exact h
    · rename_i queue hreserve
      cases hs
      exact h.trySend durability hreserve
  case enter k =>
    split at hs
    · rename_i i outgoing durability bytes hx
      split at hs
      · cases hs
        refine h.put hx .refused fun account => ?_
        cases account with
        | none => rfl
        | some j => simp [QueuedOutgoing.charge, QueuedOutgoing.reserved]
      · rename_i budget hbudget
        cases hs
        exact h.enter hx hbudget
    · cases hs
  case enqueue k =>
    split at hs
    · rename_i x hx
      split_ifs at hs with hstage hroom
      · cases hs
        have hcharge account : ({ x with stage := .queued } : QueuedOutgoing).charge account =
            x.charge account := charge_stage (by rw [hstage]; rfl) rfl account
        refine ⟨fun account => balance (a := 0) (b := 0) h rfl (congrArg (· + 0) ?_), h.limit,
          h.bound⟩
        rw [load_append, hcharge, load_erase hx]
      · cases hs
        exact h.put hx .dropped (charge_stage (by rw [hstage]; rfl) rfl)
    · cases hs
  case forceClose i reason =>
    cases hs
    cases hclose : s.forceClose i reason with
    | none => exact h
    | some t => exact h.forceClose hclose
  case recv i =>
    split at hs
    · rename_i k hk
      obtain ⟨x, hx, rfl⟩ := map_eq_some_iff.1 hs
      have hwaits := of_findIdx?_eq_some hk
      rw [hx] at hwaits
      exact h.put hx .held (charge_stage (by rw [(of_decide_eq_true hwaits).2]; rfl) rfl)
    · cases hs
  case drop k =>
    split at hs
    · rename_i x hx
      split_ifs at hs with hstage
      cases hs
      exact h.put hx .dropped (charge_stage (by rw [hstage]; rfl) rfl)
    · cases hs
  case dropReceiver i =>
    cases hs
    exact h.dropReceiver i
  case release k =>
    split at hs
    · rename_i i outgoing durability hx
      cases hs
      refine ⟨fun account => balance (b := 0) h ?_ (load_erase hx), h.limit, h.bound⟩
      refine congrArg (_ + ·) ?_
      cases account with
      | none => rfl
      | some j => simp [QueuedOutgoing.charge, QueuedOutgoing.reserved]
    · rename_i i outgoing durability bytes hx
      cases hs
      refine h.release hx rfl nofun fun account => (load_erase hx).trans ?_
      cases account with
      | none => rfl
      | some j => rcases eq_or_ne j i with rfl | hj <;> simp [QueuedOutgoing.charge, *, Ne.symm]
    · rename_i i outgoing durability bytes hx
      cases hs
      refine h.release hx rfl nofun fun account => (load_set hx).trans ?_
      cases account with
      | none => rfl
      | some j => rcases eq_or_ne j i with rfl | hj <;> simp [QueuedOutgoing.charge, *, Ne.symm]
    · cases hs
  case queueRemove k =>
    split at hs
    · rename_i i outgoing durability bytes hx
      cases hs
      exact h.queueRemove hx
    · cases hs

lemma inv_fresh (limits : ℕ → ℕ × ℕ) (queueBytesMax : ℕ) : (fresh limits queueBytesMax).Inv :=
  ⟨fun account => by cases account <;> rfl, Nat.zero_le _, fun _ => Nat.zero_le _⟩

/-- Every frame of a queue was reserved, as no close was forced on it. -/
def Unforced (i : ℕ) (s : System) : Prop :=
  ∀ x ∈ s.items, x.queue = i → x.reservation.isSome = true

lemma Unforced.put (h : s.Unforced i) (hx : s.items[k]? = some x) (stage : Stage) :
    (s.put k x stage).Unforced i := by
  intro y hy
  rcases mem_or_eq_of_mem_set hy with hy | rfl
  · exact h y hy
  · exact h x (mem_of_getElem? hx)

lemma Unforced.erase (h : s.Unforced i) (k : ℕ) :
    ({ s with items := s.items.eraseIdx k } : System).Unforced i :=
  fun y hy => h y (mem_of_mem_eraseIdx hy)

lemma Unforced.append (h : s.Unforced i) (hx : x.queue = i → x.reservation.isSome = true) :
    ({ s with items := s.items ++ [x] } : System).Unforced i := by
  intro y hy
  rcases mem_append.1 hy with hy | hy
  · exact h y hy
  · rw [mem_singleton.1 hy]
    exact hx

lemma Unforced.step (h : s.Unforced i) {action : Action}
    (hno : ∀ reason, action ≠ .forceClose i reason) (hs : s.step action = some s') :
    s'.Unforced i := by
  unfold System.step at hs
  split at hs
  · split at hs <;> cases hs
    · exact h
    · exact h.append fun _ => rfl
  · split at hs
    · rename_i hx
      dsimp only at hs
      split at hs <;> cases hs
      all_goals exact h.put hx _
    · cases hs
  · split at hs
    · rename_i x hx
      split_ifs at hs <;> cases hs
      · exact (h.erase _).append (h x (mem_of_getElem? hx))
      · exact h.put hx _
    · cases hs
  · rename_i j reason
    cases hs
    unfold System.forceClose
    split_ifs
    · exact h.append fun hj => absurd (by rw [← hj]) (hno reason)
    · exact h
  · split at hs
    · obtain ⟨x, hx, rfl⟩ := map_eq_some_iff.1 hs
      exact h.put hx _
    · cases hs
  · split at hs
    · rename_i x hx
      split_ifs at hs
      cases hs
      exact h.put hx _
    · cases hs
  · cases hs
    intro y hy
    obtain ⟨x, hx, rfl⟩ := mem_map.1 hy
    have hkept := h x hx
    split_ifs
    all_goals exact hkept
  · split at hs
    · cases hs
      exact h.erase _
    · cases hs
      exact h.erase _
    · rename_i hx
      cases hs
      exact h.put hx _
    · cases hs
  · split at hs <;> cases hs
    exact h.erase _

/-- A frame that waits takes a slot of those that its queue may reserve. -/
lemma waits_le {items : List QueuedOutgoing}
    (h : ∀ x ∈ items, x.queue = i → x.reservation.isSome = true) :
    (items.filter (waits i)).length ≤ (load items (some i)).1 := by
  induction items with
  | nil => exact Nat.zero_le _
  | cons x items ih =>
    have hrest := ih fun y hy => h y (mem_cons_of_mem _ hy)
    have hload : load (x :: items) (some i) = x.charge (some i) + load items (some i) := rfl
    rw [hload, Prod.fst_add]
    by_cases hx : waits i x = true
    · obtain ⟨hqueue, hstage⟩ := of_decide_eq_true hx
      obtain ⟨bytes, hbytes⟩ := isSome_iff_exists.1 (h x mem_cons_self hqueue)
      rw [filter_cons_of_pos hx, length_cons, charge_charged (by rw [hstage]; rfl)]
      simp [hqueue, QueuedOutgoing.reserved, hbytes]
      omega
    · rw [filter_cons_of_neg hx]
      omega

lemma Inv.room (h : s.Inv) (hi : s.Unforced i) (halive : (s.queues i).alive = true) :
    s.room i = true := by
  have hwaits := waits_le hi
  have hbound := h.bound i
  rw [← h.counts] at hwaits
  exact decide_eq_true ⟨halive, Nat.lt_succ_of_le (hwaits.trans hbound)⟩

/-- No operation is under way: every frame is queued or held by a writer. -/
def Quiet (s : System) : Prop := ∀ x ∈ s.items, x.stage = .queued ∨ x.stage = .held

lemma Quiet.charged (h : s.Quiet) : ∀ x ∈ s.items, x.stage.charged = true := by
  intro x hx
  rcases h x hx with hx | hx
  all_goals
    rw [hx]
    rfl

end System

lemma load_charged (h : ∀ x ∈ items, x.stage.charged = true) (account : Option ℕ) :
    load items account =
      ((items.filter fun x => account.all fun i => x.queue = i).map (·.reserved)).sum := by
  induction items with
  | nil => rfl
  | cons x items ih =>
    have hload : load (x :: items) account = x.charge account + load items account := rfl
    rw [hload, ih fun y hy => h y (mem_cons_of_mem _ hy),
      charge_charged (h x mem_cons_self), filter_cons]
    split_ifs
    · rfl
    · exact zero_add _

/-- The frames of all queues are those of the budget. -/
lemma load_queues (h : ∀ x ∈ items, x.stage.charged = true) {ids : Finset ℕ}
    (hids : ∀ x ∈ items, x.queue ∈ ids) :
    load items none = ∑ i ∈ ids, load items (some i) := by
  induction items with
  | nil => exact Finset.sum_const_zero.symm
  | cons x items ih =>
    have hload : ∀ account, load (x :: items) account = x.charge account + load items account :=
      fun _ => rfl
    have hx := charge_charged (h x mem_cons_self)
    simp only [hload, Finset.sum_add_distrib, hx, all_none, all_some, if_true,
      decide_eq_true_eq]
    rw [Finset.sum_ite_eq, if_pos (hids x mem_cons_self),
      ih (fun y hy => h y (mem_cons_of_mem _ hy)) fun y hy => hids y (mem_cons_of_mem _ hy)]

lemma unforced_of_run {actions : List Action} {s t : System}
    (h : Run System.step anyStep s actions t) (hno : ∀ reason, .forceClose i reason ∉ actions)
    (hs : s.Unforced i) : t.Unforced i := by
  induction h with
  | nil => exact hs
  | cons _ hstep _ ih =>
    exact ih (fun reason hin => hno reason (mem_cons_of_mem _ hin))
      (hs.step (fun reason heq => hno reason (heq ▸ mem_cons_self)) hstep)

/-- The counts of every queue, and those of the budget, are those of the frames that they have yet
to be given back for; between the operations these are the frames that are queued or held, but for
the closes that were forced, and the budget's are those of all queues. The budget's limit is never
passed, and the first close that is forced on a queue with a receiver is enqueued. -/
theorem queues_account (limits : ℕ → ℕ × ℕ) (queueBytesMax : ℕ) (actions : List Action)
    (s : System) (h : Run System.step anyStep (System.fresh limits queueBytesMax) actions s) :
    (∀ account, s.counts account = load s.items account) ∧
    (s.Quiet → ∀ i, s.counts (some i) =
      ((s.items.filter fun x => x.queue = i).map (·.reserved)).sum) ∧
    (s.Quiet → ∀ ids : Finset ℕ, (∀ x ∈ s.items, x.queue ∈ ids) →
      s.counts none = ∑ i ∈ ids, s.counts (some i)) ∧
    s.budget.queueBytes ≤ s.budget.queueBytesMax ∧
    ∀ i, (s.queues i).alive = true → (∀ reason, Action.forceClose i reason ∉ actions) →
      ∀ reason, s.forceClose i reason =
        some { s with items := s.items ++ [⟨i, .close reason, true, none, .queued⟩] } := by
  have hinv : s.Inv := h.invariant (fun _ _ _ hs _ => hs.step)
    (System.inv_fresh limits queueBytesMax)
  refine ⟨hinv.counts, fun hquiet i => ?_, fun hquiet ids hids => ?_, hinv.limit,
    fun i halive hno reason => ?_⟩
  · rw [hinv.counts, load_charged hquiet.charged]
    rfl
  · simp only [hinv.counts]
    exact load_queues hquiet.charged hids
  · have hi : s.Unforced i := unforced_of_run h hno nofun
    exact if_pos (hinv.room hi halive)

theorem one_frame_accounts : ∃ s, Run System.step anyStep (System.fresh (fun _ => (1, 9)) 9)
    [.trySend 0 (.text "hi") false, .enter 0, .enqueue 0] s ∧ s.counts none = load s.items none := by
  have hrun : ∃ s, Run System.step anyStep (System.fresh (fun _ => (1, 9)) 9)
      [.trySend 0 (.text "hi") false, .enter 0, .enqueue 0] s :=
    ⟨_, .cons trivial rfl (.cons trivial rfl (.cons trivial rfl (.nil _)))⟩
  obtain ⟨s, hs⟩ := hrun
  exact ⟨s, hs, (queues_account _ _ _ s hs).1 none⟩

/-- A close that was forced is queued, and its queue counts nothing. -/
theorem forced_close_not_counted :
    ((System.fresh (fun _ => (1, 9)) 9).step (.forceClose 0 "slow")).map
        (fun s => (s.items.map fun x => (x.stage, x.outgoing.bytes), s.counts (some 0))) =
      some ([(.queued, 6)], (0, 0)) := by
  decide

end LibrePaper.Storage.Queues
