import LibrePaper.Log.Budgets

/-!
# A pool that many callers share

Callers take bytes from one counter and give them back. Each call is a task that runs one atomic
operation at a time, between those of the others: it reads the counter, tries to exchange it, gives
bytes back, wakes the waiters. A call that finds no room may wait, and its future may be dropped
while it waits.
-/
namespace LibrePaper.Log.Shared
open Library List


/-- What a call takes bytes for. `once` refuses when there is no room, `patient` waits for as long
as it takes, `evicting` lets others make room and waits up to a deadline, and `growing` extends a
reservation that it has. -/
inductive Purpose where
  | once
  | patient
  | evicting
  | growing (own : ℕ)
deriving DecidableEq

/-- The next atomic operation of a call. -/
inductive Stage where
  | load
  | exchange (current : ℕ)
  | took
  | evict
  | waiting
  | giving (bytes : ℕ)
  | notify
deriving DecidableEq

/-- A call in progress. It is `registered` while it is in the loop that waits for a release, and
`woken` once one came since it registered. -/
structure Task where
  bytes : ℕ
  purpose : Purpose
  registered : Bool
  woken : Bool
  stage : Stage
deriving DecidableEq

/-- The pool, the reservations that are out, and the calls in progress. -/
structure System where
  limit : ℕ
  used : ℕ
  held : List ℕ
  tasks : List Task
deriving DecidableEq

/-- The reservation that a call extends. -/
def Purpose.own : Purpose → ℕ
  | growing own => own
  | _ => 0

/-- The bytes that a call in progress has. -/
def Task.holds (t : Task) : ℕ :=
  t.purpose.own + match t.stage with
    | .took => t.bytes
    | .giving bytes => bytes
    | _ => 0

/-- A subtraction of the counter, which wraps. -/
def fetchSub (used bytes : ℕ) : ℕ := (used + 2 ^ 64 - bytes) % 2 ^ 64

/-- Registers for the next release, and tries. -/
def Task.register (t : Task) : Task := { t with registered := true, woken := false, stage := .load }

namespace System

def new (limit : ℕ) : System := ⟨max limit 1, 0, [], []⟩

def become (s : System) (j : ℕ) (t : Task) : System := { s with tasks := s.tasks.set j t }

/-- The call returns. A reservation that it did not extend is as it was. -/
def leave (s : System) (j : ℕ) (t : Task) : System where
  limit := s.limit
  used := s.used
  held := match t.purpose with
    | .growing own => s.held ++ [own]
    | _ => s.held
  tasks := s.tasks.eraseIdx j

/-- The call returns a reservation. -/
def grant (s : System) (j : ℕ) (t : Task) : System :=
  { s with held := s.held ++ [t.bytes], tasks := s.tasks.eraseIdx j }

/-- There is no room. -/
def refuse (s : System) (j : ℕ) (t : Task) : System :=
  if t.registered then s.become j { t with stage := .waiting }
  else match t.purpose with
    | .patient => s.become j t.register
    | .evicting => s.become j { t with stage := .evict }
    | _ => s.leave j t

/-- The bytes are taken. The first attempt of an evicting call only asks whether there is room, and
gives them back. A growing call leaves an empty guard that is dropped. -/
def receive (s : System) (j : ℕ) (t : Task) : System :=
  match t.purpose with
  | .growing own =>
    { s with
      held := s.held ++ [own + t.bytes]
      tasks := s.tasks.set j { t with purpose := .once, stage := .giving 0 } }
  | .evicting =>
    if t.registered then s.grant j t else s.become j { t with stage := .giving t.bytes }
  | _ => s.grant j t

/-- Every registered waiter is woken. -/
def wake (s : System) : System :=
  { s with tasks := s.tasks.map fun t => { t with woken := t.woken || t.registered } }

/-- Runs the next atomic operation of a call. `spurious` lets an exchange fail for no reason. -/
def run (s : System) (j : ℕ) (spurious : Bool) : Option System :=
  match s.tasks[j]? with
  | none => none
  | some t =>
    match t.stage with
    | .load => some (s.become j { t with stage := .exchange s.used })
    | .exchange current =>
      match checkedAdd current t.bytes with
      | none => some (s.refuse j t)
      | some wanted =>
        if wanted > s.limit then some (s.refuse j t)
        else if s.used = current ∧ spurious = false then
          some { s.become j { t with stage := .took } with used := wanted }
        else some (s.become j { t with stage := .exchange s.used })
    | .took => some (s.receive j t)
    | .evict => some (s.become j t.register)
    | .waiting => if t.woken then some (s.become j t.register) else none
    | .giving bytes =>
      some { s.become j { t with stage := .notify } with used := fetchSub s.used bytes }
    | .notify =>
      let s := s.wake
      if t.purpose = .evicting ∧ t.registered = false then some (s.become j t.register)
      else some (s.leave j t)

/-- What callers do. -/
inductive Event where
  | start (purpose : Purpose) (bytes : ℕ)
  | take (bytes : ℕ)
  | grow (i bytes : ℕ)
  | split (i bytes : ℕ)
  | drop (i : ℕ)
  | run (j : ℕ) (spurious : Bool)
  | abandon (j : ℕ)
deriving DecidableEq

def begin (s : System) (t : Task) : System := { s with tasks := s.tasks ++ [t] }

/-- A call that may wait refuses at once what no release makes room for. Only a reservation that is
out grows, is split or is dropped, and a split of more than it has is a panic. A call is abandoned,
by its deadline or by its future's drop, where it waits. -/
def act (s : System) : Event → Option System
  | .start (.growing _) _ => none
  | .start .once bytes => some (s.begin ⟨bytes, .once, false, false, .load⟩)
  | .start purpose bytes =>
    if bytes > s.limit then some s else some (s.begin ⟨bytes, purpose, false, false, .load⟩)
  | .take bytes =>
    if bytes > s.limit then some s
    else some (s.begin (Task.register ⟨bytes, .patient, true, false, .load⟩))
  | .grow i bytes => do
    let own ← s.held[i]?
    if bytes ≤ own then some s
    else some ({ s with held := s.held.eraseIdx i }.begin
      ⟨bytes - own, .growing own, false, false, .load⟩)
  | .split i bytes => do
    let own ← s.held[i]?
    if bytes ≤ own then some { s with held := s.held.set i (own - bytes) ++ [bytes] } else none
  | .drop i => do
    let own ← s.held[i]?
    some ({ s with held := s.held.eraseIdx i }.begin ⟨0, .once, false, false, .giving own⟩)
  | .run j spurious => s.run j spurious
  | .abandon j => do
    let t ← s.tasks[j]?
    if t.stage = .evict ∨ t.stage = .waiting then some (s.leave j t) else none

/-- Runs events one after the other. -/
def runAll (s : System) : List Event → Option System
  | [] => some s
  | e :: events => (s.act e).bind fun s => s.runAll events

/-- The live reservations: those that are out, and what the calls in progress have. -/
def live (s : System) : List ℕ := s.held ++ s.tasks.map Task.holds

/-- The counter is what is live. -/
structure Exact (limit : ℕ) (s : System) : Prop where
  limit : s.limit = max limit 1
  used : s.used = s.live.sum
  le : s.used ≤ s.limit
  fits : s.used ≤ u64Max

variable {limit : ℕ} {s s' : System} {j : ℕ} {t : Task}

lemma sum_live (s : System) : s.live.sum = s.held.sum + (s.tasks.map Task.holds).sum := sum_append

lemma holds_getElem? (h : s.tasks[j]? = some t) :
    (s.tasks.map Task.holds)[j]? = some t.holds := by
  rw [getElem?_map, h]
  rfl

lemma holds_le (h : s.tasks[j]? = some t) : t.holds ≤ s.live.sum := by
  have hsum := sum_eraseIdx (holds_getElem? h)
  have hlive := s.sum_live
  omega

lemma live_become (h : s.tasks[j]? = some t) (t' : Task) :
    (s.become j t').live.sum + t.holds = s.live.sum + t'.holds := by
  have hset := sum_set (holds_getElem? h) t'.holds
  rw [sum_live, sum_live]
  unfold become
  rw [map_set]
  dsimp only
  omega

lemma live_leave (h : s.tasks[j]? = some t) :
    (s.leave j t).live.sum + t.holds = s.live.sum + t.purpose.own := by
  have herase := sum_eraseIdx (holds_getElem? h)
  have hheld : (s.leave j t).held.sum = s.held.sum + t.purpose.own := by
    unfold leave
    cases t.purpose with
    | growing own => exact sum_append.trans (congrArg _ sum_singleton)
    | once | patient | evicting => rfl
  rw [sum_live, sum_live, hheld]
  unfold leave
  rw [← eraseIdx_map]
  omega

lemma live_grant (h : s.tasks[j]? = some t) :
    (s.grant j t).live.sum + t.holds = s.live.sum + t.bytes := by
  have herase := sum_eraseIdx (holds_getElem? h)
  rw [sum_live, sum_live]
  unfold grant
  rw [← eraseIdx_map, sum_append, sum_singleton]
  omega

lemma live_begin (s : System) (t : Task) : (s.begin t).live.sum = s.live.sum + t.holds := by
  rw [sum_live, sum_live]
  unfold begin
  rw [map_append, sum_append]
  simp only [map_cons, map_nil, sum_singleton]
  omega

/-- A call without room keeps what it has. -/
lemma live_refuse (h : s.tasks[j]? = some t) (hown : t.holds = t.purpose.own) :
    (s.refuse j t).live.sum = s.live.sum ∧ (s.refuse j t).used = s.used ∧
      (s.refuse j t).limit = s.limit := by
  have hleave := live_leave h
  have hwaiting := live_become h { t with stage := .waiting }
  have hregister := live_become h t.register
  have hevict := live_become h { t with stage := .evict }
  have hholds : ({ t with stage := .waiting } : Task).holds = t.purpose.own := rfl
  have hholds' : t.register.holds = t.purpose.own := rfl
  have hholds'' : ({ t with stage := .evict } : Task).holds = t.purpose.own := rfl
  unfold refuse
  split
  · exact ⟨by omega, rfl, rfl⟩
  · split
    · exact ⟨by omega, rfl, rfl⟩
    · exact ⟨by omega, rfl, rfl⟩
    · exact ⟨by omega, rfl, rfl⟩

/-- A call that took bytes keeps them, or makes a reservation of them. -/
lemma live_receive (h : s.tasks[j]? = some t) (hstage : t.stage = .took) :
    (s.receive j t).live.sum = s.live.sum ∧ (s.receive j t).used = s.used ∧
      (s.receive j t).limit = s.limit := by
  have hholds : t.holds = t.purpose.own + t.bytes := by rw [Task.holds, hstage]
  unfold receive
  split
  next own hown =>
    refine ⟨?_, rfl, rfl⟩
    have hset := live_become h { t with purpose := .once, stage := .giving 0 }
    have hzero : ({ t with purpose := .once, stage := .giving 0 } : Task).holds = 0 := rfl
    rw [sum_live] at hset
    rw [sum_live]
    rw [hown] at hholds
    unfold become at hset
    simp only [sum_append, sum_singleton, Purpose.own] at hset hholds ⊢
    omega
  next hown =>
    have hnone : t.purpose.own = 0 := by rw [hown]; rfl
    have hgrant := live_grant h
    have hgiving := live_become h { t with stage := .giving t.bytes }
    have hsame : ({ t with stage := .giving t.bytes } : Task).holds = t.purpose.own + t.bytes := rfl
    split
    · exact ⟨by omega, rfl, rfl⟩
    · exact ⟨by omega, rfl, rfl⟩
  next hother hother' =>
    have hown : t.purpose.own = 0 := by
      cases hp : t.purpose with
      | growing own => exact absurd hp (hother own)
      | once | patient | evicting => rfl
    have hgrant := live_grant h
    exact ⟨by omega, rfl, rfl⟩

lemma live_wake (s : System) : s.wake.live = s.live := by
  unfold live wake
  rw [map_map]
  rfl

lemma wake_getElem? (h : s.tasks[j]? = some t) :
    s.wake.tasks[j]? = some { t with woken := t.woken || t.registered } := by
  unfold wake
  rw [getElem?_map, h]
  rfl

variable {used bytes i : ℕ}

lemma sub_mod_eq {m : ℕ} (hle : bytes ≤ used) (hlt : used < m) :
    (used + m - bytes) % m = used - bytes := by
  have hback : used + m - bytes = used - bytes + m := Nat.sub_add_comm hle
  rw [hback, Nat.add_mod_right, Nat.mod_eq_of_lt ((Nat.sub_le _ _).trans_lt hlt)]

lemma fetchSub_eq (hle : bytes ≤ used) (hused : used ≤ u64Max) :
    fetchSub used bytes = used - bytes := by
  have hlt : used < 2 ^ 64 := by
    unfold u64Max at hused
    omega
  exact sub_mod_eq hle hlt

lemma Exact.of_eq (h : s.Exact limit) (hlimit : s'.limit = s.limit) (hused : s'.used = s.used)
    (hlive : s'.live.sum = s.live.sum) : s'.Exact limit :=
  ⟨hlimit.trans h.limit, by rw [hused, hlive]; exact h.used,
    by rw [hused, hlimit]; exact h.le, by rw [hused]; exact h.fits⟩

lemma Exact.giving_le (h : s.Exact limit) (ht : s.tasks[j]? = some t)
    (hstage : t.stage = .giving bytes) : bytes ≤ s.used := by
  have hle := holds_le ht
  have hused := h.used
  have hholds : t.holds = t.purpose.own + bytes := by rw [Task.holds, hstage]
  omega

lemma Exact.become (h : s.Exact limit) (ht : s.tasks[j]? = some t) {t' : Task}
    (hholds : t'.holds = t.holds) : (s.become j t').Exact limit := by
  have hnext := live_become ht t'
  exact h.of_eq rfl rfl (by omega)

/-- An exchange that succeeds moves the counter by what the call then has. -/
lemma Exact.exchange (h : s.Exact limit) (ht : s.tasks[j]? = some t)
    (hown : t.holds = t.purpose.own) (hfits : s.used + t.bytes ≤ u64Max)
    (hroom : s.used + t.bytes ≤ s.limit) :
    { s.become j { t with stage := .took } with used := s.used + t.bytes }.Exact limit := by
  have hnext := live_become ht { t with stage := .took }
  have hholds : ({ t with stage := .took } : Task).holds = t.purpose.own + t.bytes := rfl
  have hused := h.used
  refine ⟨h.limit, ?_, hroom, hfits⟩
  change s.used + t.bytes = (s.become j { t with stage := .took }).live.sum
  omega

/-- What is given back leaves the counter. -/
lemma Exact.give (h : s.Exact limit) (ht : s.tasks[j]? = some t)
    (hstage : t.stage = .giving bytes) :
    { s.become j { t with stage := .notify } with used := fetchSub s.used bytes }.Exact limit := by
  have hback := fetchSub_eq (h.giving_le ht hstage) h.fits
  have hle := h.giving_le ht hstage
  have hused := h.used
  have hholds : t.holds = t.purpose.own + bytes := by rw [Task.holds, hstage]
  have hnext := live_become ht { t with stage := .notify }
  have hholds' : ({ t with stage := .notify } : Task).holds = t.purpose.own := rfl
  rw [hback]
  refine ⟨h.limit, ?_, (Nat.sub_le _ _).trans h.le, (Nat.sub_le _ _).trans h.fits⟩
  change s.used - bytes = (s.become j { t with stage := .notify }).live.sum
  omega

lemma Exact.wake (h : s.Exact limit) : s.wake.Exact limit :=
  h.of_eq rfl rfl (congrArg sum s.live_wake)

lemma Exact.leave (h : s.Exact limit) (ht : s.tasks[j]? = some t)
    (hown : t.holds = t.purpose.own) : (s.leave j t).Exact limit := by
  have hnext := live_leave ht
  exact h.of_eq rfl rfl (by omega)

lemma checkedAdd_spec {a b sum : ℕ} (h : checkedAdd a b = some sum) :
    a + b ≤ u64Max ∧ a + b = sum := by
  unfold checkedAdd at h
  split at h
  next hle => exact ⟨hle, Option.some.inj h⟩
  next => cases h

lemma Exact.run (h : s.Exact limit) {spurious : Bool} (hrun : s.run j spurious = some s') :
    s'.Exact limit := by
  unfold System.run at hrun
  split at hrun
  next => cases hrun
  next t ht =>
    split at hrun
    next hstage =>
      cases hrun
      exact h.become ht (by rw [Task.holds, Task.holds, hstage])
    next current hstage =>
      have hown : t.holds = t.purpose.own := by rw [Task.holds, hstage, Nat.add_zero]
      obtain ⟨hlive, hused, hlimit⟩ := live_refuse ht hown
      split at hrun
      next =>
        cases hrun
        exact h.of_eq hlimit hused hlive
      next wanted hwanted =>
        obtain ⟨hle, rfl⟩ := checkedAdd_spec hwanted
        split at hrun
        next =>
          cases hrun
          exact h.of_eq hlimit hused hlive
        next hroom =>
          split at hrun
          next hsame =>
            cases hrun
            obtain ⟨rfl, -⟩ := hsame
            exact h.exchange ht hown hle (Nat.le_of_not_lt hroom)
          next =>
            cases hrun
            exact h.become ht (by rw [Task.holds, Task.holds, hstage])
    next hstage =>
      cases hrun
      obtain ⟨hlive, hused, hlimit⟩ := live_receive ht hstage
      exact h.of_eq hlimit hused hlive
    next hstage =>
      cases hrun
      exact h.become ht (by rw [Task.holds, Task.holds, hstage]; rfl)
    next hstage =>
      split at hrun
      next =>
        cases hrun
        exact h.become ht (by rw [Task.holds, Task.holds, hstage]; rfl)
      next => cases hrun
    next bytes hstage =>
      cases hrun
      exact h.give ht hstage
    next hstage =>
      have hown : t.holds = t.purpose.own := by rw [Task.holds, hstage, Nat.add_zero]
      have hwoken := wake_getElem? ht
      dsimp only at hrun
      split at hrun
      next =>
        cases hrun
        exact h.wake.become hwoken (by rw [Task.holds, Task.holds, hstage]; rfl)
      next =>
        cases hrun
        exact h.wake.leave (t := { t with woken := t.woken || t.registered }) hwoken hown

lemma Exact.begin (h : s.Exact limit) (hown : t.holds = 0) : (s.begin t).Exact limit :=
  h.of_eq rfl rfl ((live_begin s t).trans (by rw [hown, Nat.add_zero]))

/-- A reservation that a call takes along stays live. -/
lemma Exact.withdraw (h : s.Exact limit) {own : ℕ} (hheld : s.held[i]? = some own)
    (hown : t.holds = own) : ({ s with held := s.held.eraseIdx i }.begin t).Exact limit := by
  refine h.of_eq rfl rfl ?_
  have herase := sum_eraseIdx hheld
  rw [live_begin, sum_live, sum_live, hown]
  dsimp only
  omega

lemma split_spec (h : s.act (.split i bytes) = some s') :
    s'.held.sum = s.held.sum ∧ s'.used = s.used ∧ s'.limit = s.limit ∧ s'.tasks = s.tasks := by
  obtain ⟨own, hheld, h⟩ := Option.bind_eq_some_iff.1 h
  split at h
  next hle =>
    cases h
    have hset := sum_set hheld (own - bytes)
    refine ⟨?_, rfl, rfl, rfl⟩
    rw [sum_append, sum_singleton]
    omega
  next => cases h

lemma Exact.act (h : s.Exact limit) {e : Event} (hact : s.act e = some s') :
    s'.Exact limit := by
  cases e with
  | start purpose bytes =>
    cases purpose with
    | growing own => cases hact
    | once =>
      cases hact
      exact h.begin rfl
    | patient | evicting =>
      change (if bytes > s.limit then some s else _) = some s' at hact
      split at hact
      next =>
        cases hact
        exact h
      next =>
        cases hact
        exact h.begin rfl
  | take bytes =>
    change (if bytes > s.limit then some s else _) = some s' at hact
    split at hact
    next =>
      cases hact
      exact h
    next =>
      cases hact
      exact h.begin rfl
  | grow i bytes =>
    obtain ⟨own, hheld, hact⟩ := Option.bind_eq_some_iff.1 hact
    split at hact
    next =>
      cases hact
      exact h
    next =>
      cases hact
      exact h.withdraw hheld rfl
  | split i bytes =>
    obtain ⟨hheld, hused, hlimit, htasks⟩ := split_spec hact
    refine h.of_eq hlimit hused ?_
    rw [sum_live, sum_live, hheld, htasks]
  | drop i =>
    obtain ⟨own, hheld, hact⟩ := Option.bind_eq_some_iff.1 hact
    cases hact
    exact h.withdraw hheld (Nat.zero_add own)
  | run j spurious => exact h.run hact
  | abandon j =>
    obtain ⟨t, ht, hact⟩ := Option.bind_eq_some_iff.1 hact
    split at hact
    next hstage =>
      cases hact
      refine h.leave ht ?_
      rcases hstage with hstage | hstage <;> rw [Task.holds, hstage, Nat.add_zero]
    next => cases hact

lemma Exact.new (limit : ℕ) : (new limit).Exact limit := ⟨rfl, rfl, Nat.zero_le _, Nat.zero_le _⟩

lemma Exact.runAll (h : s.Exact limit) {events : List Event}
    (hrun : s.runAll events = some s') : s'.Exact limit := by
  induction events generalizing s with
  | nil =>
    cases hrun
    exact h
  | cons e events ih =>
    obtain ⟨next, hact, hrest⟩ := Option.bind_eq_some_iff.1 hrun
    exact ih (h.act hact) hrest

/-- In every interleaving the counter is what is live, and stays in the limit. What a call gives
back is in it, and a split changes neither it nor what is out. -/
theorem pool_accounting {limit : ℕ} {events : List Event} {s : System}
    (hrun : (System.new limit).runAll events = some s) :
    s.used = s.live.sum ∧ s.used ≤ s.limit ∧ s.limit = max limit 1 ∧
      (∀ (j : ℕ) (t : Task) (bytes : ℕ), s.tasks[j]? = some t → t.stage = .giving bytes →
        bytes ≤ s.used) ∧
      (∀ i bytes s', s.act (.split i bytes) = some s' →
        s'.held.sum = s.held.sum ∧ s'.used = s.used) ∧
      (s.held = [] → (∀ t ∈ s.tasks, t.holds = 0) → s.used = 0) := by
  have h := (Exact.new limit).runAll hrun
  refine ⟨h.used, h.le, h.limit, fun _ _ _ ht => h.giving_le ht,
    fun i bytes s' hsplit => ⟨(split_spec hsplit).1, (split_spec hsplit).2.1⟩,
    fun hheld htasks => ?_⟩
  have hnone : (s.tasks.map Task.holds).sum = 0 :=
    sum_eq_zero fun n hn => by
      obtain ⟨t, ht, rfl⟩ := mem_map.1 hn
      exact htasks t ht
  rw [h.used, sum_live, hheld, hnone]
  rfl

/-- Two calls race for the pool and one of them waits. A part of the other's reservation is dropped,
and the rest grows. -/
def race : List Event :=
  [.start .once 60, .start .evicting 50, .run 0 false, .run 1 false, .run 0 false, .run 1 false,
    .run 1 false, .run 0 false, .run 0 false, .run 0 false, .run 0 false, .split 0 20, .drop 1,
    .run 1 false, .run 1 false, .run 0 false, .run 0 false, .run 0 false, .run 0 false, .grow 0 45,
    .run 0 false, .run 0 true, .run 0 false, .run 0 false]

theorem race_accounting :
    (System.new 100).runAll race = some ⟨100, 95, [50, 45], [⟨5, .once, false, false, .giving 0⟩]⟩ ∧
      95 = [50, 45, 0].sum :=
  have hrun : (System.new 100).runAll race =
      some ⟨100, 95, [50, 45], [⟨5, .once, false, false, .giving 0⟩]⟩ := by decide
  ⟨hrun, (pool_accounting hrun).1⟩

end System

end LibrePaper.Log.Shared
