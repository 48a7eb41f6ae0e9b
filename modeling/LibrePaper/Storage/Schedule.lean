import LibrePaper.Library.Retain

/-!
# The deadline map

Future work that the worker owes itself: one entry for each task, at most `DEADLINES` of
them, and the earliest deadline that was turned away. Instants and durations are in seconds.
-/
namespace LibrePaper.Storage
open Library List Option

/-- Where each kind of pending work resumes: after this id, or `none` once the kind has no
row past its last page. -/
structure PendingWorkCursor where
  compaction : Option ℕ := some 0
  deleting : Option ℕ := some 0
  archives : Option ℕ := some 0
  erasing : Option ℕ := some 0
deriving DecidableEq

def PendingWorkCursor.continues (c : PendingWorkCursor) : Bool :=
  c.compaction.isSome || c.deleting.isSome || c.archives.isSome || c.erasing.isSome

inductive Task where
  | scan (cursor : PendingWorkCursor)
  | compact (document : ℕ)
  | archive (label : ℕ)
  | delete (document : ℕ)
  | eraseAccount (account after : ℕ)
  | sweepSupersededBases
  | sweepOrphans
deriving DecidableEq

def DEADLINES : ℕ := 1024

/-- How long to wait between tries. -/
structure RetryPolicy where
  base : ℕ
  ceiling : ℕ

/-- `1u32.checked_shl(n).unwrap_or(u32::MAX)`. -/
def checkedShl (n : ℕ) : ℕ := if n < 32 then 2 ^ n else 2 ^ 32 - 1

/-- The wait after `failures` consecutive failures. Zero counts as one. -/
def RetryPolicy.delay (p : RetryPolicy) (failures : ℕ) : ℕ :=
  min (p.base * checkedShl (failures - 1)) p.ceiling

def BACKOFF : ℕ := 60
def BACKOFF_CEILING : ℕ := 60 * 60
def RETRY : RetryPolicy := ⟨BACKOFF, BACKOFF_CEILING⟩

example : RETRY.delay 2 = 120 := by decide

/-- One task's place in the map. An entry that has fired is not armed; it only remembers a
failure count. -/
structure Entry where
  due : ℕ
  failures : ℕ
  armed : Bool
deriving DecidableEq

/-- The bounded map of future work; `refusal` is the earliest deadline it refused to hold. -/
structure Deadlines where
  entries : AList fun _ : Task => Entry := ∅
  refusal : Option ℕ := none
  refused : ℕ := 0

namespace Deadlines

def lookup (d : Deadlines) (task : Task) : Option Entry := d.entries.lookup task

def len (d : Deadlines) : ℕ := d.entries.entries.length

def refuse (d : Deadlines) (due : ℕ) : Deadlines :=
  { d with
    refusal := some (match d.refusal with
      | some existing => min existing due
      | none => due)
    refused := d.refused + 1 }

/-- A new entry, unless the map is full. -/
def insert (d : Deadlines) (task : Task) (e : Entry) : Deadlines :=
  if d.len = DEADLINES then d.refuse e.due else { d with entries := d.entries.insert task e }

/-- How many times in a row the task has failed, as far as the map remembers. -/
def failures (d : Deadlines) (task : Task) : ℕ := ((d.lookup task).map Entry.failures).getD 0

/-- The wait that `failed` chooses. -/
def backoff (d : Deadlines) (task : Task) : ℕ := RETRY.delay (d.failures task + 1)

/-- Records the backoff after the task failed. -/
def failed (d : Deadlines) (task : Task) (now : ℕ) : Deadlines :=
  let e : Entry := ⟨now + d.backoff task, d.failures task + 1, true⟩
  match d.lookup task with
  | some _ => { d with entries := d.entries.insert task e }
  | none => d.insert task e

/-- Asks for the task at `due` and no earlier. A task that waits out a backoff is left alone. -/
def «at» (d : Deadlines) (task : Task) (due : ℕ) : Deadlines :=
  match d.lookup task with
  | some e =>
    if e.armed then
      if 0 < e.failures then d
      else { d with entries := d.entries.insert task { e with due := min e.due due } }
    else { d with entries := d.entries.insert task { e with due := due, armed := true } }
  | none => d.insert task ⟨due, 0, true⟩

/-- Forgets the failure streak; a deadline that the task armed while it ran survives. -/
def clear (d : Deadlines) (task : Task) : Deadlines :=
  match d.lookup task with
  | some e =>
    if e.armed then { d with entries := d.entries.insert task { e with failures := 0 } }
    else { d with entries := d.entries.erase task }
  | none => d

/-- Forgets every reminder for the task. -/
def remove (d : Deadlines) (task : Task) : Deadlines :=
  { d with entries := d.entries.erase task }

/-- Is the task waiting out a deadline that has not come due? -/
def waiting (d : Deadlines) (task : Task) (now : ℕ) : Bool :=
  (d.lookup task).any fun e => e.armed && decide (now < e.due)

/-- What `due` leaves of an entry that is walked: spent, disarmed or untouched. -/
def fired (now : ℕ) (_ : Task) (e : Entry) : Option Entry :=
  if e.armed && decide (e.due ≤ now) then
    if e.failures = 0 then none else some { e with armed := false }
  else some e

/-- Dead bookkeeping is pruned: nothing is scheduled, and the last deadline is long past. -/
def pruned (now : ℕ) (_ : Task) (e : Entry) : Option Entry :=
  if e.armed || decide (now - e.due ≤ BACKOFF_CEILING) then some e else none

/-- The tasks that have come due, in the order of the map. -/
def dueTasks (d : Deadlines) (now : ℕ) : List Task :=
  (d.entries.entries.filter fun e => e.2.armed && decide (e.2.due ≤ now)).map Sigma.fst

/-- A refused deadline has come due. -/
def rescanDue (d : Deadlines) (now : ℕ) : Bool := d.refusal.any fun t => decide (t ≤ now)

/-- The map after everything that has come due was handed out, at most once per arming. -/
def due (d : Deadlines) (now : ℕ) : Deadlines :=
  { d with
    entries := retain (pruned now) (retain (fired now) d.entries)
    refusal := if d.rescanDue now then none else d.refusal }

/-- The earlier of two instants that may be missing. -/
def earlier : Option ℕ → Option ℕ → Option ℕ
  | some a, some b => some (min a b)
  | some a, none => some a
  | none, b => b

/-- When the worker should next wake, if ever. -/
def next (d : Deadlines) : Option ℕ :=
  earlier ((d.entries.entries.filter fun e => e.2.armed).map fun e => e.2.due).min? d.refusal

/-- The task has a deadline that `due` hands out. -/
def Armed (d : Deadlines) (task : Task) : Prop := ∃ e, d.lookup task = some e ∧ e.armed = true

section Lookup
variable {d : Deadlines} {task other : Task} {due now : ℕ} {e : Entry}

lemma insert_of_full (h : d.len = DEADLINES) : d.insert task e = d.refuse e.due := if_pos h

lemma insert_of_room (h : d.len ≠ DEADLINES) :
    d.insert task e = { d with entries := d.entries.insert task e } := if_neg h

lemma lookup_insert_ne (h : other ≠ task) : (d.insert task e).lookup other = d.lookup other := by
  unfold insert
  split
  · rfl
  · exact AList.lookup_insert_ne h

lemma lookup_failed_ne (h : other ≠ task) :
    (d.failed task now).lookup other = d.lookup other := by
  unfold failed
  split
  · exact AList.lookup_insert_ne h
  · exact lookup_insert_ne h

lemma lookup_at_ne (h : other ≠ task) : (d.at task due).lookup other = d.lookup other := by
  unfold «at»
  split
  · split
    · split
      · rfl
      · exact AList.lookup_insert_ne h
    · exact AList.lookup_insert_ne h
  · exact lookup_insert_ne h

lemma lookup_clear_ne (h : other ≠ task) : (d.clear task).lookup other = d.lookup other := by
  unfold clear
  split
  · split
    · exact AList.lookup_insert_ne h
    · exact AList.lookup_erase_ne h
  · rfl

lemma lookup_remove_ne (h : other ≠ task) : (d.remove task).lookup other = d.lookup other :=
  AList.lookup_erase_ne h

lemma lookup_due : (d.due now).lookup other =
    ((d.lookup other).bind (fired now other)).bind (pruned now other) := by
  unfold Deadlines.lookup Deadlines.due
  rw [lookup_retain, lookup_retain]

lemma mem_of_lookup (h : d.lookup task = some e) : task ∈ d.entries :=
  AList.lookup_isSome.1 (by rw [show d.entries.lookup task = some e from h]; rfl)

lemma notMem_of_lookup (h : d.lookup task = none) : task ∉ d.entries := AList.lookup_eq_none.1 h

end Lookup

/-- The map still owes what it owed, and it is no larger than it may be. -/
structure Keeps (d d' : Deadlines) : Prop where
  armed : ∀ task, d.Armed task → d'.Armed task
  refusal : d.refusal.isSome = true → d'.refusal.isSome = true
  refused : d.refused < d'.refused → d'.refusal.isSome = true
  bound : d.len ≤ DEADLINES → d'.len ≤ DEADLINES

namespace Keeps

lemma refl (d : Deadlines) : Keeps d d := ⟨fun _ h => h, id, fun h => absurd h (lt_irrefl _), id⟩

lemma trans {d d' d'' : Deadlines} (h : Keeps d d') (h' : Keeps d' d'') : Keeps d d'' where
  armed task ha := h'.armed task (h.armed task ha)
  refusal hr := h'.refusal (h.refusal hr)
  refused hlt := by
    by_cases hd : d.refused < d'.refused
    · exact h'.refusal (h.refused hd)
    · exact h'.refused (by omega)
  bound hb := h'.bound (h.bound hb)

end Keeps

section Keep
variable {d : Deadlines} {task other : Task} {due now : ℕ} {e f : Entry}

lemma armed_of_ne {d' : Deadlines} (h : d'.lookup other = d.lookup other)
    (ha : d.Armed other) : d'.Armed other := by
  obtain ⟨e, hl, harm⟩ := ha
  exact ⟨e, h.trans hl, harm⟩

/-- A present entry is rewritten, and stays armed if it was. -/
lemma keeps_rewrite (h : d.lookup task = some e) (ha : e.armed = true → f.armed = true) :
    Keeps d { d with entries := d.entries.insert task f } where
  armed other harm := by
    by_cases ho : other = task
    · subst ho
      obtain ⟨g, hg, hgarm⟩ := harm
      obtain rfl : e = g := some.inj (h.symm.trans hg)
      exact ⟨f, AList.lookup_insert _, ha hgarm⟩
    · exact armed_of_ne (AList.lookup_insert_ne ho) harm
  refusal hr := hr
  refused hlt := absurd hlt (lt_irrefl _)
  bound hb := by
    have hlen := length_insert_of_mem (mem_of_lookup h) f
    change (d.entries.insert task f).entries.length ≤ DEADLINES
    rw [hlen]
    exact hb

lemma keeps_insert (h : d.lookup task = none) : Keeps d (d.insert task e) := by
  by_cases hfull : d.len = DEADLINES
  · rw [insert_of_full hfull]
    exact ⟨fun _ ha => ha, fun _ => rfl, fun _ => rfl, id⟩
  · rw [insert_of_room hfull]
    refine ⟨?_, id, fun hlt => absurd hlt (lt_irrefl _), ?_⟩
    · intro other harm
      have ho : other ≠ task := by
        intro ho
        obtain ⟨g, hg, _⟩ := harm
        rw [ho, h] at hg
        cases hg
      exact armed_of_ne (AList.lookup_insert_ne ho) harm
    · intro hb
      have hlen := length_insert_of_notMem (notMem_of_lookup h) e
      change (d.entries.insert task e).entries.length ≤ DEADLINES
      rw [hlen]
      change d.entries.entries.length ≤ DEADLINES at hb
      change d.entries.entries.length ≠ DEADLINES at hfull
      omega

/-- A task that is put into the map is armed or refused. -/
lemma insert_placed (ha : e.armed = true) :
    (d.insert task e).Armed task ∨ d.refused < (d.insert task e).refused := by
  by_cases hfull : d.len = DEADLINES
  · right
    rw [insert_of_full hfull]
    exact Nat.lt_succ_self _
  · left
    rw [insert_of_room hfull]
    exact ⟨e, AList.lookup_insert _, ha⟩

lemma keeps_failed : Keeps d (d.failed task now) := by
  unfold failed
  split
  · rename_i h
    exact keeps_rewrite h fun _ => rfl
  · rename_i h
    exact keeps_insert h

lemma failed_placed :
    (d.failed task now).Armed task ∨ d.refused < (d.failed task now).refused := by
  unfold failed
  split
  · exact .inl ⟨_, AList.lookup_insert _, rfl⟩
  · exact insert_placed rfl

lemma keeps_at : Keeps d (d.at task due) := by
  unfold «at»
  split
  · rename_i e h
    split
    · split
      · exact Keeps.refl d
      · exact keeps_rewrite h id
    · exact keeps_rewrite h fun _ => rfl
  · rename_i h
    exact keeps_insert h

lemma at_placed : (d.at task due).Armed task ∨ d.refused < (d.at task due).refused := by
  unfold «at»
  split
  · rename_i e h
    split
    · rename_i ha
      split
      · exact .inl ⟨e, h, ha⟩
      · exact .inl ⟨_, AList.lookup_insert _, ha⟩
    · exact .inl ⟨_, AList.lookup_insert _, rfl⟩
  · exact insert_placed rfl

lemma keeps_clear : Keeps d (d.clear task) := by
  unfold clear
  split
  · rename_i e h
    split
    · exact keeps_rewrite h id
    · rename_i hna
      refine ⟨?_, id, fun hlt => absurd hlt (lt_irrefl _),
        fun hb => (length_erase_le _ _).trans hb⟩
      intro other harm
      have ho : other ≠ task := by
        intro ho
        obtain ⟨g, hg, hgarm⟩ := harm
        rw [ho, h] at hg
        cases hg
        exact hna hgarm
      exact armed_of_ne (AList.lookup_erase_ne ho) harm
  · exact Keeps.refl d

lemma remove_bound (hb : d.len ≤ DEADLINES) : (d.remove task).len ≤ DEADLINES :=
  (length_erase_le _ _).trans hb

lemma waiting_armed (h : d.waiting task now = true) : d.Armed task := by
  unfold waiting at h
  rw [Option.any_eq_true] at h
  obtain ⟨e, hl, he⟩ := h
  rw [Bool.and_eq_true] at he
  exact ⟨e, hl, he.1⟩

end Keep

section Due
variable {d : Deadlines} {task : Task} {now : ℕ} {e : Entry}

lemma mem_dueTasks : task ∈ d.dueTasks now ↔
    ∃ e, d.lookup task = some e ∧ e.armed = true ∧ e.due ≤ now := by
  unfold dueTasks
  rw [List.mem_map]
  constructor
  · rintro ⟨⟨t, e⟩, hmem, rfl⟩
    rw [mem_filter, Bool.and_eq_true, decide_eq_true_iff] at hmem
    exact ⟨e, AList.mem_lookup_iff.2 hmem.1, hmem.2⟩
  · rintro ⟨e, hl, he⟩
    refine ⟨⟨task, e⟩, ?_, rfl⟩
    rw [mem_filter, Bool.and_eq_true, decide_eq_true_iff]
    exact ⟨AList.mem_lookup_iff.1 hl, he⟩

lemma lookup_due_of_later (h : d.lookup task = some e) (ha : e.armed = true)
    (hlater : now < e.due) : (d.due now).lookup task = some e := by
  rw [lookup_due, h]
  have hf : fired now task e = some e := by
    unfold fired
    rw [if_neg]
    rw [Bool.and_eq_true, decide_eq_true_iff, not_and]
    intro _
    omega
  rw [bind_some, hf, bind_some]
  unfold pruned
  rw [if_pos]
  rw [ha]
  rfl

lemma due_armed (h : d.Armed task) : task ∈ d.dueTasks now ∨ (d.due now).Armed task := by
  obtain ⟨e, hl, ha⟩ := h
  by_cases hd : e.due ≤ now
  · exact .inl (mem_dueTasks.2 ⟨e, hl, ha, hd⟩)
  · exact .inr ⟨e, lookup_due_of_later hl ha (by omega), ha⟩

lemma due_bound (hb : d.len ≤ DEADLINES) : (d.due now).len ≤ DEADLINES :=
  ((length_retain_le _ _).trans (length_retain_le _ _)).trans hb

lemma due_refusal (h : d.refusal.isSome = true) :
    d.rescanDue now = true ∨ (d.due now).refusal.isSome = true := by
  by_cases hr : d.rescanDue now = true
  · exact .inl hr
  · right
    unfold due
    rw [if_neg hr]
    exact h

lemma earlier_le_left {a : ℕ} {b : Option ℕ} : ∃ t, earlier (some a) b = some t ∧ t ≤ a := by
  cases b with
  | none => exact ⟨a, rfl, le_rfl⟩
  | some b => exact ⟨min a b, rfl, min_le_left _ _⟩

lemma earlier_le_right {a : Option ℕ} {b : ℕ} : ∃ t, earlier a (some b) = some t ∧ t ≤ b := by
  cases a with
  | none => exact ⟨b, rfl, le_rfl⟩
  | some a => exact ⟨min a b, rfl, min_le_right _ _⟩

/-- The worker never sleeps past an armed deadline. -/
lemma next_le_due (h : d.lookup task = some e) (ha : e.armed = true) :
    ∃ t, d.next = some t ∧ t ≤ e.due := by
  have hmem : e.due ∈ (d.entries.entries.filter fun e => e.2.armed).map fun e => e.2.due := by
    rw [List.mem_map]
    exact ⟨⟨task, e⟩, mem_filter.2 ⟨AList.mem_lookup_iff.1 h, ha⟩, rfl⟩
  unfold next
  cases hmin : ((d.entries.entries.filter fun e => e.2.armed).map fun e => e.2.due).min? with
  | none =>
    rw [min?_eq_none_iff] at hmin
    rw [hmin] at hmem
    cases hmem
  | some m =>
    obtain ⟨t, ht, hle⟩ := earlier_le_left (a := m) (b := d.refusal)
    have hm : m ≤ e.due := (min?_eq_some_iff.1 hmin).2 _ hmem
    exact ⟨t, ht, hle.trans hm⟩

lemma next_le_refusal {r : ℕ} (h : d.refusal = some r) : ∃ t, d.next = some t ∧ t ≤ r := by
  unfold next
  rw [h]
  exact earlier_le_right

end Due
end Deadlines
end LibrePaper.Storage
