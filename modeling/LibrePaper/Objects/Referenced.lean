import LibrePaper.Objects.Store

/-!
# Objects that rows name stay

What an upload or a compaction has written is not named yet and is younger than what a sweep
takes. What a sweep is about to delete is locked, old and not named. A purge and the sweep of the
bases delete only what is excused, and no cleanup runs beside a backup.
-/
namespace LibrePaper.Objects
open Library List

/-- The key of an asset or a base. -/
def Key.Own (k : Key) : Prop := ∃ d n, k = .own d n

lemma Key.not_own_archive (d tree : ℕ) : ¬(Key.archive d tree).Own := by
  rintro ⟨_, _, h⟩
  cases h

variable {r : Row}

lemma Row.Due.later {n m : ℕ} (h : r.Due n) (hle : n ≤ m) : r.Due m := by
  obtain ⟨due, hdue, hk⟩ := h
  exact ⟨due, hdue.trans hle, hk⟩

namespace System

def Purged (s : System) (d : ℕ) : Prop := s.status d = .purging ∨ s.status d = .gone

/-- No key will be made that is this one. -/
def Known (s : System) (k : Key) : Prop := ∀ d n, k = .own d n → n < s.next

/-- A call has written this object and will name it. -/
def Stages (s : System) (c : ℕ) (x : Staged) : Prop := ∃ call, s.calls c = some call ∧ x ∈ call.staged

structure Staging (s : System) (x : Staged) : Prop where
  own : x.key.Own
  known : s.Known x.key
  unnamed : ¬s.Referenced x.key
  written : ∀ w, s.objects x.key = some w → w = x.written
  gone : s.objects x.key = none → x.written + grace ≤ s.now ∨ s.Purged x.key.document

/-- Whoever has written it has done so by this time. -/
def Seen (s : System) (k : Key) (w : ℕ) : Prop :=
  s.Known k ∧ ∀ c x, s.Stages c x → x.key = k → x.written ≤ w

/-- Whoever has written it is too late to name it. -/
def Old (s : System) (k : Key) : Prop :=
  s.Known k ∧ ∀ c x, s.Stages c x → x.key = k → x.written + grace ≤ s.now

/-- Only snapshots past their grace name it. -/
structure Retired (s : System) (k : Key) : Prop where
  own : k.Own
  known : s.Known k
  unstaged : ∀ c x, s.Stages c x → x.key ≠ k
  due : ∀ r ∈ s.rows, r.key = k → r.Due s.now

/-- What a call has made sure of. -/
def Holds (s : System) (c : ℕ) : Call → Prop
  | .upload d staged => (∀ x ∈ staged, x.key.document = d) ∧ (staged.map Staged.key).Nodup
  | .base _ | .done => True
  | .archive k phase => ¬k.Own ∧ s.locks k = some c ∧
      (phase = .held → s.objects k ≠ none ∨ s.Purged k.document)
  | .entered => c ∈ s.shared
  | .listed page => c ∈ s.shared ∧ ∀ p ∈ page, s.Seen p.1 p.2
  | .candidates todo => c ∈ s.shared ∧ ∀ k ∈ todo, s.Old k
  | .locked k rest => c ∈ s.shared ∧ s.locks k = some c ∧ s.Old k ∧ ∀ k ∈ rest, s.Old k
  | .unreferenced k rest => c ∈ s.shared ∧ s.locks k = some c ∧ ¬s.Referenced k ∧ s.Old k ∧
      ∀ k ∈ rest, s.Old k
  | .due todo => c ∈ s.shared ∧ ∀ k ∈ todo, s.Retired k
  | .removed k rest => c ∈ s.shared ∧ s.Retired k ∧ ∀ k ∈ rest, s.Retired k
  | .purging d todo => c ∈ s.shared ∧ s.Purged d ∧ ∀ k ∈ todo, k.document = d
  | .holding => s.backup = some c
  | .copying _ present => s.backup = some c ∧ ∀ k, present k = true → s.objects k ≠ none

structure Inv (s : System) : Prop where
  calls : ∀ c call, s.calls c = some call → s.Holds c call
  staging : ∀ c x, s.Stages c x → s.Staging x
  distinct : ∀ c d x y, s.Stages c x → s.Stages d y → x.key = y.key → c = d
  keys : (s.rows.map Row.key).Nodup
  kinds : ∀ r ∈ s.rows, r.key.Own ↔ r.kind ≠ .archive
  known : ∀ r ∈ s.rows, s.Known r.key
  objects : ∀ k w, s.objects k = some w → s.Known k
  standing : ∀ r ∈ s.rows, s.status r.key.document ≠ .gone
  stored : ∀ r ∈ s.rows, s.Purged r.key.document ∨ r.Due s.now ∨ s.objects r.key ≠ none
  exclusive : s.backup ≠ none → s.shared = []

/-- A key that a call may name: one of an object that it has written, in time, or one that it has
locked. -/
def Fits (s : System) (c : ℕ) (k : Key) : Prop :=
  (∃ x, s.Stages c x ∧ x.key = k ∧ s.now < x.written + grace) ∨ ¬k.Own ∧ s.locks k = some c

/-- A key whose object a call may delete. -/
def Doomed (s : System) (c : ℕ) (k : Key) : Prop :=
  c ∈ s.shared ∧
    (s.Old k ∧ ¬s.Referenced k ∧ s.locks k = some c ∨ s.Retired k ∨ s.Purged k.document)

/-- What a call's step leaves as it is for the others. -/
structure Frame (s t : System) (c : ℕ) : Prop where
  now : s.now ≤ t.now
  next : s.next ≤ t.next
  calls : ∀ d, d ≠ c → t.calls d = s.calls d
  purged : ∀ d, s.Purged d → t.Purged d
  staged : ∀ x, t.Stages c x → s.Stages c x ∨ ¬s.Known x.key
  rows : ∀ r ∈ t.rows, (∃ m ∈ s.rows, m.key = r.key ∧ (m.Due s.now → r.Due t.now)) ∨
      s.Fits c r.key ∧ ∀ x, t.Stages c x → x.key ≠ r.key
  put : ∀ k w, t.objects k = some w →
      s.objects k = some w ∨ ¬s.Known k ∨ ¬k.Own
  gone : ∀ k, t.objects k = none → s.objects k = none ∨ s.Doomed c k
  locks : ∀ d k, d ≠ c → s.locks k = some d → t.locks k = some d
  shared : ∀ d, d ≠ c → d ∈ s.shared → d ∈ t.shared
  backup : ∀ d, d ≠ c → s.backup = some d → t.backup = some d

lemma Frame.refl (s : System) (c : ℕ) : Frame s s c where
  now := Nat.le_refl _
  next := Nat.le_refl _
  calls := fun _ _ => rfl
  purged := fun _ h => h
  staged := fun _ => .inl
  rows := fun r hr => .inl ⟨r, hr, rfl, id⟩
  put := fun _ _ => .inl
  gone := fun _ => .inl
  locks := fun _ _ _ h => h
  shared := fun _ _ h => h
  backup := fun _ _ h => h

namespace Frame

variable {s t : System} {c d : ℕ}

variable {k : Key} {x : Staged}

lemma known (hf : Frame s t c) (h : s.Known k) : t.Known k :=
  fun d n hk => (h d n hk).trans_le hf.next

/-- Whatever is staged was staged before or is new. -/
lemma stages (hf : Frame s t c) (h : t.Stages d x) : s.Stages d x ∨ d = c ∧ ¬s.Known x.key := by
  by_cases hd : d = c
  · subst hd
    exact (hf.staged x h).imp id fun hk => ⟨rfl, hk⟩
  · obtain ⟨call, hc, hx⟩ := h
    exact .inl ⟨call, (hf.calls d hd).symm.trans hc, hx⟩

lemma seen (hf : Frame s t c) {w : ℕ} (h : s.Seen k w) : t.Seen k w := by
  refine ⟨hf.known h.1, fun d x hx hk => ?_⟩
  rcases hf.stages hx with hx | ⟨-, hx⟩
  · exact h.2 d x hx hk
  · exact absurd (hk ▸ h.1) hx

lemma old (hf : Frame s t c) (h : s.Old k) : t.Old k := by
  refine ⟨hf.known h.1, fun d x hx hk => ?_⟩
  rcases hf.stages hx with hx | ⟨-, hx⟩
  · exact (h.2 d x hx hk).trans hf.now
  · exact absurd (hk ▸ h.1) hx

lemma retired (hf : Frame s t c) (h : s.Retired k) : t.Retired k := by
  refine ⟨h.own, hf.known h.known, fun d x hx hk => ?_, fun r hr hk => ?_⟩
  · rcases hf.stages hx with hx | ⟨-, hx⟩
    · exact h.unstaged d x hx hk
    · exact hx (hk ▸ h.known)
  · rcases hf.rows r hr with ⟨m, hm, hmk, hdue⟩ | ⟨⟨x, hx, hxk, -⟩ | ⟨hown, -⟩, -⟩
    · exact hdue (h.due m hm (hmk.trans hk))
    · exact absurd (hxk.trans hk) (h.unstaged c x hx)
    · exact absurd (hk ▸ h.own) hown

/-- A key that an old call still holds is not named by the step of another. -/
lemma unreferenced (hf : Frame s t c) (hd : d ≠ c) (hold : s.Old k) (hlock : s.locks k = some d)
    (h : ¬s.Referenced k) : ¬t.Referenced k := by
  rintro ⟨r, hr, hk⟩
  rcases hf.rows r hr with ⟨m, hm, hmk, -⟩ | ⟨⟨x, hx, hxk, hlt⟩ | ⟨-, hc⟩, -⟩
  · exact h ⟨m, hm, hmk.trans hk⟩
  · exact absurd (hold.2 c x hx (hxk.trans hk)) (Nat.not_le.2 hlt)
  · rw [hk, hlock] at hc
    exact hd (Option.some.inj hc)

/-- What the other calls have made sure of stays so. -/
lemma holds (hf : Frame s t c) (hi : Inv s) (hd : d ≠ c) {call : Call} (h : s.Holds d call) :
    t.Holds d call := by
  cases call with
  | upload _ _ => exact h
  | base _ => trivial
  | done => trivial
  | archive k phase =>
    refine ⟨h.1, hf.locks d k hd h.2.1, fun hp => ?_⟩
    rcases h.2.2 hp with ho | ho
    · by_cases ht : t.objects k = none
      · rcases hf.gone k ht with hs | ⟨-, ⟨-, -, hc⟩ | hr | hpurged⟩
        · exact absurd hs ho
        · exact absurd (Option.some.inj (h.2.1.symm.trans hc)) hd
        · exact absurd hr.own h.1
        · exact .inr (hf.purged _ hpurged)
      · exact .inl ht
    · exact .inr (hf.purged _ ho)
  | entered => exact hf.shared d hd h
  | listed page => exact ⟨hf.shared d hd h.1, fun p hp => hf.seen (h.2 p hp)⟩
  | candidates todo => exact ⟨hf.shared d hd h.1, fun k hk => hf.old (h.2 k hk)⟩
  | locked k rest =>
    exact ⟨hf.shared d hd h.1, hf.locks d k hd h.2.1, hf.old h.2.2.1,
      fun k hk => hf.old (h.2.2.2 k hk)⟩
  | unreferenced k rest =>
    exact ⟨hf.shared d hd h.1, hf.locks d k hd h.2.1,
      hf.unreferenced hd h.2.2.2.1 h.2.1 h.2.2.1, hf.old h.2.2.2.1,
      fun k hk => hf.old (h.2.2.2.2 k hk)⟩
  | due todo => exact ⟨hf.shared d hd h.1, fun k hk => hf.retired (h.2 k hk)⟩
  | removed k rest =>
    exact ⟨hf.shared d hd h.1, hf.retired h.2.1, fun k hk => hf.retired (h.2.2 k hk)⟩
  | purging e todo => exact ⟨hf.shared d hd h.1, hf.purged e h.2.1, h.2.2⟩
  | holding => exact hf.backup d hd h
  | copying named present =>
    refine ⟨hf.backup d hd h.1, fun k hk ht => ?_⟩
    rcases hf.gone k ht with hs | ⟨hshared, -⟩
    · exact h.2 k hk hs
    · rw [hi.exclusive (by rw [h.1]; exact Option.some_ne_none d)] at hshared
      exact absurd hshared (not_mem_nil)

lemma staging (hf : Frame s t c) (hi : Inv s) (hx : s.Stages d x) (ht : t.Stages d x) :
    t.Staging x := by
  have h := hi.staging d x hx
  refine ⟨h.own, hf.known h.known, ?_, fun w hw => ?_, fun hnone => ?_⟩
  · rintro ⟨r, hr, hk⟩
    rcases hf.rows r hr with ⟨m, hm, hmk, -⟩ | ⟨⟨y, hy, hyk, -⟩ | ⟨hown, -⟩, hnew⟩
    · exact h.unnamed ⟨m, hm, hmk.trans hk⟩
    · cases hi.distinct c d y x hy hx (hyk.trans hk)
      exact hnew x ht hk.symm
    · exact hown (hk ▸ h.own)
  · rcases hf.put x.key w hw with hs | hs | hs
    · exact h.written w hs
    · exact absurd h.known hs
    · exact absurd h.own hs
  · rcases hf.gone x.key hnone with hs | ⟨-, ⟨hold, -⟩ | hr | hp⟩
    · exact (h.gone hs).imp (fun hle => hle.trans hf.now) (hf.purged _)
    · exact .inl ((hold.2 d x hx rfl).trans hf.now)
    · exact absurd rfl (hr.unstaged d x hx)
    · exact .inr (hf.purged _ hp)

/-- A row that was there is still excused or still has its object. -/
lemma stored (hf : Frame s t c) {m : Row} (hm : m ∈ s.rows) (hk : m.key = r.key)
    (hdue : m.Due s.now → r.Due t.now)
    (h : s.Purged m.key.document ∨ m.Due s.now ∨ s.objects m.key ≠ none) :
    t.Purged r.key.document ∨ r.Due t.now ∨ t.objects r.key ≠ none := by
  rcases h with h | h | h
  · exact .inl (hk ▸ hf.purged _ h)
  · exact .inr (.inl (hdue h))
  by_cases ht : t.objects r.key = none
  · rcases hf.gone _ ht with hs | ⟨-, ⟨-, hn, -⟩ | hr | hp⟩
    · exact absurd (hk ▸ hs) h
    · exact absurd ⟨m, hm, hk⟩ hn
    · exact .inr (.inl (hdue (hr.due m hm hk)))
    · exact .inl (hf.purged _ hp)
  · exact .inr (.inr ht)

end Frame

variable {s t : System} {c d : ℕ}

variable {call : Call} {x : Staged} {k : Key} {e w digest : ℕ}

lemma stages_iff (hc : s.calls c = some call) : s.Stages c x ↔ x ∈ call.staged := by
  refine ⟨fun ⟨call', hc', hx⟩ => ?_, fun hx => ⟨call, hc, hx⟩⟩
  rw [hc] at hc'
  cases hc'
  exact hx

lemma not_stages (hc : s.calls c = some call) (hstaged : call.staged = []) (x : Staged) :
    ¬s.Stages c x := by
  rw [stages_iff hc, hstaged]
  exact not_mem_nil

lemma Known.of_not_own (h : ¬k.Own) : s.Known k := fun d n hk => absurd ⟨d, n, hk⟩ h

/-- A call's step keeps the invariant when it is framed, its own call holds what it should, and its
new objects and rows are as they should be. -/
lemma Inv.frame (hi : Inv s) (hf : Frame s t c)
    (hown : ∀ call, t.calls c = some call → t.Holds c call)
    (hnew : ∀ x, t.Stages c x → ¬s.Known x.key → t.Staging x)
    (hkeys : (t.rows.map Row.key).Nodup)
    (hrows : ∀ r ∈ t.rows, (∃ m ∈ s.rows, m.key = r.key ∧ (m.kind = .archive ↔ r.kind = .archive) ∧
        (m.Due s.now → r.Due t.now)) ∨
      (r.key.Own ↔ r.kind ≠ .archive) ∧ t.Known r.key ∧
        (t.Purged r.key.document ∨ r.Due t.now ∨ t.objects r.key ≠ none))
    (hobjects : ∀ k w, t.objects k = some w → t.Known k)
    (hstanding : ∀ r ∈ t.rows, t.status r.key.document ≠ .gone)
    (hexclusive : t.backup ≠ none → t.shared = []) : Inv t := by
  refine ⟨fun d call hc => ?_, fun d x hx => ?_, fun d e x y hx hy hk => ?_, hkeys,
    fun r hr => ?_, fun r hr => ?_, hobjects, hstanding, fun r hr => ?_, hexclusive⟩
  · by_cases hd : d = c
    · subst hd
      exact hown call hc
    · exact hf.holds hi hd (hi.calls d call ((hf.calls d hd).symm.trans hc))
  · rcases hf.stages hx with hs | ⟨rfl, hs⟩
    · exact hf.staging hi hs hx
    · exact hnew x hx hs
  · rcases hf.stages hx with hsx | ⟨rfl, hsx⟩
    · rcases hf.stages hy with hsy | ⟨rfl, hsy⟩
      · exact hi.distinct d e x y hsx hsy hk
      · exact absurd (hk ▸ (hi.staging d x hsx).known) hsy
    · rcases hf.stages hy with hsy | ⟨rfl, -⟩
      · exact absurd (hk ▸ (hi.staging e y hsy).known) hsx
      · rfl
  · rcases hrows r hr with ⟨m, hm, hk, hkind, -⟩ | ⟨h, -⟩
    · rw [← hk, hi.kinds m hm, ne_eq, ne_eq, hkind]
    · exact h
  · rcases hrows r hr with ⟨m, hm, hk, -⟩ | ⟨-, h, -⟩
    · exact hk ▸ hf.known (hi.known m hm)
    · exact h
  · rcases hrows r hr with ⟨m, hm, hk, -, hdue⟩ | ⟨-, -, h⟩
    · exact hf.stored hm hk hdue (hi.stored m hm)
    · exact h

/-- A step of a call that has nothing to name and that leaves the rows. -/
lemma Inv.same_rows (hi : Inv s) (hf : Frame s t c) (hc : t.calls c = some call)
    (hstaged : call.staged = []) (hown : t.Holds c call) (hrows : t.rows = s.rows)
    (hstatus : t.status = s.status) (hobjects : ∀ k w, t.objects k = some w →
      s.objects k = some w ∨ ¬k.Own) (hexclusive : t.backup ≠ none → t.shared = []) : Inv t := by
  refine hi.frame hf (fun call' h => ?_) (fun x hx => absurd hx (not_stages hc hstaged x))
    (hrows ▸ hi.keys) (fun r hr => .inl ⟨r, hrows ▸ hr, rfl, Iff.rfl, fun h => h.later hf.now⟩)
    (fun k w hk => ?_) (fun r hr => hstatus ▸ hi.standing r (hrows ▸ hr)) hexclusive
  · cases hc.symm.trans h
    exact hown
  · rcases hobjects k w hk with h | h
    · exact hf.known (hi.objects k w h)
    · exact Known.of_not_own h

lemma setCall_self (s : System) (c : ℕ) (call : Call) :
    (s.setCall c call).calls c = some call := Function.update_self ..

lemma Frame.setCall (s : System) (c : ℕ) (hstaged : call.staged = []) :
    Frame s (s.setCall c call) c :=
  { Frame.refl s c with
    calls := fun _ h => Function.update_of_ne h ..
    rows := fun r hr => .inl ⟨r, hr, rfl, id⟩
    staged := fun x hx => absurd hx (not_stages (setCall_self s c call) hstaged x) }

lemma Inv.setCall (hi : Inv s) (hstaged : call.staged = [])
    (hown : (s.setCall c call).Holds c call) : Inv (s.setCall c call) :=
  hi.same_rows (Frame.setCall s c hstaged) (setCall_self s c call) hstaged hown rfl rfl
    (fun _ _ => .inl) hi.exclusive

/-- A step that no call makes. -/
lemma Inv.global (hi : Inv s) (hf : ∀ c, Frame s t c) (hcalls : t.calls = s.calls)
    (hkeys : (t.rows.map Row.key).Nodup) (hrows : ∀ r ∈ t.rows, r ∈ s.rows)
    (hobjects : t.objects = s.objects) (hstanding : ∀ r ∈ t.rows, t.status r.key.document ≠ .gone)
    (hbackup : t.backup = s.backup) (hshared : t.shared = s.shared) : Inv t := by
  refine hi.frame (hf 0) (fun call hc => ?_) (fun x hx hk => ?_) hkeys
    (fun r hr => .inl ⟨r, hrows r hr, rfl, Iff.rfl, fun h => h.later (hf 0).now⟩)
    (fun k w hk => (hf 0).known (hi.objects k w (hobjects ▸ hk))) hstanding
    (by rw [hbackup, hshared]; exact hi.exclusive)
  · exact (hf 1).holds hi Nat.zero_ne_one (hi.calls 0 call (hcalls ▸ hc))
  · obtain ⟨call, hc, hx⟩ := hx
    exact absurd (hi.staging 0 x ⟨call, hcalls ▸ hc, hx⟩).known hk

lemma Inv.tick (hi : Inv s) (n : ℕ) : Inv { s with now := s.now + n } :=
  hi.global (fun c =>
    { Frame.refl s c with
      now := Nat.le_add_right _ _
      rows := fun r hr => .inl ⟨r, hr, rfl, fun h => h.later (Nat.le_add_right _ _)⟩ })
    rfl hi.keys (fun _ hr => hr) rfl hi.standing rfl rfl

lemma status_self (s : System) (d : ℕ) (status : Status) :
    (s.setStatus d status).status d = status := Function.update_self ..

lemma status_of_ne (h : e ≠ d) (status : Status) :
    (s.setStatus d status).status e = s.status e := Function.update_of_ne h ..

/-- A document's status changes, but not back from its purge. -/
lemma Inv.setStatus (hi : Inv s) {status : Status} (hold : ¬s.Purged d) (hnew : status ≠ .gone) :
    Inv (s.setStatus d status) := by
  have hframe : ∀ c, Frame s (s.setStatus d status) c := fun c =>
    { Frame.refl s c with
      purged := fun e he => by
        have hne : e ≠ d := fun h => hold (h ▸ he)
        rw [Purged, status_of_ne hne]
        exact he }
  refine hi.global hframe rfl hi.keys (fun r hr => hr) rfl (fun r hr => ?_) rfl rfl
  by_cases hk : r.key.document = d
  · rw [hk, status_self]
    exact hnew
  · rw [status_of_ne hk]
    exact hi.standing r hr

lemma Inv.trim (hi : Inv s) (d : ℕ) (referenced : List ℕ) : Inv (s.trim d referenced) :=
  hi.global (fun c =>
    { Frame.refl s c with
      rows := fun r hr => .inl ⟨r, mem_of_mem_filter hr, rfl, id⟩ })
    rfl (hi.keys.sublist (filter_sublist.map _)) (fun _ => mem_of_mem_filter) rfl
    (fun r hr => hi.standing r (mem_of_mem_filter hr)) rfl rfl

lemma locks_unlock (hd : d ≠ c) (h : s.locks k = some d) : (s.unlock c).locks k = some d := by
  have hne : s.locks k ≠ some c := fun hc => hd (Option.some.inj (h.symm.trans hc))
  exact (if_neg hne).trans h

lemma mem_shared_endCall (hd : d ≠ c) (h : d ∈ s.shared) : d ∈ (s.endCall c).shared :=
  mem_filter.2 ⟨h, by simpa using hd⟩

lemma backup_endCall (hd : d ≠ c) (h : s.backup = some d) : (s.endCall c).backup = some d := by
  have hne : s.backup ≠ some c := fun hc => hd (Option.some.inj (h.symm.trans hc))
  exact (if_neg hne).trans h

lemma calls_endCall (s : System) (c : ℕ) : (s.endCall c).calls c = some .done :=
  Function.update_self ..

lemma exclusive_endCall (h : s.backup ≠ none → s.shared = []) :
    (s.endCall c).backup ≠ none → (s.endCall c).shared = [] := by
  intro hb
  have hs : s.shared = [] := h fun hn => hb (by simp [endCall, hn])
  simp [endCall, hs]

lemma not_stages_endCall (s : System) (c : ℕ) (x : Staged) : ¬(s.endCall c).Stages c x :=
  not_stages (calls_endCall s c) rfl x

lemma Frame.endCall (s : System) (c : ℕ) : Frame s (s.endCall c) c :=
  { (Frame.setCall s c rfl : Frame s (s.setCall c .done) c) with
    locks := fun _ _ hd => locks_unlock hd
    shared := fun _ hd => mem_shared_endCall hd
    backup := fun _ hd h => backup_endCall hd h }

lemma Inv.endCall (hi : Inv s) (c : ℕ) : Inv (s.endCall c) :=
  hi.same_rows (Frame.endCall s c) (calls_endCall s c) rfl trivial rfl rfl
    (fun _ _ => .inl) (exclusive_endCall hi.exclusive)

/-- A free key is locked. -/
def lockKey (s : System) (c : ℕ) (k : Key) (call : Call) : System :=
  { s with locks := Function.update s.locks k (some c) }.setCall c call

lemma locks_lockKey (s : System) (c : ℕ) (k : Key) (call : Call) :
    (s.lockKey c k call).locks k = some c := Function.update_self ..

lemma calls_lockKey (s : System) (c : ℕ) (k : Key) (call : Call) :
    (s.lockKey c k call).calls c = some call := Function.update_self ..

lemma Frame.lockKey (hfree : s.locks k = none) (hstaged : call.staged = []) :
    Frame s (s.lockKey c k call) c :=
  { Frame.setCall s c hstaged with
    locks := fun d k' _ hk => by
      have hne : k' ≠ k := fun h => Option.some_ne_none d (hk.symm.trans (h ▸ hfree))
      exact (Function.update_of_ne hne ..).trans hk }

lemma Inv.lockKey (hi : Inv s) (hfree : s.locks k = none) (hstaged : call.staged = [])
    (hown : (s.lockKey c k call).Holds c call) : Inv (s.lockKey c k call) :=
  hi.same_rows (Frame.lockKey hfree hstaged) (calls_lockKey s c k call) hstaged hown rfl rfl
    (fun _ _ => .inl) hi.exclusive

lemma Inv.acquire (hi : Inv s) {tree : ℕ} (h : s.acquire c e tree = some t) : Inv t := by
  rw [System.acquire] at h
  split at h
  · next hfree =>
    cases h
    exact hi.lockKey hfree.2 rfl
      ⟨Key.not_own_archive e tree, locks_lockKey .., nofun⟩
  · cases h

lemma Inv.look (hi : Inv s) (h : s.look c = some t) : Inv t := by
  rw [System.look] at h
  split at h
  · next k hc =>
    cases h
    have hk := hi.calls c _ hc
    refine hi.setCall rfl ⟨hk.1, hk.2.1, fun hp => ?_⟩
    by_cases hr : s.Referenced k
    · obtain ⟨r, hr, rfl⟩ := hr
      rcases hi.stored r hr with h | ⟨due, -, hkind⟩ | h
      · exact .inr h
      · exact absurd ((hi.kinds r hr).2 (by rw [hkind]; exact Kind.noConfusion)) hk.1
      · exact .inl h
    · rw [if_neg hr] at hp
      cases hp
  · cases h

lemma Inv.adopt (hi : Inv s) (h : s.adopt c = some t) : Inv t := by
  rw [System.adopt] at h
  split at h
  · next k hc =>
    cases h
    have hk := hi.calls c _ hc
    by_cases hnone : s.objects k = none
    · rw [if_pos hnone]
      have hc' : ((s.write k).setCall c (.archive k .held)).calls c = some (.archive k .held) :=
        setCall_self ..
      have hput : ∀ k' w, Function.update s.objects k (some s.now) k' = some w →
          s.objects k' = some w ∨ ¬k'.Own := fun k' w hw => by
        by_cases h : k' = k
        · exact .inr (h ▸ hk.1)
        · exact .inl ((Function.update_of_ne h ..).symm.trans hw)
      refine hi.same_rows (c := c)
        { (Frame.setCall s c rfl : Frame s (s.setCall c (.archive k .held)) c) with
          put := fun k' w hw => (hput k' w hw).imp id .inr
          gone := fun k' hw => ?_ }
        hc' rfl ⟨hk.1, hk.2.1, fun _ => .inl ?_⟩ rfl rfl hput hi.exclusive
      · by_cases h : k' = k
        · exact .inl (h ▸ hnone)
        · exact .inl ((Function.update_of_ne h ..).symm.trans hw)
      · have hself : (s.write k).objects k = some s.now := Function.update_self ..
        exact fun h => Option.some_ne_none _ (hself.symm.trans h)
    · rw [if_neg hnone]
      exact hi.setCall rfl ⟨hk.1, hk.2.1, fun _ => .inl hnone⟩
  · cases h

lemma Inv.enter (hi : Inv s) (h : s.enter c = some t) : Inv t := by
  rw [System.enter] at h
  split at h
  · next hc =>
    cases h
    have hc' : ({ s with shared := c :: s.shared }.setCall c .entered).calls c = some .entered :=
      Function.update_self ..
    exact hi.same_rows (c := c)
      { (Frame.setCall s c rfl : Frame s (s.setCall c .entered) c) with
        shared := fun _ _ h => mem_cons_of_mem _ h }
      hc' rfl (mem_cons_self ..) rfl rfl (fun _ _ h => .inl h) fun hb => absurd hc.2 hb
  · cases h

lemma Inv.seen (hi : Inv s) (h : s.objects k = some w) : s.Seen k w :=
  ⟨hi.objects k w h, fun c x hx hk => ((hi.staging c x hx).written w (hk ▸ h)).ge⟩

lemma Inv.list (hi : Inv s) {page : List (Key × ℕ)} (h : s.list c page = some t) : Inv t := by
  rw [System.list] at h
  split at h
  · next hc =>
    split at h
    · next hpage =>
      cases h
      exact hi.setCall rfl ⟨hi.calls c _ hc,
        fun p hp => (Frame.setCall s c rfl).seen (hi.seen (hpage p hp))⟩
    · cases h
  · cases h

lemma Inv.filter (hi : Inv s) (h : s.filter c = some t) : Inv t := by
  rw [System.filter] at h
  split at h
  · next page hc =>
    cases h
    have hh := hi.calls c _ hc
    refine hi.setCall rfl ⟨hh.1, fun k hk => (Frame.setCall s c rfl).old ?_⟩
    obtain ⟨p, hp, rfl⟩ := mem_map.1 hk
    obtain ⟨hp, hcond⟩ := mem_filter.1 hp
    have hle := (of_decide_eq_true hcond).1
    have hseen := hh.2 p hp
    exact ⟨hseen.1, fun d x hx hk => (Nat.add_le_add_right (hseen.2 d x hx hk) grace).trans hle⟩
  · cases h

lemma Inv.lock (hi : Inv s) (h : s.lock c = some t) : Inv t := by
  rw [System.lock] at h
  split at h
  · next k rest hc =>
    have hh := hi.calls c _ hc
    have hrest : ∀ k ∈ rest, s.Old k := fun k hk => hh.2 k (mem_cons_of_mem _ hk)
    split at h
    · next hfree =>
      cases h
      have hf : Frame s (s.lockKey c k (.locked k rest)) c := Frame.lockKey hfree rfl
      exact hi.lockKey hfree rfl ⟨hh.1, locks_lockKey .., hf.old (hh.2 k (mem_cons_self ..)),
        fun k hk => hf.old (hrest k hk)⟩
    · cases h
      exact hi.setCall rfl ⟨hh.1, fun k hk => (Frame.setCall s c rfl).old (hrest k hk)⟩
  · cases h

lemma Frame.unlock (hstaged : call.staged = []) : Frame s ((s.unlock c).setCall c call) c :=
  { Frame.setCall s c hstaged with
    locks := fun _ _ hd h => locks_unlock hd h }

lemma Inv.check (hi : Inv s) (h : s.check c = some t) : Inv t := by
  rw [System.check] at h
  split at h
  · next k rest hc =>
    have hh := hi.calls c _ hc
    split at h
    · cases h
      exact hi.same_rows (Frame.unlock rfl) (setCall_self ..) rfl
        ⟨hh.1, fun k hk => (Frame.unlock rfl).old (hh.2.2.2 k hk)⟩ rfl rfl
        (fun _ _ => .inl) hi.exclusive
    · next hr =>
      cases h
      have hf : Frame s (s.setCall c (.unreferenced k rest)) c := Frame.setCall s c rfl
      exact hi.setCall rfl ⟨hh.1, hh.2.1, hr, hf.old hh.2.2.1, fun k hk => hf.old (hh.2.2.2 k hk)⟩
  · cases h

lemma gone_delete (hk : s.Doomed c k) (k' : Key) (h : (s.delete k).objects k' = none) :
    s.objects k' = none ∨ s.Doomed c k' := by
  by_cases hne : k' = k
  · exact .inr (hne ▸ hk)
  · exact .inl ((Function.update_of_ne hne ..).symm.trans h)

lemma put_delete {k' : Key} (h : (s.delete k).objects k' = some w) : s.objects k' = some w := by
  by_cases hne : k' = k
  · subst hne
    exact absurd ((Function.update_self ..).symm.trans h) (Option.some_ne_none w).symm
  · exact (Function.update_of_ne hne ..).symm.trans h

lemma Frame.delete (hk : s.Doomed c k) (hstaged : call.staged = []) :
    Frame s ((s.delete k).setCall c call) c :=
  { Frame.setCall s c hstaged with
    put := fun _ _ h => .inl (put_delete h)
    gone := gone_delete hk }

lemma Inv.delete (hi : Inv s) (hk : s.Doomed c k) (hstaged : call.staged = [])
    (hown : ((s.delete k).setCall c call).Holds c call) : Inv ((s.delete k).setCall c call) :=
  hi.same_rows (Frame.delete hk hstaged) (setCall_self ..) hstaged hown rfl rfl
    (fun _ _ h => .inl (put_delete h)) hi.exclusive

lemma Inv.sweep (hi : Inv s) (h : s.sweep c = some t) : Inv t := by
  rw [System.sweep] at h
  split at h
  · next k rest hc =>
    cases h
    obtain ⟨hshared, hlock, hr, hold, hrest⟩ := hi.calls c _ hc
    have hdoomed : s.Doomed c k := ⟨hshared, .inl ⟨hold, hr, hlock⟩⟩
    have hf : Frame s (((s.delete k).unlock c).setCall c (.candidates rest)) c :=
      { (Frame.setCall s c rfl : Frame s (s.setCall c (.candidates rest)) c) with
        put := fun k' w h => .inl (put_delete h)
        gone := gone_delete hdoomed
        locks := fun _ _ hd h => locks_unlock hd h }
    exact hi.same_rows hf (setCall_self ..) rfl ⟨hshared, fun k hk => hf.old (hrest k hk)⟩ rfl rfl
      (fun _ _ h => .inl (put_delete h)) hi.exclusive
  · cases h

lemma Inv.listDue (hi : Inv s) {keys : List Key} (h : s.listDue c keys = some t) : Inv t := by
  rw [System.listDue] at h
  split at h
  · next hc =>
    split at h
    · next hkeys =>
      cases h
      refine hi.setCall rfl ⟨hi.calls c _ hc, fun k hk => (Frame.setCall s c rfl).retired ?_⟩
      obtain ⟨r, hr, rfl, hdue⟩ := hkeys k hk
      obtain ⟨due, hle, hkind⟩ := id hdue
      refine ⟨(hi.kinds r hr).2 (by rw [hkind]; exact Kind.noConfusion), hi.known r hr,
        fun d x hx hx' => (hi.staging d x hx).unnamed ⟨r, hr, hx'.symm⟩, fun r' hr' hk' => ?_⟩
      exact inj_on_of_nodup_map hi.keys hr' hr hk' ▸ hdue
    · cases h
  · cases h

lemma Inv.removeBase (hi : Inv s) (h : s.removeBase c = some t) : Inv t := by
  rw [System.removeBase] at h
  split at h
  · next k rest hc =>
    cases h
    obtain ⟨hshared, htodo⟩ := hi.calls c _ hc
    have hk := htodo k (mem_cons_self ..)
    have hdoomed : s.Doomed c k := ⟨hshared, .inr (.inl hk)⟩
    have hf : Frame s ((s.delete k).setCall c (.removed k rest)) c := Frame.delete hdoomed rfl
    exact hi.delete hdoomed rfl ⟨hshared, hf.retired hk,
      fun k' hk' => hf.retired (htodo k' (mem_cons_of_mem _ hk'))⟩
  · cases h

lemma Inv.removeRow (hi : Inv s) (h : s.removeRow c = some t) : Inv t := by
  rw [System.removeRow] at h
  split at h
  · next k rest hc =>
    cases h
    obtain ⟨hshared, -, hrest⟩ := hi.calls c _ hc
    have hc' : ({ s with rows := s.rows.filter fun r => ¬(r.key = k ∧ r.Due s.now) }.setCall c
        (.due rest)).calls c = some (.due rest) := Function.update_self ..
    have hf : Frame s ({ s with rows := s.rows.filter fun r => ¬(r.key = k ∧ r.Due s.now) }.setCall
        c (.due rest)) c :=
      { (Frame.setCall s c rfl : Frame s (s.setCall c (.due rest)) c) with
        rows := fun r hr => .inl ⟨r, mem_of_mem_filter hr, rfl, id⟩ }
    refine hi.frame hf (fun call h => ?_) (fun x hx => absurd hx (not_stages hc' rfl x))
      (hi.keys.sublist (filter_sublist.map _))
      (fun r hr => .inl ⟨r, mem_of_mem_filter hr, rfl, Iff.rfl, id⟩)
      hi.objects (fun r hr => hi.standing r (mem_of_mem_filter hr)) hi.exclusive
    cases hc'.symm.trans h
    exact ⟨hshared, fun k hk => hf.retired (hrest k hk)⟩
  · cases h

lemma Inv.collect (hi : Inv s) (h : s.collect c e = some t) : Inv t := by
  rw [System.collect] at h
  split at h
  · next hc =>
    split at h
    · next hstatus =>
      cases h
      refine hi.setCall rfl ⟨hi.calls c _ hc, .inl hstatus, fun k hk => ?_⟩
      obtain ⟨r, hr, rfl⟩ := mem_map.1 hk
      exact of_decide_eq_true (mem_filter.1 hr).2
    · cases h
  · cases h

lemma Inv.purge (hi : Inv s) (h : s.purge c = some t) : Inv t := by
  rw [System.purge] at h
  split at h
  · next d k rest hc =>
    cases h
    obtain ⟨hshared, hpurged, hkeys⟩ := hi.calls c _ hc
    have hdoomed : s.Doomed c k :=
      ⟨hshared, .inr (.inr (by rw [hkeys k (mem_cons_self ..)]; exact hpurged))⟩
    exact hi.delete hdoomed rfl ⟨hshared, hpurged, fun k hk => hkeys k (mem_cons_of_mem _ hk)⟩
  · cases h

lemma Inv.finish (hi : Inv s) (h : s.finish c = some t) : Inv t := by
  rw [System.finish] at h
  split at h
  · next d hc =>
    cases h
    have hstatus : ∀ e, e ≠ d → (s.setStatus d .gone).status e = s.status e :=
      fun e he => status_of_ne he .gone
    have hf : Frame s (({ s with rows := s.rows.filter (·.key.document ≠ d) }.setStatus d
        .gone).endCall c) c :=
      { Frame.endCall s c with
        rows := fun r hr => .inl ⟨r, mem_of_mem_filter hr, rfl, id⟩
        purged := fun e he => by
          by_cases hed : e = d
          · exact .inr (hed ▸ status_self s d .gone)
          · exact he.imp (hstatus e hed).trans (hstatus e hed).trans }
    refine hi.frame hf (fun call h => ?_) (fun x hx => absurd hx (not_stages_endCall _ c x))
      (hi.keys.sublist (filter_sublist.map _))
      (fun r hr => .inl ⟨r, mem_of_mem_filter hr, rfl, Iff.rfl, id⟩)
      hi.objects (fun r hr => ?_) (exclusive_endCall hi.exclusive)
    · cases (calls_endCall _ c).symm.trans h
      trivial
    · obtain ⟨hr, hne⟩ := mem_filter.1 hr
      have := hstatus _ (of_decide_eq_true hne)
      exact fun h => hi.standing r hr (this.symm.trans h)
  · cases h

lemma Inv.beginBackup (hi : Inv s) (h : s.beginBackup c = some t) : Inv t := by
  rw [System.beginBackup] at h
  split at h
  · next hc =>
    cases h
    have hc' : ({ s with backup := some c }.setCall c .holding).calls c = some .holding :=
      Function.update_self ..
    exact hi.same_rows (c := c)
      { (Frame.setCall s c rfl : Frame s (s.setCall c .holding) c) with
        backup := fun d _ h => absurd (h.symm.trans hc.2.2) (Option.some_ne_none d) }
      hc' rfl rfl rfl rfl (fun _ _ => .inl) fun _ => hc.2.1
  · cases h

lemma Inv.snapshot (hi : Inv s) (h : s.snapshot c = some t) : Inv t := by
  rw [System.snapshot] at h
  split at h
  · next hc =>
    cases h
    exact hi.setCall rfl ⟨hi.calls c _ hc, fun _ => Option.isSome_iff_ne_none.1⟩
  · cases h

lemma not_known_next (s : System) (d : ℕ) : ¬s.Known (.own d s.next) :=
  fun h => Nat.lt_irrefl _ (h d s.next rfl)

/-- An object is written under the next key, and its call stages it. -/
def stage (s : System) (c d digest : ℕ) (f : Staged → Call) : System :=
  { s.write (.own d s.next) with next := s.next + 1 }.setCall c
    (f ⟨.own d s.next, digest, s.now⟩)

lemma Inv.stage (hi : Inv s) {f : Staged → Call}
    (hstaged : ∀ x, s.Stages c x ∨ x = ⟨.own d s.next, digest, s.now⟩ ↔
      x ∈ (f ⟨.own d s.next, digest, s.now⟩).staged)
    (hown : (s.stage c d digest f).Holds c (f ⟨.own d s.next, digest, s.now⟩)) :
    Inv (s.stage c d digest f) := by
  have hc : (s.stage c d digest f).calls c = some (f ⟨.own d s.next, digest, s.now⟩) :=
    setCall_self ..
  have hnew := not_known_next s d
  have hother : ∀ k, k ≠ .own d s.next → (s.write (.own d s.next)).objects k = s.objects k :=
    fun k hk => Function.update_of_ne hk ..
  have hself : (s.write (.own d s.next)).objects (.own d s.next) = some s.now :=
    Function.update_self ..
  have hf : Frame s (s.stage c d digest f) c :=
    { Frame.refl s c with
      calls := fun _ h => Function.update_of_ne h ..
      next := Nat.le_succ _
      rows := fun r hr => .inl ⟨r, hr, rfl, id⟩
      staged := fun x hx => by
        rcases (hstaged x).2 ((stages_iff hc).1 hx) with h | rfl
        · exact .inl h
        · exact .inr hnew
      put := fun k w hw => by
        by_cases hk : k = .own d s.next
        · exact .inr (.inl (hk ▸ hnew))
        · exact .inl ((hother k hk).symm.trans hw)
      gone := fun k hk => by
        by_cases h : k = .own d s.next
        · subst h
          exact absurd (hself.symm.trans hk) (Option.some_ne_none _)
        · exact .inl ((hother k h).symm.trans hk) }
  have hknown : (s.stage c d digest f).Known (.own d s.next) := fun e n hk => by
    cases hk
    exact Nat.lt_succ_self _
  refine hi.frame hf (fun call' h => ?_) (fun x hx hk => ?_) hi.keys
    (fun r hr => .inl ⟨r, hr, rfl, Iff.rfl, id⟩) (fun k w hw => ?_) hi.standing
    hi.exclusive
  · cases hc.symm.trans h
    exact hown
  · rcases (hstaged x).2 ((stages_iff hc).1 hx) with h | rfl
    · exact absurd (hi.staging c x h).known hk
    refine ⟨⟨d, s.next, rfl⟩, hknown, ?_, fun w hw => ?_, fun hw => ?_⟩
    · rintro ⟨r, hr, hrk⟩
      have hk : s.Known r.key := hi.known r hr
      rw [hrk] at hk
      exact hnew hk
    · exact (Option.some.inj (hself.symm.trans hw)).symm
    · exact absurd (hself.symm.trans hw) (Option.some_ne_none _)
  · rcases hf.put k w hw with h | h | h
    · exact hf.known (hi.objects k w h)
    · by_cases hk : k = .own d s.next
      · exact hk ▸ hknown
      · exact hf.known (hi.objects k w ((hother k hk).symm.trans hw))
    · exact Known.of_not_own h

lemma Inv.put (hi : Inv s) (h : s.put c d digest = some t) : Inv t := by
  rw [System.put] at h
  split at h
  · next hc =>
    cases h
    refine hi.stage (f := fun x => .upload d [x]) (fun x => ?_) ⟨fun x hx => ?_, ?_⟩
    · constructor
      · rintro (⟨call, hcall, -⟩ | rfl)
        · cases hc.symm.trans hcall
        · exact mem_cons_self ..
      · exact fun hx => .inr (mem_singleton.1 hx)
    · rw [mem_singleton.1 hx]
      rfl
    · exact nodup_singleton _
  · next e before hc =>
    split at h
    · next hcond =>
      cases h
      obtain ⟨rfl, -⟩ := hcond
      obtain ⟨hdoc, hnodup⟩ := hi.calls c _ hc
      refine hi.stage (f := fun x => .upload e (before ++ [x])) (fun x => ?_) ⟨fun x hx => ?_, ?_⟩
      · rw [stages_iff hc]
        exact (mem_append.trans (or_congr Iff.rfl mem_singleton)).symm
      · rcases mem_append.1 hx with hx | hx
        · exact hdoc x hx
        · rw [mem_singleton.1 hx]
          rfl
      · rw [map_append]
        refine nodup_append.2 ⟨hnodup, nodup_singleton _, fun a ha b hb hab => ?_⟩
        obtain ⟨x, hx, rfl⟩ := mem_map.1 ha
        rw [map_singleton, mem_singleton] at hb
        have hx' : s.Known x.key := (hi.staging c x ⟨_, hc, hx⟩).known
        rw [hab, hb] at hx'
        exact not_known_next s e hx'
    · cases h
  · cases h

lemma Inv.writeBase (hi : Inv s) (h : s.writeBase c d digest = some t) : Inv t := by
  rw [System.writeBase] at h
  split at h
  · next hc =>
    cases h
    refine hi.stage (f := .base) (fun x => ?_) trivial
    constructor
    · rintro (⟨call, hcall, -⟩ | rfl)
      · cases hc.symm.trans hcall
      · exact mem_cons_self ..
    · exact fun hx => .inr (mem_singleton.1 hx)
  · cases h

/-- An object that is staged in time is there. -/
lemma Staging.stored (h : s.Staging x) (htime : s.now < x.written + grace) :
    s.Purged x.key.document ∨ s.objects x.key ≠ none := by
  by_cases ho : s.objects x.key = none
  · rcases h.gone ho with hle | hp
    · exact absurd hle (Nat.not_le.2 htime)
    · exact .inl hp
  · exact .inr ho

/-- A call ends with the rows that it commits. -/
lemma Inv.commit (hi : Inv s) {rows : List Row} (hkeys : (rows.map Row.key).Nodup)
    (hrows : ∀ r ∈ rows, (∃ m ∈ s.rows, m.key = r.key ∧ (m.kind = .archive ↔ r.kind = .archive) ∧
        (m.Due s.now → r.Due s.now)) ∨
      (r.key.Own ↔ r.kind ≠ .archive) ∧ s.Known r.key ∧
        (s.Purged r.key.document ∨ r.Due s.now ∨ s.objects r.key ≠ none) ∧ s.Fits c r.key ∧
        s.status r.key.document ≠ .gone) :
    Inv ({ s with rows := rows }.endCall c) := by
  have hf : Frame s ({ s with rows := rows }.endCall c) c :=
    { Frame.endCall s c with
      rows := fun r hr => by
        rcases hrows r hr with ⟨m, hm, hk, -, hdue⟩ | ⟨-, -, -, hfits, -⟩
        · exact .inl ⟨m, hm, hk, hdue⟩
        · exact .inr ⟨hfits, fun x hx => absurd hx (not_stages_endCall _ c x)⟩ }
  refine hi.frame hf (fun call h => ?_) (fun x hx => absurd hx (not_stages_endCall _ c x)) hkeys
    (fun r hr => ?_) hi.objects (fun r hr => ?_) (exclusive_endCall hi.exclusive)
  · cases (calls_endCall _ c).symm.trans h
    trivial
  · exact (hrows r hr).imp id fun ⟨hkind, hknown, hstored, _⟩ => ⟨hkind, hknown, hstored⟩
  · rcases hrows r hr with ⟨m, hm, hk, -⟩ | ⟨-, -, -, -, h⟩
    · exact hk ▸ hi.standing m hm
    · exact h

lemma Inv.complete (hi : Inv s) (htime : s.InTime (.complete c)) (h : s.complete c = some t) :
    Inv t := by
  rw [System.complete] at h
  split at h
  · next d staged hc =>
    split at h
    · next hactive =>
      cases h
      obtain ⟨hdoc, hnodup⟩ := hi.calls c _ hc
      have hmem : ∀ r ∈ s.newAssets d staged, ∃ x ∈ staged,
          r = ⟨x.key, .asset x.digest s.now⟩ := fun r hr => by
        obtain ⟨x, hx, rfl⟩ := mem_map.1 hr
        exact ⟨x, mem_of_mem_filter hx, rfl⟩
      have hkey : ∀ x ∈ staged, s.Stages c x := fun x hx => ⟨_, hc, hx⟩
      refine hi.commit ?_ fun r hr => ?_
      · rw [map_append]
        refine nodup_append.2 ⟨hi.keys, ?_, fun a ha b hb hab => ?_⟩
        · rw [newAssets, map_map]
          exact hnodup.sublist (filter_sublist.map _)
        · obtain ⟨m, hm, rfl⟩ := mem_map.1 ha
          obtain ⟨r, hr, rfl⟩ := mem_map.1 hb
          obtain ⟨x, hx, rfl⟩ := hmem r hr
          exact (hi.staging c x (hkey x hx)).unnamed ⟨m, hm, hab⟩
      · rcases mem_append.1 hr with hr | hr
        · exact .inl ⟨r, hr, rfl, Iff.rfl, id⟩
        obtain ⟨x, hx, rfl⟩ := hmem r hr
        have hs := hi.staging c x (hkey x hx)
        have hlt := htime _ hc x hx
        refine .inr ⟨⟨fun _ => Kind.noConfusion, fun _ => hs.own⟩, hs.known,
          (hs.stored hlt).imp id .inr, .inl ⟨x, hkey x hx, rfl, hlt⟩, ?_⟩
        rw [hdoc x hx, hactive]
        exact Status.noConfusion
    · cases h
  · cases h

lemma key_retire (s : System) (d : ℕ) (r : Row) : (s.retire d r).key = r.key := by
  rw [retire]
  split <;> rfl

lemma Inv.activate (hi : Inv s) (htime : s.InTime (.activate c)) (h : s.activate c = some t) :
    Inv t := by
  rw [System.activate] at h
  split at h
  · next x hc =>
    split at h
    · next hgone =>
      cases h
      have hx : s.Stages c x := ⟨_, hc, mem_cons_self ..⟩
      have hs := hi.staging c x hx
      have hlt := htime _ hc x (mem_cons_self ..)
      have hkeys : (s.rows.map (s.retire x.key.document)).map Row.key = s.rows.map Row.key := by
        rw [map_map]
        exact map_congr_left fun r _ => key_retire s _ r
      refine hi.commit ?_ fun r hr => ?_
      · rw [map_append, hkeys]
        refine nodup_append.2 ⟨hi.keys, nodup_singleton _, fun a ha b hb hab => ?_⟩
        obtain ⟨m, hm, rfl⟩ := mem_map.1 ha
        rw [map_singleton, mem_singleton] at hb
        exact hs.unnamed ⟨m, hm, hab.trans hb⟩
      rcases mem_append.1 hr with hr | hr
      · obtain ⟨m, hm, rfl⟩ := mem_map.1 hr
        refine .inl ⟨m, hm, (key_retire s _ m).symm, ?_⟩
        rw [retire]
        split
        · next hcond =>
          refine ⟨?_, fun ⟨due, _, h⟩ => ?_⟩
          · rw [hcond.2]
            exact ⟨Kind.noConfusion, Kind.noConfusion⟩
          · cases hcond.2.symm.trans h
        · exact ⟨Iff.rfl, id⟩
      · rw [mem_singleton.1 hr]
        exact .inr ⟨⟨fun _ => Kind.noConfusion, fun _ => hs.own⟩, hs.known,
          (hs.stored hlt).imp id .inr, .inl ⟨x, hx, rfl, hlt⟩, hgone⟩
    · cases h
  · cases h

lemma Inv.attach (hi : Inv s) (h : s.attach c = some t) : Inv t := by
  rw [System.attach] at h
  split at h
  · next k hc =>
    split at h
    · next hactive =>
      cases h
      obtain ⟨hown, hlock, hheld⟩ := hi.calls c _ hc
      have hold : ∀ r ∈ s.rows, ∃ m ∈ s.rows, m.key = r.key ∧
          (m.kind = .archive ↔ r.kind = .archive) ∧ (m.Due s.now → r.Due s.now) :=
        fun r hr => ⟨r, hr, rfl, Iff.rfl, id⟩
      by_cases hr : s.Referenced k
      · rw [if_pos hr]
        exact hi.commit hi.keys fun r hr => .inl (hold r hr)
      rw [if_neg hr]
      refine hi.commit ?_ fun r hr => ?_
      · rw [map_append]
        refine nodup_append.2 ⟨hi.keys, nodup_singleton _, fun a ha b hb hab => hr ?_⟩
        obtain ⟨m, hm, rfl⟩ := mem_map.1 ha
        rw [map_singleton, mem_singleton] at hb
        exact ⟨m, hm, hab.trans hb⟩
      rcases mem_append.1 hr with hr | hr
      · exact .inl (hold r hr)
      · rw [mem_singleton.1 hr]
        refine .inr ⟨⟨fun h => absurd h hown, absurd rfl⟩, Known.of_not_own hown, ?_,
          .inr ⟨hown, hlock⟩, ?_⟩
        · exact (hheld rfl).elim (fun h => .inr (.inr h)) .inl
        · rw [hactive]
          exact Status.noConfusion
    · cases h
  · cases h

lemma Inv.step {o : Op} (hi : Inv s) (htime : s.InTime o) (h : s.step o = some t) : Inv t := by
  cases o with
  | tick n =>
    cases h
    exact hi.tick n
  | trash d =>
    rw [System.step] at h
    split at h
    · next hd =>
      cases h
      exact hi.setStatus (by rw [Purged, hd]; simp) Status.noConfusion
    · cases h
  | restore d =>
    rw [System.step] at h
    split at h
    · next hd =>
      cases h
      exact hi.setStatus (by rw [Purged, hd]; simp) Status.noConfusion
    · cases h
  | claim d =>
    rw [System.step] at h
    split at h
    · next hd =>
      cases h
      exact hi.setStatus (by rw [Purged, hd]; simp) Status.noConfusion
    · cases h
  | put c d digest => exact hi.put h
  | complete c => exact hi.complete htime h
  | writeBase c d digest => exact hi.writeBase h
  | activate c => exact hi.activate htime h
  | acquire c d tree => exact hi.acquire h
  | look c => exact hi.look h
  | adopt c => exact hi.adopt h
  | attach c => exact hi.attach h
  | trim d referenced =>
    cases h
    exact hi.trim d referenced
  | enter c => exact hi.enter h
  | list c page => exact hi.list h
  | filter c => exact hi.filter h
  | lock c => exact hi.lock h
  | check c => exact hi.check h
  | sweep c => exact hi.sweep h
  | listDue c keys => exact hi.listDue h
  | removeBase c => exact hi.removeBase h
  | removeRow c => exact hi.removeRow h
  | collect c d => exact hi.collect h
  | purge c => exact hi.purge h
  | finish c => exact hi.finish h
  | beginBackup c => exact hi.beginBackup h
  | snapshot c => exact hi.snapshot h
  | drop c =>
    rw [System.step] at h
    split at h
    · cases h
    · cases h
      exact hi.endCall c

lemma inv_empty : Inv empty :=
  { calls := fun _ _ h => nomatch h
    staging := fun _ _ ⟨_, h, _⟩ => nomatch h
    distinct := fun _ _ _ _ ⟨_, h, _⟩ => nomatch h
    keys := nodup_nil
    kinds := fun _ h => nomatch h
    known := fun _ h => nomatch h
    objects := fun _ _ h => nomatch h
    standing := fun _ h => nomatch h
    stored := fun _ h => nomatch h
    exclusive := fun h => absurd rfl h }

/-- A row's object is in the store, unless its document is being purged or it is a snapshot past
its grace; and what was there when a backup read the rows stays until the backup ends. -/
theorem referenced_objects_stay {ops : List Op} {s : System} (h : Run step InTime empty ops s) :
    (∀ r ∈ s.rows, s.status r.key.document ≠ .purging → ¬r.Due s.now → s.objects r.key ≠ none) ∧
    ∀ c named present, s.calls c = some (.copying named present) →
      ∀ r ∈ named, present r.key = true → s.objects r.key ≠ none := by
  have hi : Inv s := Run.invariant (I := Inv) (fun _ _ _ hs ho => hs.step ho) h inv_empty
  refine ⟨fun r hr hpurging hdue => ?_, fun c named present hc r _ hk =>
    (hi.calls c _ hc).2 r.key hk⟩
  rcases hi.stored r hr with (h | h) | h | h
  · exact absurd h hpurging
  · exact absurd h (hi.standing r hr)
  · exact absurd h hdue
  · exact h

/-- An upload is named, and a sweep passes it by. -/
theorem asset_outlives_a_sweep : ∃ s, Run step InTime empty
    [.put 0 7 5, .complete 0, .tick 700000, .enter 1, .list 1 [(.own 7 0, 0)], .filter 1] s ∧
    s.calls 1 = some (.candidates []) ∧ s.objects (.own 7 0) ≠ none := by
  obtain ⟨s, hrun, hcall, hrow, hstatus⟩ : ∃ s, Run step InTime empty
      [.put 0 7 5, .complete 0, .tick 700000, .enter 1, .list 1 [(.own 7 0, 0)], .filter 1] s ∧
      s.calls 1 = some (.candidates []) ∧ ⟨.own 7 0, .asset 5 0⟩ ∈ s.rows ∧
      s.status 7 = .active := by
    refine ⟨_, .cons trivial rfl (.cons ?_ rfl (.cons trivial rfl (.cons trivial rfl
      (.cons trivial rfl (.cons trivial rfl (.nil _)))))), rfl, mem_cons_self .., rfl⟩
    intro call hc x hx
    cases hc
    rw [mem_singleton.1 hx]
    decide
  refine ⟨s, hrun, hcall, (referenced_objects_stay hrun).1 _ hrow ?_ ?_⟩
  · rw [show Key.document (.own 7 0) = 7 from rfl, hstatus]
    exact Status.noConfusion
  · rintro ⟨due, -, h⟩
    cases h

end System
end LibrePaper.Objects
