import LibrePaper.History.Trims

/-!
# What a trim leaves readable

A label that stands is archived or in the history that the base and the rows hold, except while a
trim that made its base has not yet removed the labels. That is so as long as no trim stops in
between, and no label that is newer than a trim's snapshot stands when it removes the labels.
-/
namespace LibrePaper.History
open Library List Function

namespace Project

/-- A label that can be opened. -/
def Readable (s : Project) (l : Label) : Prop :=
  l.archived = true ∨ s.base.root ≤ l.frontier ∧ l.frontier ≤ s.stored

/-- A trim made its base at this root, with so many labels before, and has not ended. -/
def Cutting (s : Project) (c root taken : ℕ) : Prop :=
  ∃ t, s.calls c = some (.trim t) ∧ t.cut = some (root, taken)

/-- The roots that the base may have next: its own, that of the document in memory, and those of
snapshots that other compactions hold. -/
def Root (s : Project) (r : ℕ) : Prop :=
  s.base.root = r ∨ s.entry = some r ∨
    ∃ c snapshot, s.calls c = some (.compact snapshot) ∧ snapshot.root = r

/-- A trim's snapshot is of the head, and labels that are newer are at its root or after. -/
structure Taken (s : Project) (root taken : ℕ) : Prop where
  stored : root ≤ s.stored
  labels : ∀ l ∈ s.labels, taken ≤ l.id → root ≤ l.frontier

/-- What a trim holds. Its snapshot is not before the base that it made earlier. -/
structure Holds (s : Project) (t : Trim) : Prop where
  cut : ∀ root taken, t.cut = some (root, taken) → s.Taken root taken
  capturing : ∀ frontier, t.phase = .capturing frontier →
    ∀ root taken, t.cut = some (root, taken) → root ≤ frontier
  writing : ∀ r k, t.phase = .writing r k →
    s.Taken r k ∧ ∀ root taken, t.cut = some (root, taken) → root ≤ r
  retaining : t.phase = .retaining → ∃ root taken, t.cut = some (root, taken)

structure Inv (s : Project) : Prop where
  head : s.stored ≤ s.head
  number : ∀ l ∈ s.labels, l.id < s.made
  frontier : ∀ l ∈ s.labels, l.frontier ≤ s.stored
  root : ∀ r, s.Root r → r ≤ s.stored
  trims : ∀ c t, s.calls c = some (.trim t) → s.Holds t
  covered : ∀ l ∈ s.labels, l.archived = false → ∀ r, s.Root r →
    r ≤ l.frontier ∨ ∃ c root taken, s.Cutting c root taken ∧ l.frontier < root

/-- Nothing that stands needs the history before a root. -/
def Clear (s : Project) (root : ℕ) : Prop :=
  ∀ l ∈ s.labels, l.archived = true ∨ root ≤ l.frontier

/-- No trim stops while a label needs the history that its base no longer has, and none removes a
label that is newer than its snapshot. -/
def Clean (s : Project) : Op → Prop
  | .retain c => ∀ root taken, s.Cutting c root taken → ∀ l ∈ s.labels, l.id < taken
  | .stop c => ∀ root taken, s.Cutting c root taken → s.Clear root
  | .crash => ∀ c root taken, s.Cutting c root taken → s.Clear root
  | _ => True

lemma Root.base (s : Project) : s.Root s.base.root := .inl rfl

lemma Root.entryRoot (s : Project) : s.Root s.entryRoot := by
  rcases he : s.entry with _ | r
  · exact .inl (by rw [Project.entryRoot, he]; rfl)
  · exact .inr (.inl (by rw [Project.entryRoot, he]; rfl))

/-- A state after another: more is stored, and a label that was not there is of the head. -/
structure Follows (s t : Project) : Prop where
  stored : s.stored ≤ t.stored
  made : s.made ≤ t.made
  labels : ∀ l ∈ t.labels,
    (∃ m ∈ s.labels, m.id = l.id ∧ m.frontier = l.frontier ∧
      (l.archived = false → m.archived = false)) ∨
    s.made ≤ l.id ∧ l.id < t.made ∧ l.frontier = t.stored

variable {s t : Project} {id root taken c : ℕ} {f : Label → Label} {x y : Trim} {call : Call}
  {o : Op} {l : Label}

lemma Follows.of_labels (hstored : s.stored ≤ t.stored) (hmade : s.made = t.made)
    (hlabels : t.labels = s.labels) : Follows s t :=
  ⟨hstored, hmade.le, fun l hl => .inl ⟨l, hlabels ▸ hl, rfl, rfl, id⟩⟩

lemma Follows.of_update (hstored : s.stored ≤ t.stored) (hmade : s.made = t.made)
    (hf : ∀ l, (f l).id = l.id ∧ (f l).frontier = l.frontier ∧
      ((f l).archived = false → l.archived = false))
    (hlabels : t.labels = s.labels.map fun l => if l.id = id then f l else l) : Follows s t := by
  refine ⟨hstored, hmade.le, fun l hl => ?_⟩
  rw [hlabels] at hl
  obtain ⟨m, hm, rfl⟩ := mem_map.1 hl
  refine .inl ⟨m, hm, ?_⟩
  by_cases hid : m.id = id
  · rw [if_pos hid]
    exact ⟨(hf m).1.symm, (hf m).2.1.symm, (hf m).2.2⟩
  · rw [if_neg hid]
    exact ⟨rfl, rfl, fun h => h⟩

lemma Taken.follows (h : s.Taken root taken) (hst : Follows s t) : t.Taken root taken := by
  refine ⟨h.stored.trans hst.stored, fun l hl hid => ?_⟩
  rcases hst.labels l hl with ⟨m, hm, hmid, hmf, -⟩ | ⟨-, -, hf⟩
  · exact hmf ▸ h.labels m hm (hmid ▸ hid)
  · exact hf ▸ h.stored.trans hst.stored

lemma Taken.of_head (hi : Inv s) : s.Taken s.stored s.made :=
  ⟨le_rfl, fun l hl hid => absurd (hi.number l hl) (by omega)⟩

lemma Holds.follows (h : s.Holds x) (hst : Follows s t) : t.Holds x :=
  ⟨fun root taken hc => (h.cut root taken hc).follows hst, h.capturing,
    fun r k hp => ⟨(h.writing r k hp).1.follows hst, (h.writing r k hp).2⟩, h.retaining⟩

/-- A trim that tries again, or gives up, still has the base that it made. -/
lemma Holds.retry (h : ∀ root taken, x.cut = some (root, taken) → s.Taken root taken) :
    s.Holds x.retry := by
  have hcut : x.retry.cut = x.cut := by
    rw [Trim.retry]
    split <;> rfl
  have hphase : x.retry.phase = .healing ∨ x.retry.phase = .refused := by
    rw [Trim.retry]
    split
    · exact .inl rfl
    · exact .inr rfl
  refine ⟨fun root taken hc => h root taken (hcut ▸ hc), fun f hp => ?_, fun r k hp => ?_,
    fun hp => ?_⟩ <;>
  · rcases hphase with h' | h' <;> cases h'.symm.trans hp

/-- A step keeps the invariant when its roots are old ones or those of a trim that has cut, when
its trims hold what they should, and when a trim that goes leaves nothing to remove. -/
lemma Inv.follows (hi : Inv s) (hst : Follows s t) (hhead : t.stored ≤ t.head)
    (hroot : ∀ r, t.Root r → s.Root r ∨ r ≤ t.stored ∧ ∃ c k, t.Cutting c r k)
    (htrims : ∀ c x, t.calls c = some (.trim x) → t.Holds x)
    (hcut : ∀ c r k, s.Cutting c r k → (∃ r' k', t.Cutting c r' k' ∧ r ≤ r') ∨ t.Clear r) :
    Inv t := by
  refine ⟨hhead, fun l hl => ?_, fun l hl => ?_, fun r hr => ?_, htrims, fun l hl ha r hr => ?_⟩
  · rcases hst.labels l hl with ⟨m, hm, hid, -⟩ | ⟨-, hid, -⟩
    · have := hi.number m hm
      have := hst.made
      omega
    · exact hid
  · rcases hst.labels l hl with ⟨m, hm, -, hf, -⟩ | ⟨-, -, hf⟩
    · exact hf ▸ (hi.frontier m hm).trans hst.stored
    · exact hf.le
  · rcases hroot r hr with h | ⟨h, -⟩
    · exact (hi.root r h).trans hst.stored
    · exact h
  rcases hst.labels l hl with ⟨m, hm, -, hf, hma⟩ | ⟨-, -, hf⟩
  · rcases hroot r hr with h | ⟨-, c, k, hc⟩
    · rcases hi.covered m hm (hma ha) r h with hle | ⟨c, root, taken, hc, hlt⟩
      · exact .inl (hf ▸ hle)
      rcases hcut c root taken hc with ⟨root', taken', hc', hle⟩ | hclear
      · exact .inr ⟨c, root', taken', hc', by omega⟩
      · rcases hclear l hl with h' | h'
        · rw [ha] at h'
          cases h'
        · omega
    · by_cases hle : r ≤ l.frontier
      · exact .inl hle
      · exact .inr ⟨c, r, k, hc, by omega⟩
  · rcases hroot r hr with h | ⟨h, -⟩
    · exact .inl (hf ▸ (hi.root r h).trans hst.stored)
    · exact .inl (hf ▸ h)

lemma setCall_calls {d : ℕ} {x : Call} (h : (s.setCall c call).calls d = some x) :
    call = x ∨ s.calls d = some x := by
  by_cases hd : d = c
  · exact .inl (Option.some.inj ((by rw [hd]; exact update_self .. :
      (s.setCall c call).calls d = some call).symm.trans h))
  · exact .inr ((update_of_ne hd ..).symm.trans h)

/-- A call's step, with what the call comes to hold. -/
lemma Inv.setCall (hi : Inv s) (c : ℕ) (htrim : ∀ x, call = .trim x → s.Holds x)
    (hroot : ∀ b, call = .compact b → s.Root b.root) (hcut : ∀ r k, s.Cutting c r k →
      (∃ x r' k', call = .trim x ∧ x.cut = some (r', k') ∧ r ≤ r') ∨ s.Clear r) :
    Inv (s.setCall c call) := by
  have hst : Follows s (s.setCall c call) := .of_labels le_rfl rfl rfl
  refine hi.follows hst hi.head (fun r hr => .inl ?_) (fun d x hd => ?_) fun d r k ⟨x, hx, hk⟩ => ?_
  · rcases hr with hr | hr | ⟨d, b, hd, hr⟩
    · exact .inl hr
    · exact .inr (.inl hr)
    · rcases setCall_calls hd with h | h
      · exact hr ▸ hroot b h
      · exact .inr (.inr ⟨d, b, h, hr⟩)
  · rcases setCall_calls hd with h | h
    · exact (htrim x h).follows hst
    · exact (hi.trims d x h).follows hst
  · by_cases hd : d = c
    · subst hd
      rcases hcut r k ⟨x, hx, hk⟩ with ⟨y, r', k', hy, hk', hle⟩ | h
      · exact .inl ⟨r', k', ⟨y, (update_self ..).trans (congrArg some hy), hk'⟩, hle⟩
      · exact .inr h
    · exact .inl ⟨r, k, ⟨x, (update_of_ne hd ..).trans hx, hk⟩, le_rfl⟩

lemma Inv.setOther (hi : Inv s) (hold : ∀ x, s.calls c ≠ some (.trim x))
    (hnew : ∀ x, call ≠ .trim x) (hroot : ∀ b, call = .compact b → s.Root b.root) :
    Inv (s.setCall c call) :=
  hi.setCall c (fun x hx => absurd hx (hnew x)) hroot fun _ _ ⟨x, hx, _⟩ => absurd hx (hold x)

lemma Inv.setTrim (hi : Inv s) (hx : s.calls c = some (.trim x)) (hcut : y.cut = x.cut)
    (hy : s.Holds y) : Inv (s.setCall c (.trim y)) := by
  refine hi.setCall c (fun z hz => Call.trim.inj hz ▸ hy) (fun b hb => nomatch hb)
    fun r k ⟨z, hz, hk⟩ => .inl ⟨y, r, k, rfl, ?_, le_rfl⟩
  cases hx.symm.trans hz
  exact hcut.trans hk

/-- The document in memory changes with the same calls, and its roots are old ones or those of a
trim. -/
lemma Inv.same_calls (hi : Inv s) (hst : Follows s t) (hhead : t.stored ≤ t.head)
    (hcalls : t.calls = s.calls)
    (hbase : s.Root t.base.root ∨ t.base.root ≤ t.stored ∧ ∃ c k, s.Cutting c t.base.root k)
    (hentry : ∀ r, t.entry = some r → s.Root r) : Inv t := by
  have hcut : ∀ c r k, s.Cutting c r k → t.Cutting c r k :=
    fun c r k ⟨x, hx, hk⟩ => ⟨x, hcalls ▸ hx, hk⟩
  refine hi.follows hst hhead (fun r hr => ?_) (fun c x hx => (hi.trims c x (hcalls ▸ hx)).follows hst)
    fun c r k h => .inl ⟨r, k, hcut c r k h, le_rfl⟩
  rcases hr with rfl | hr | ⟨c, b, hc, hr⟩
  · exact hbase.imp id fun ⟨hle, c, k, h⟩ => ⟨hle, c, k, hcut c _ k h⟩
  · exact .inl (hentry r hr)
  · exact .inl (.inr (.inr ⟨c, b, hcalls ▸ hc, hr⟩))

lemma Inv.enter (hi : Inv s) : Inv { s with entry := some s.entryRoot } :=
  hi.same_calls (.of_labels le_rfl rfl rfl) hi.head rfl (.inl (Root.base s))
    fun _ hr => Option.some.inj hr ▸ Root.entryRoot s

lemma Inv.store (hi : Inv s) {head stored : ℕ} (hstored : s.stored ≤ stored)
    (hhead : stored ≤ head) : Inv { s with head := head, stored := stored } :=
  hi.same_calls (.of_labels hstored rfl rfl) hhead rfl (.inl (Root.base s))
    fun _ hr => .inr (.inl hr)

lemma Inv.updateLabel (hi : Inv s) (hf : ∀ l, (f l).id = l.id ∧ (f l).frontier = l.frontier ∧
      ((f l).archived = false → l.archived = false)) : Inv (s.updateLabel id f) :=
  hi.same_calls (.of_update le_rfl rfl hf rfl) hi.head rfl (.inl (Root.base s))
    fun _ hr => .inr (.inl hr)

lemma Inv.createLabel (hi : Inv s) (requested : Bool) : Inv (s.createLabel requested) := by
  refine hi.same_calls ⟨hi.head, Nat.le_succ _, fun l hl => ?_⟩ le_rfl rfl (.inl (Root.base s))
    fun _ hr => .inr (.inl hr)
  rcases mem_append.1 hl with hl | hl
  · exact .inl ⟨l, hl, rfl, rfl, id⟩
  · rw [mem_singleton.1 hl]
    exact .inr ⟨le_rfl, Nat.lt_succ_self _, rfl⟩

lemma Inv.attach (hi : Inv s) (h : s.attach c = some t) : Inv t := by
  rw [Project.attach] at h
  split at h
  · next id hc =>
    cases h
    have hu : Inv (s.updateLabel id fun l => { l with archived := true }) :=
      hi.updateLabel fun l => ⟨rfl, rfl, Bool.noConfusion⟩
    exact hu.setOther (fun x hx => by cases hc.symm.trans hx) (fun x hx => nomatch hx)
      fun b hb => nomatch hb
  · cases h

lemma Inv.activateFull (hi : Inv s) (h : s.activateFull c = some t) : Inv t := by
  rw [Project.activateFull] at h
  split at h
  · next b hc =>
    cases h
    have hroot : s.Root b.root := .inr (.inr ⟨c, b, hc, rfl⟩)
    by_cases hle : b.through ≤ s.base.through
    · rw [if_pos hle]
      exact hi.setOther (fun x hx => by cases hc.symm.trans hx) (fun x hx => nomatch hx)
        fun b hb => nomatch hb
    · rw [if_neg hle]
      have hbase : Inv { s with base := b } :=
        hi.same_calls (.of_labels le_rfl rfl rfl) hi.head rfl (.inl hroot)
          fun r hr => .inr (.inl hr)
      exact hbase.setOther (fun x hx => by cases hc.symm.trans hx) (fun x hx => nomatch hx)
        fun b hb => nomatch hb
  · cases h

lemma Inv.heal {n : ℕ} (hi : Inv s) (h : s.heal c n = some t) : Inv t := by
  rw [Project.heal] at h
  split at h
  · next x hc =>
    split at h
    · cases h
      have hle : s.stored ≤ s.head + n := hi.head.trans (Nat.le_add_right _ _)
      have hs : Inv { s with head := s.head + n, stored := s.head + n } := hi.store hle le_rfl
      have hx := hs.trims c x hc
      refine hs.setTrim hc rfl ⟨hx.cut, fun f hf r k hk => ?_, fun r k hp => (nomatch hp),
        fun hp => (nomatch hp)⟩
      cases hf
      exact (hx.cut r k hk).stored
    · cases h
  · cases h

lemma Inv.capture (hi : Inv s) (h : s.capture c = some t) : Inv t := by
  rw [Project.capture] at h
  split at h
  · next x hc =>
    have hx := hi.trims c x hc
    split at h
    · next frontier hp =>
      split at h
      · next hhead =>
        cases h
        have hs : s.stored = frontier := hhead.1.trans hhead.2.1
        refine hi.enter.setTrim hc rfl ⟨(hi.enter.trims c x hc).cut, fun f hf => (nomatch hf),
          fun r k hw => ?_, fun hr => (nomatch hr)⟩
        cases hw
        exact ⟨hs ▸ Taken.of_head hi.enter, hx.capturing frontier hp⟩
      · cases h
        exact hi.setTrim hc (by rw [Trim.retry]; split <;> rfl) (Holds.retry hx.cut)
    · cases h
  · cases h

lemma Inv.rebase (hi : Inv s) {entry : Option ℕ} (hc : s.Cutting c root taken)
    (hentry : ∀ r, entry = some r → s.Root r) :
    Inv { s with base := ⟨root, root⟩, entry := entry } := by
  obtain ⟨x, hx, hk⟩ := id hc
  exact hi.same_calls (.of_labels le_rfl rfl rfl) hi.head rfl
    (.inr ⟨((hi.trims c x hx).cut root taken hk).stored, c, taken, hc⟩) hentry

lemma Inv.setCut (hi : Inv s) (hx : s.calls c = some (.trim x))
    (hp : x.phase = .writing root taken) (hcut : y.cut = some (root, taken)) (hy : s.Holds y) :
    Inv (s.setCall c (.trim y)) := by
  refine hi.setCall c (fun z hz => Call.trim.inj hz ▸ hy) (fun b hb => nomatch hb)
    fun r k ⟨z, hz, hk⟩ => .inl ⟨y, root, taken, rfl, hcut, ?_⟩
  cases hx.symm.trans hz
  exact ((hi.trims c x hx).writing root taken hp).2 r k hk

lemma Inv.activate {lost : Bool} (hi : Inv s) (h : s.activate c lost = some t) : Inv t := by
  rw [Project.activate] at h
  split at h
  · next x hc =>
    have hx := hi.trims c x hc
    split at h
    · next root taken hp =>
      have hcut : ∀ r k, some (root, taken) = some (r, k) → s.Taken r k := fun r k hk => by
        cases hk
        exact (hx.writing root taken hp).1
      split at h
      · cases h
        exact hi.setTrim hc (by rw [Trim.retry]; split <;> rfl) (Holds.retry hx.cut)
      split at h
      · cases h
        have hs := hi.setCut (y := Trim.retry { x with cut := some (root, taken) }) hc hp
          (by rw [Trim.retry]; split <;> rfl) (Holds.retry hcut)
        exact hs.rebase ⟨_, update_self .., by rw [Trim.retry]; split <;> rfl⟩
          fun r hr => .inr (.inl hr)
      · cases h
        have hs := hi.setCut (y := { x with cut := some (root, taken), phase := .retaining })
          hc hp rfl ⟨hcut, fun f hf => (nomatch hf), fun r k hw => (nomatch hw),
            fun _ => ⟨root, taken, rfl⟩⟩
        exact hs.rebase ⟨_, update_self .., rfl⟩ fun r hr => by cases hr
    · cases h
  · cases h

lemma Inv.retain (hi : Inv s) (h : s.retain c = some t) : Inv t := by
  rw [Project.retain] at h
  split at h
  · next x hc =>
    split at h
    · cases h
      have hs : Inv { s with labels := [] } :=
        hi.same_calls ⟨le_rfl, le_rfl, fun l hl => nomatch hl⟩ hi.head rfl
          (.inl (Root.base s)) fun r hr => .inr (.inl hr)
      exact hs.setCall c (fun x hx => nomatch hx) (fun b hb => nomatch hb)
        fun r k _ => .inr fun l hl => nomatch hl
    · cases h
  · cases h

lemma Inv.crash (hi : Inv s) (hclean : s.Clean .crash) :
    Inv { s with head := s.stored, entry := none, calls := fun _ => none } := by
  refine hi.follows (.of_labels le_rfl rfl rfl) le_rfl (fun r hr => .inl ?_)
    (fun c x hx => nomatch hx) fun c r k hc => .inr (hclean c r k hc)
  rcases hr with hr | hr | ⟨c, b, hb, -⟩
  · exact .inl hr
  · cases hr
  · cases hb

lemma Inv.step (hi : Inv s) (hclean : s.Clean o) (h : s.step o = some t) : Inv t := by
  cases o with
  | edit n =>
    cases h
    exact hi.store le_rfl (hi.head.trans (Nat.le_add_right _ _))
  | flush =>
    cases h
    exact hi.store hi.head le_rfl
  | evict =>
    rw [Project.step] at h
    split at h
    · cases h
      exact hi.same_calls (.of_labels le_rfl rfl rfl) hi.head rfl (.inl (Root.base s))
        fun r hr => nomatch hr
    · cases h
  | crash =>
    cases h
    exact hi.crash hclean
  | label requested =>
    cases h
    exact hi.createLabel requested
  | request id =>
    cases h
    exact hi.updateLabel fun l => ⟨rfl, rfl, fun h => h⟩
  | archive c id =>
    rw [Project.step, Project.archive] at h
    split at h
    · next hc =>
      cases h
      exact hi.enter.setOther (fun x hx => by cases hc.1.symm.trans hx) (fun x hx => nomatch hx)
        fun b hb => nomatch hb
    · cases h
  | attach c => exact hi.attach h
  | compact c =>
    rw [Project.step, Project.compact] at h
    split at h
    · next hc =>
      cases h
      refine hi.enter.setOther (fun x hx => by cases hc.1.symm.trans hx) (fun x hx => nomatch hx)
        fun b hb => ?_
      cases hb
      exact .inr (.inl rfl)
    · cases h
  | activateFull c => exact hi.activateFull h
  | trim c =>
    rw [Project.step] at h
    split at h
    · next hc =>
      cases h
      refine hi.setCall c (fun x hx => ?_) (fun b hb => nomatch hb) fun r k ⟨x, hx, _⟩ => ?_
      · cases hx
        exact ⟨fun r k hk => (nomatch hk), fun f hf => (nomatch hf), fun r k hw => (nomatch hw),
          fun hr => (nomatch hr)⟩
      · cases hc.symm.trans hx
    · cases h
  | heal c n => exact hi.heal h
  | capture c => exact hi.capture h
  | activate c lost => exact hi.activate h
  | retain c => exact hi.retain h
  | stop c =>
    rw [Project.step] at h
    split at h
    · cases h
    · cases h
      exact hi.setCall c (fun x hx => nomatch hx) (fun b hb => nomatch hb)
        fun r k hk => .inr (hclean r k hk)

lemma inv_empty : Inv empty := by
  refine ⟨le_rfl, fun l hl => (nomatch hl), fun l hl => (nomatch hl), fun r hr => ?_,
    fun c x hx => (nomatch hx), fun l hl => (nomatch hl)⟩
  rcases hr with rfl | hr | ⟨c, b, hb, -⟩
  · exact le_rfl
  · cases hr
  · cases hb

/-- A label that stands can be opened, or a trim that made its base is still to remove it. -/
lemma Inv.readable (hi : Inv s) (hl : l ∈ s.labels) :
    s.Readable l ∨ ∃ c root taken, s.Cutting c root taken ∧ l.id < taken := by
  by_cases ha : l.archived = true
  · exact .inl (.inl ha)
  rcases hi.covered l hl (Bool.not_eq_true _ ▸ ha) _ (Root.base s) with h | ⟨c, root, taken, hc, hlt⟩
  · exact .inl (.inr ⟨h, hi.frontier l hl⟩)
  · obtain ⟨x, hx, hk⟩ := id hc
    refine .inr ⟨c, root, taken, hc, Nat.lt_of_not_le fun hle => ?_⟩
    exact absurd (((hi.trims c x hx).cut root taken hk).labels l hl hle) (Nat.not_le.2 hlt)

/-- A label is changed in what it asks for and in its archive alone. -/
lemma kept_updateLabel (hl : l ∈ s.labels) (id : ℕ)
    (hf : ∀ l, (f l).id = l.id ∧ (f l).frontier = l.frontier) :
    ∃ m ∈ (s.updateLabel id f).labels, m.id = l.id ∧ m.frontier = l.frontier := by
  refine ⟨_, mem_map_of_mem hl, ?_⟩
  by_cases hid : l.id = id
  · rw [if_pos hid]
    exact hf l
  · rw [if_neg hid]
    exact ⟨rfl, rfl⟩

/-- A step removes labels only where a trim does that took its snapshot after them. -/
lemma Inv.kept (hi : Inv s) (hclean : s.Clean o) (h : s.step o = some t) (hl : l ∈ s.labels) :
    (∃ m ∈ t.labels, m.id = l.id ∧ m.frontier = l.frontier) ∨
    ∃ c root taken, o = .retain c ∧ s.Cutting c root taken ∧ l.id < taken := by
  have hsame : t.labels = s.labels → ∃ m ∈ t.labels, m.id = l.id ∧ m.frontier = l.frontier :=
    fun h => ⟨l, h ▸ hl, rfl, rfl⟩
  cases o with
  | label requested =>
    cases h
    exact .inl ⟨l, mem_append_left _ hl, rfl, rfl⟩
  | request id =>
    cases h
    exact .inl (kept_updateLabel hl id fun l => ⟨rfl, rfl⟩)
  | attach c =>
    rw [Project.step, Project.attach] at h
    split at h
    · next id hc =>
      cases h
      exact .inl (kept_updateLabel hl id fun l => ⟨rfl, rfl⟩)
    · cases h
  | retain c =>
    rw [Project.step, Project.retain] at h
    split at h
    · next x hc =>
      split at h
      · next hp =>
        obtain ⟨root, taken, hk⟩ := (hi.trims c x hc).retaining hp
        exact .inr ⟨c, root, taken, rfl, ⟨x, hc, hk⟩, hclean root taken ⟨x, hc, hk⟩ l hl⟩
      · cases h
    · cases h
  | activateFull c =>
    rw [Project.step, Project.activateFull] at h
    split at h
    · cases h
      refine .inl (hsame ?_)
      split <;> rfl
    · cases h
  | _ =>
    simp only [Project.step, Project.archive, Project.compact, Project.heal, Project.capture,
      Project.activate] at h
    repeat' split at h
    all_goals cases h
    all_goals exact .inl (hsame rfl)

/-- As long as every step is clean, a label that stands can be opened or waits for a trim that made
its base to remove it, and what a trim removes is older than its snapshot. -/
theorem trims_keep_labels {ops : List Op} {s : Project} (h : Run step Clean empty ops s) :
    (∀ l ∈ s.labels, s.Readable l ∨ ∃ c root taken, s.Cutting c root taken ∧ l.id < taken) ∧
    ∀ o t, s.Clean o → s.step o = some t → ∀ l ∈ s.labels,
      (∃ m ∈ t.labels, m.id = l.id ∧ m.frontier = l.frontier) ∨
      ∃ c root taken, o = .retain c ∧ s.Cutting c root taken ∧ l.id < taken := by
  have hi : Inv s := Run.invariant (I := Inv) (fun _ _ _ hs ho => hs.step ho) h inv_empty
  exact ⟨fun _ => hi.readable, fun _ _ ho ht _ => hi.kept ho ht⟩

/-- After a trim that is not disturbed, the next label can be opened. -/
theorem opened_after_a_trim : ∃ s, Run step Clean empty
    [.edit 1, .label false, .edit 1, .trim 0, .heal 0 1, .capture 0, .activate 0 false, .retain 0,
      .label false] s ∧ s.labels = [⟨1, 3, false, false⟩] ∧ ∀ l ∈ s.labels, s.Readable l := by
  obtain ⟨s, hrun, hl, hcalls⟩ : ∃ s, Run step Clean empty
      [.edit 1, .label false, .edit 1, .trim 0, .heal 0 1, .capture 0, .activate 0 false,
        .retain 0, .label false] s ∧ s.labels = [⟨1, 3, false, false⟩] ∧
      ∀ c x, s.calls c ≠ some (.trim x) := by
    refine ⟨_, .cons trivial rfl (.cons trivial rfl (.cons trivial rfl (.cons trivial rfl
      (.cons trivial rfl (.cons trivial rfl (.cons trivial rfl (.cons ?_ rfl
      (.cons trivial rfl (.nil _))))))))), rfl, ?_⟩
    · rintro root taken ⟨x, hx, hk⟩ l hl
      cases hx
      cases hk
      rw [mem_singleton.1 hl]
      decide
    · intro c x hx
      by_cases hc : c = 0
      · cases hc
        cases hx
      · simp [setCall, createLabel, Project.empty, hc] at hx
  refine ⟨s, hrun, hl, fun l hmem => ?_⟩
  rcases (trims_keep_labels hrun).1 l hmem with h | ⟨c, _, _, ⟨x, hx, _⟩, _⟩
  · exact h
  · exact absurd hx (hcalls c x)

/-- A trim stops between its base and the labels, and a label from before can no longer be
opened; another trim removes a label that is newer than its snapshot. -/
theorem unreadable_and_lost :
    (∃ s, Run step anyStep empty
      [.edit 1, .label false, .edit 1, .trim 0, .heal 0 0, .capture 0, .activate 0 false, .stop 0] s ∧
      s.calls 0 = some .done ∧ ∃ l ∈ s.labels, ¬s.Readable l) ∧
    ∃ s t u, Run step anyStep empty [.edit 1, .trim 0, .heal 0 0, .capture 0] s ∧
      s.step (.label false) = some t ∧ (∃ l ∈ t.labels, l ∉ s.labels) ∧
      Run step anyStep t [.activate 0 false, .retain 0] u ∧ u.labels = [] := by
  refine ⟨⟨_, .cons trivial rfl (.cons trivial rfl (.cons trivial rfl (.cons trivial rfl
    (.cons trivial rfl (.cons trivial rfl (.cons trivial rfl (.cons trivial rfl (.nil _)))))))),
    rfl, ⟨0, 1, false, false⟩, mem_cons_self .., ?_⟩, ?_⟩
  · rintro (h | ⟨h, -⟩)
    · cases h
    · exact absurd h (by decide)
  · exact ⟨_, _, _, .cons trivial rfl (.cons trivial rfl (.cons trivial rfl (.cons trivial rfl
      (.nil _)))), rfl, ⟨_, mem_cons_self .., not_mem_nil⟩,
      .cons trivial rfl (.cons trivial rfl (.nil _)), rfl⟩

end Project
end LibrePaper.History
