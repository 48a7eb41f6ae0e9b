import LibrePaper.Offline.Coherent

/-!
# The offline copy keeps every operation

What is stored under a key can be imported as a whole and only grows, and what a tab reports is
stored. It is so as long as no tab takes for stored what came into its document while it read, as no
update of an old record is dropped, as a migration moves everything there is to move, and as no tab
is closed before a flush has looked.
-/
namespace LibrePaper.Offline
open Library

variable {K T Op : Type*} [DecidableEq K] [DecidableEq T] [DecidableEq Op] {c : Causality Op}
  {size : Finset Op → ℕ}

namespace Tab
variable (t : Tab K Op)

omit [DecidableEq K] [DecidableEq Op] in
@[simp] lemma putState_key : t.putState.key = t.key := by
  rw [putState]
  split <;> rfl

omit [DecidableEq K] [DecidableEq Op] in
@[simp] lemma changed_key : t.changed.key = t.key := by
  rw [changed]
  split
  · rfl
  · exact putState_key _

omit [DecidableEq K] [DecidableEq Op] in
@[simp] lemma settle_key (version : Finset Op) : (t.settle version).key = t.key := by
  rw [settle]
  split
  · rfl
  · split
    · rfl
    · exact putState_key _

omit [DecidableEq K] in
@[simp] lemma check_key (asked : Finset Op) : (t.check asked).key = t.key := by
  rw [check]
  split
  · exact putState_key _
  · split <;> exact putState_key _

omit [DecidableEq K] in
@[simp] lemma importSaved_key (saved : Option (Saved Op)) :
    (t.importSaved c saved).key = t.key := by
  cases saved with
  | none => rfl
  | some r =>
    rw [importSaved_some]
    split <;> rfl

omit [DecidableEq K] in
@[simp] lemma finish_key (asked : Finset Op) : (t.finish asked).key = t.key := rfl

omit [DecidableEq Op] in
@[simp] lemma readKey_key (saved : Option (Saved Op)) : (t.readKey saved).key = t.key := rfl

end Tab

namespace State
variable {s s' : State K T Op} {a : Action T Op} {t : T}

/-- The steps at which nothing goes wrong. A document that is taken for stored holds nothing that is
not; the updates of a record of the second version are stored elsewhere; a migration moves the
record it read, no update is left under the legacy key, and no tab writes under that key; and what
a flush of a closed tab asks for is stored. -/
def Spared (c : Causality Op) (s : State K T Op) : Action T Op → Prop
  | .importSaved t => ∀ saved, (s.tabs t).hydration = .found (some saved) → saved.vector = none →
      (s.tabs t).closed = false →
      ((s.tabs t).doc.receiveAll c saved.imports).held ⊆ s.database.stored (s.tabs t).key
  | .importPending t => ∀ pending, (s.tabs t).hydration = .taken pending → pending ≠ [] →
      ((s.tabs t).doc.receiveAll c pending).held ⊆ s.database.stored (s.tabs t).key
  | .migrate t => ∀ saved legacyKey, (s.tabs t).hydration = .migrating saved →
      (s.tabs t).legacyKey = some legacyKey →
      s.database.Movable saved (s.tabs t).key legacyKey ∧
        ∀ u, (s.tabs u).key = legacyKey → (s.tabs u).Backed ∅
  | .commit t => ∀ began version update,
      (s.tabs t).writing = some (.captured began version update) →
      ∀ snapshot updates vector,
        s.database.states (s.tabs t).key = some (.two snapshot updates vector) →
        together updates ⊆ s.database.kept (s.tabs t).key ∪ update
  | .check t asked => (s.tabs t).closed = true → (s.tabs t).writing = none →
      (s.tabs t).rejected = false → asked ⊆ s.database.stored (s.tabs t).key
  | _ => True

/-- A step moves what is stored under one key to another. -/
def Moves (s : State K T Op) (a : Action T Op) (k k' : K) : Prop :=
  ∃ t, a = .migrate t ∧ (s.tabs t).legacyKey = some k ∧ (s.tabs t).key = k'

/-- Everything stored can be imported, and each tab takes for stored what is. -/
structure Kept (c : Causality Op) (s : State K T Op) : Prop where
  database : s.database.Sound c
  tabs : ∀ t, (s.tabs t).Coherent c
  backed : ∀ t, (s.tabs t).Backed (s.database.stored (s.tabs t).key)

/-- What a step leaves stored, and what it reports. -/
structure Follows (s : State K T Op) (a : Action T Op) (s' : State K T Op) : Prop where
  grows : ∀ k, ∃ k', (k' = k ∨ s.Moves a k k') ∧ s.database.stored k ⊆ s'.database.stored k'
  report : ∀ t asked, s'.report = some (t, asked) →
    asked ⊆ s'.database.stored (s'.tabs t).key

omit [DecidableEq K] [DecidableEq Op] in
lemma setTab_tabs (u : T) {tab : Tab K Op} :
    (s.setTab t tab).tabs u = if u = t then tab else s.tabs u := Function.update_apply ..

omit [DecidableEq K] [DecidableEq Op] in
lemma setTab_key {tab : Tab K Op} (hkey : tab.key = (s.tabs t).key) (u : T) :
    ((s.setTab t tab).tabs u).key = (s.tabs u).key := by
  rw [setTab_tabs]
  split
  · next hu => rw [hu, hkey]
  · rfl

/-- A step of one tab and of the database. -/
lemma Kept.store (h : s.Kept c) {d : Database K T Op} {tab : Tab K Op} (hd : d.Sound c)
    (hkey : tab.key = (s.tabs t).key) (htab : tab.Coherent c)
    (hbacked : tab.Backed (d.stored (s.tabs t).key))
    (hother : ∀ u ≠ t, (s.tabs u).Backed (d.stored (s.tabs u).key)) :
    Kept c { s.setTab t tab with database := d } := by
  refine ⟨hd, fun u => ?_, fun u => ?_⟩
  · rw [setTab_tabs]
    split
    · exact htab
    · exact h.tabs u
  · rw [setTab_key hkey, setTab_tabs]
    split
    · next hu => exact hu ▸ hbacked
    · next hu => exact hother u hu

lemma Kept.setTab (h : s.Kept c) {tab : Tab K Op} (hkey : tab.key = (s.tabs t).key)
    (htab : tab.Coherent c) (hbacked : tab.Backed (s.database.stored (s.tabs t).key)) :
    (s.setTab t tab).Kept c :=
  h.store h.database hkey htab hbacked fun u _ => h.backed u

lemma Follows.setTab {tab : Tab K Op} : s.Follows a (s.setTab t tab) :=
  ⟨fun k => ⟨k, .inl rfl, Finset.Subset.refl _⟩, nofun⟩

omit [DecidableEq T] in
lemma Kept.report (h : s.Kept c) (report : Option (T × Finset Op)) :
    Kept c { s with report := report } := ⟨h.database, h.tabs, h.backed⟩

lemma Kept.migrate (h : s.Kept c) (ha : s.Spared c (.migrate t))
    (hs : s.step c size (.migrate t) = some s') : s'.Kept c ∧ s.Follows (.migrate t) s' := by
  rw [State.step] at hs
  split at hs
  · next saved legacyKey hmigrating hlegacy =>
    cases hs
    obtain ⟨hmovable, hnone⟩ := ha saved legacyKey hmigrating hlegacy
    have hne : (s.tabs t).key ≠ legacyKey := fun hno =>
      (h.tabs t).legacy (.inr ⟨saved, hmigrating⟩) (hlegacy.trans (congrArg some hno.symm))
    have hsaved := (h.tabs t).hydration saved (.inr hmigrating)
    obtain ⟨hsound, hown, hmoved⟩ := h.database.migrate hsaved hne hmovable
    have hother : ∀ k, k ≠ legacyKey → s.database.stored k ⊆
        (s.database.migrate saved (s.tabs t).key legacyKey).stored k := by
      intro k hk
      by_cases hkey : k = (s.tabs t).key
      · exact hkey ▸ hown
      · rw [Database.stored_migrate hne hmovable, if_neg hkey, if_neg hk]
    refine ⟨h.store hsound rfl ((h.tabs t).read (by rw [hmigrating]; nofun)
      (fun r hr => ?_) (fun hno => ?_) (s.tabs t).stored (s.tabs t).persistedVector)
      (((h.backed t).mono (hother _ hne)).read _ (s.tabs t).stored ?_ fun r v hr hv => ?_)
      fun u _ => ?_, fun k => ?_, nofun⟩
    · rcases hr with hr | hr <;> cases hr
      exact hsaved
    · rcases hno with hno | ⟨_, hno⟩ <;> cases hno
    · exact (h.backed t).vector.trans (hother _ hne)
    · cases hr
      rw [Database.stored_migrate hne hmovable, if_pos rfl]
      exact (hsaved.vector v hv).trans Finset.subset_union_left
    · by_cases hu : (s.tabs u).key = legacyKey
      · exact (hnone u hu).mono (Finset.empty_subset _)
      · exact (h.backed u).mono (hother _ hu)
    · by_cases hk : k = legacyKey
      · exact ⟨_, .inr ⟨t, rfl, hk ▸ hlegacy, rfl⟩, hk ▸ hmoved⟩
      · exact ⟨k, .inl rfl, hother k hk⟩
  · cases hs

lemma Kept.commit (h : s.Kept c) (ha : s.Spared c (.commit t))
    (hs : s.step c size (.commit t) = some s') : s'.Kept c ∧ s.Follows (.commit t) s' := by
  rw [State.step] at hs
  split at hs
  · next began version update hcaptured =>
    cases hs
    obtain ⟨-, hclosed, hupdate⟩ := (h.tabs t).writing _ hcaptured
    have hbacked := (h.backed t).commit hcaptured
    have hneeds : ∀ o ∈ update, c.needs o ⊆ s.database.stored (s.tabs t).key ∪ update :=
      fun o ho => (hclosed o (hupdate ho)).trans (hbacked.writing _ rfl)
    obtain ⟨hsound, hstored⟩ := h.database.put size (t, (s.tabs t).batch)
      (Database.kept_union (ha began version update hcaptured)) hneeds
    have hgrows : ∀ k, s.database.stored k ⊆
        (s.database.put c size (s.tabs t).key (t, (s.tabs t).batch) update).stored k := by
      intro k
      rw [hstored]
      split
      · next hk => exact hk ▸ Finset.subset_union_left
      · exact Finset.Subset.refl _
    refine ⟨h.store hsound rfl ((h.tabs t).commit hcaptured) ?_
      fun u _ => (h.backed u).mono (hgrows _), fun k => ⟨k, .inl rfl, hgrows k⟩,
      fun _ _ hr => by cases hr⟩
    rw [hstored, if_pos rfl]
    exact hbacked
  · cases hs

lemma Kept.settle (h : s.Kept c) (hs : s.step c size (.settle t) = some s') :
    s'.Kept c ∧ s.Follows (.settle t) s' := by
  rw [State.step] at hs
  split at hs
  · next began version hcommitted =>
    cases hs
    refine ⟨(h.setTab (Tab.settle_key _ _) ((h.tabs t).settle version)
      ((h.backed t).settle (h.tabs t) hcommitted)).report _,
      fun k => ⟨k, .inl rfl, Finset.Subset.refl _⟩, fun u asked hr => ?_⟩
    have hr : (if (s.tabs t).dirty = false then some (t, began) else none) = some (u, asked) := hr
    split at hr <;> cases hr
    have hversion : version ⊆ s.database.stored (s.tabs t).key := (h.backed t).writing _ hcommitted
    exact (((h.tabs t).writing _ hcommitted : began ⊆ version).trans hversion).trans
      (congrArg s.database.stored (setTab_key (Tab.settle_key _ _) t)).ge
  · cases hs

lemma Kept.finish (h : s.Kept c) {asked : Finset Op}
    (hs : s.step c size (.finish t asked) = some s') :
    s'.Kept c ∧ s.Follows (.finish t asked) s' := by
  rw [State.step] at hs
  split at hs
  · next hanswered =>
    cases hs
    refine ⟨(h.setTab (Tab.finish_key _ _) ((h.tabs t).finish asked)
      ((h.backed t).finish asked)).report _,
      fun k => ⟨k, .inl rfl, Finset.Subset.refl _⟩, fun u other hr => ?_⟩
    cases hr
    exact ((h.backed t).answered asked hanswered).trans
      (congrArg s.database.stored (setTab_key (Tab.finish_key _ _) t)).ge
  · cases hs

/-- What every spared step keeps. -/
lemma Kept.step (h : s.Kept c) (ha : s.Spared c a) (hs : s.step c size a = some s') :
    s'.Kept c ∧ s.Follows a s' := by
  cases a with
  | edit t o =>
    rw [State.step] at hs
    split at hs <;> cases hs
    exact ⟨h.setTab rfl ((h.tabs t).grow (h.tabs t).doc.receive Holder.held_subset_receive)
      ((h.backed t).grow _), .setTab⟩
  | receive t ops =>
    cases hs
    exact ⟨h.setTab rfl ((h.tabs t).grow (h.tabs t).doc.receive Holder.held_subset_receive)
      ((h.backed t).grow _), .setTab⟩
  | notify t =>
    rw [State.step] at hs
    split at hs <;> cases hs
    exact ⟨h.setTab (Tab.changed_key _) (h.tabs t).changed (h.backed t).changed, .setTab⟩
  | close t =>
    cases hs
    exact ⟨h.setTab rfl (h.tabs t).close (h.backed t).close, .setTab⟩
  | readKey t =>
    rw [State.step] at hs
    split at hs
    · next hopening =>
      cases hs
      refine ⟨h.setTab (Tab.readKey_key _ _) ((h.tabs t).readKey ?_ fun r hr =>
        h.database.records _ r hr) ((h.backed t).readKey fun r v hr hv => ?_), .setTab⟩
      · rw [hopening]
        exact fun hno => by cases hno
      · exact ((h.database.records _ r hr).vector v hv).trans (Database.imports_subset_stored hr)
    · cases hs
  | readLegacy t =>
    rw [State.step] at hs
    split at hs
    · next legacyKey hlegacy _ =>
      cases hs
      exact ⟨h.setTab rfl ((h.tabs t).readLegacy hlegacy fun r => h.database.records _ r)
        ((h.backed t).readLegacy _), .setTab⟩
    · cases hs
  | migrate t => exact h.migrate ha hs
  | importSaved t =>
    rw [State.step] at hs
    split at hs
    · next saved hfound =>
      cases hs
      refine ⟨h.setTab (Tab.importSaved_key _ _) ((h.tabs t).importSaved hfound)
        ((h.backed t).importSaved hfound fun r hr hv hclosed => ?_), .setTab⟩
      exact ha r (hr ▸ hfound) hv hclosed
    · cases hs
  | readPending t =>
    rw [State.step] at hs
    split at hs
    · next hreading =>
      cases hs
      refine ⟨h.setTab rfl ((h.tabs t).read ?_ (fun r hr => ?_) (fun hno => ?_)
        (s.tabs t).stored (s.tabs t).persistedVector)
        ((h.backed t).read _ (s.tabs t).stored (h.backed t).vector fun r v hr _ => by cases hr),
        .setTab⟩
      · rw [hreading]
        exact fun hno => by cases hno
      · rcases hr with hr | hr <;> cases hr
      · rcases hno with hno | ⟨_, hno⟩ <;> cases hno
    · cases hs
  | importPending t =>
    rw [State.step] at hs
    split at hs
    · next pending htaken =>
      cases hs
      exact ⟨h.setTab rfl ((h.tabs t).importPending htaken)
        ((h.backed t).importPending fun hne => ha pending htaken hne), .setTab⟩
    · cases hs
  | failHydration t =>
    rw [State.step] at hs
    split at hs <;> cases hs
    exact ⟨h.setTab rfl (h.tabs t).done (h.backed t).done, .setTab⟩
  | capture t =>
    rw [State.step] at hs
    split at hs
    · next began hbegun =>
      cases hs
      exact ⟨h.setTab rfl ((h.tabs t).capture hbegun) ((h.backed t).capture began), .setTab⟩
    · cases hs
  | commit t => exact h.commit ha hs
  | failWrite t =>
    rw [State.step] at hs
    split at hs
    · cases hs
      exact ⟨h.setTab rfl (h.tabs t).fail (h.backed t).fail, .setTab⟩
    · cases hs
      exact ⟨h.setTab rfl (h.tabs t).fail (h.backed t).fail, .setTab⟩
    · cases hs
  | settle t => exact h.settle hs
  | flush t =>
    cases hs
    exact ⟨h.setTab rfl (h.tabs t).flush ((h.backed t).flush _), .setTab⟩
  | check t asked =>
    rw [State.step] at hs
    split at hs
    · next hcheck =>
      cases hs
      exact ⟨h.setTab (Tab.check_key _ _) ((h.tabs t).check hcheck.1 hcheck.2)
        ((h.backed t).check ((h.tabs t).flushing asked hcheck.2) ha), .setTab⟩
    · cases hs
  | finish t asked => exact h.finish hs

/-- A tab that has not read anything yet. -/
def Fresh (key : K) (legacyKey : Option K) (doc : Holder Op) : Tab K Op where
  key := key
  legacyKey := legacyKey
  doc := doc
  closed := false
  dirty := false
  stored := false
  persistedVector := none
  hydration := .opening
  writing := none
  rejected := false
  batch := 0
  flushing := []
  awaiting := []
  answered := []

/-- Any sound records and updates, and tabs with any documents. -/
structure Opening (c : Causality Op) (s : State K T Op) : Prop where
  database : s.database.Sound c
  tabs : ∀ t, ∃ key legacyKey doc, doc.Sound c ∧ s.tabs t = Fresh key legacyKey doc

omit [DecidableEq T] in
lemma Opening.kept (h : s.Opening c) : s.Kept c := by
  refine ⟨h.database, fun t => ?_, fun t => ?_⟩
  · obtain ⟨key, legacyKey, doc, hdoc, heq⟩ := h.tabs t
    rw [heq]
    exact ⟨hdoc, fun _ hw => (by cases hw), fun _ hr => (by rcases hr with hr | hr <;> cases hr),
      fun hno => (by rcases hno with hno | ⟨_, hno⟩ <;> cases hno), fun _ ha => (by cases ha),
      fun _ ha => (by cases ha), absurd rfl⟩
  · obtain ⟨key, legacyKey, doc, -, heq⟩ := h.tabs t
    rw [heq]
    exact ⟨Finset.empty_subset _, fun _ hw => (by cases hw), fun _ _ hr => (by cases hr),
      fun _ ha => (by cases ha)⟩

omit [DecidableEq T] in
lemma Kept.restore (h : s.Kept c) (k : K) :
    s.database.restore c k = ⟨s.database.stored k, ∅⟩ :=
  Database.restore_eq (h.database.closed k)

/-- After every step of a spared run, what is stored is imported without a gap, nothing that was
stored is lost, and what a tab reports is stored. -/
theorem offline_copy_kept {s₀ : State K T Op} {actions : List (Action T Op)} (h₀ : s₀.Opening c)
    (h : Run (step c size) (Spared c) s₀ actions s) (ha : s.Spared c a)
    (hs : s.step c size a = some s') :
    (∀ k, (s'.database.restore c k).waiting = ∅) ∧
      (∀ k, ∃ k', (k' = k ∨ s.Moves a k k') ∧
        (s.database.restore c k).held ⊆ (s'.database.restore c k').held) ∧
      ∀ t asked, s'.report = some (t, asked) →
        asked ⊆ (s'.database.restore c (s'.tabs t).key).held := by
  have hkept : s.Kept c :=
    h.invariant (I := Kept c) (fun _ _ _ hi hspared hstep => (hi.step hspared hstep).1) h₀.kept
  obtain ⟨hkept', hfollows⟩ := hkept.step ha hs
  refine ⟨fun k => ?_, fun k => ?_, fun t asked hr => ?_⟩
  · rw [hkept'.restore]
  · obtain ⟨k', hk, hsub⟩ := hfollows.grows k
    refine ⟨k', hk, ?_⟩
    rw [hkept.restore, hkept'.restore]
    exact hsub
  · rw [hkept'.restore]
    exact hfollows.report t asked hr

section Examples

/-- The second operation needs the first. -/
def chain : Causality ℕ where
  needs o := if o = 2 then {1} else ∅
  lamport := id
  needs_lt := by
    intro o p hp
    split at hp
    · next ho =>
      rw [Finset.mem_singleton.mp hp, ho]
      exact Nat.one_lt_two
    · exact absurd hp (Finset.notMem_empty p)

/-- One tab over a record of the first version. -/
def opened : State Unit Unit ℕ where
  database := { states := fun _ => some (.one {0}), updates := [] }
  tabs := fun _ => Fresh () none .empty
  report := none

lemma opening_opened : opened.Opening chain := by
  refine ⟨⟨?_, ?_⟩, fun t => ⟨(), none, _, Holder.sound_empty, rfl⟩⟩
  · rintro k r hr
    cases hr
    refine ⟨?_, ?_, nofun⟩
    · decide
    · decide
  · rintro ⟨⟩
    decide

/-- An edit after the record was read is written and reported. -/
theorem edit_is_written : ∃ s s', Run (step chain Finset.card) (Spared chain) opened
    [.readKey (), .importSaved (), .readPending (), .importPending (), .edit () 1, .notify (),
      .capture (), .commit ()] s ∧ s.step chain Finset.card (.settle ()) = some s' ∧
    s'.report = some ((), {0, 1}) ∧ {0, 1} ⊆ (s'.database.restore chain ()).held := by
  obtain ⟨s, s', hrun, hs, hreport⟩ : ∃ s s', Run (step chain Finset.card) (Spared chain) opened
      [.readKey (), .importSaved (), .readPending (), .importPending (), .edit () 1, .notify (),
        .capture (), .commit ()] s ∧ s.step chain Finset.card (.settle ()) = some s' ∧
      s'.report = some ((), {0, 1}) := by
    refine ⟨_, _, .cons trivial rfl (.cons ?_ rfl (.cons trivial rfl (.cons ?_ rfl
      (.cons trivial rfl (.cons trivial rfl (.cons trivial rfl (.cons ?_ rfl (.nil _)))))))), rfl,
      rfl⟩
    · rintro saved hfound - -
      cases hfound
      decide
    · rintro pending htaken hne
      cases htaken
      exact absurd rfl hne
    · rintro began version update - snapshot updates vector hstates
      cases hstates
  exact ⟨s, s', hrun, hs, hreport,
    (offline_copy_kept (a := .settle ()) opening_opened hrun trivial hs).2.2 () {0, 1} hreport⟩

/-- An edit while the record is read is taken for stored. A flush then completes without it, and
what needs it waits for ever. -/
theorem edit_while_reading_is_lost : ∃ s s', opened.Opening chain ∧
    Run (step chain Finset.card) anyStep opened [.edit () 1, .readKey (), .importSaved (),
      .readPending (), .importPending (), .flush (), .check () {0, 1}, .finish () {0, 1}] s ∧
    s.report = some ((), {0, 1}) ∧ 1 ∉ (s.database.restore chain ()).held ∧
    Run (step chain Finset.card) anyStep s [.edit () 2, .notify (), .capture (), .commit ()] s' ∧
    2 ∈ (s'.database.restore chain ()).waiting := by
  refine ⟨_, _, opening_opened, .cons trivial rfl (.cons trivial rfl (.cons trivial rfl
    (.cons trivial rfl (.cons trivial rfl (.cons trivial rfl (.cons trivial rfl
    (.cons trivial rfl (.nil _)))))))), rfl, ?_, .cons trivial rfl (.cons trivial rfl
    (.cons trivial rfl (.cons trivial rfl (.nil _)))), ?_⟩
  · decide
  · decide

end Examples
end State
end LibrePaper.Offline
