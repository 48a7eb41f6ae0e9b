import LibrePaper.Offline.Stored

/-!
# What one tab takes for stored

A tab takes for stored the vector it was left with, what it has put into the database, and what its
flushes were answered for. Whatever the tab does, this stays stored when it was, except that a tab
that reads may take its whole document for stored, and a closed tab answers every flush.
-/
namespace LibrePaper.Offline
open Library List Option

variable {K Op : Type*} [DecidableEq Op] {c : Causality Op}

namespace Write

/-- What a write takes for stored. -/
def relied : Write Op → Finset Op
  | .begun _ => ∅
  | .captured _ version update => version \ update
  | .committed _ version => version

/-- What a write is to store. -/
def Stores (asked : Finset Op) : Write Op → Prop
  | .begun _ => True
  | .captured _ version _ => asked ⊆ version
  | .committed _ version => asked ⊆ version

/-- A write stores what the document held when it began, and what it exported is part of it. -/
def Coherent (c : Causality Op) (held : Finset Op) : Write Op → Prop
  | .begun began => began ⊆ held
  | .captured began version update => began ⊆ version ∧ c.Closed version ∧ update ⊆ version
  | .committed began version => began ⊆ version

end Write

namespace Tab
variable {t : Tab K Op} {s : Finset Op}

/-- A tab takes nothing for stored but these operations. -/
structure Backed (t : Tab K Op) (s : Finset Op) : Prop where
  vector : t.persistedVector.getD ∅ ⊆ s
  writing : ∀ w, t.writing = some w → w.relied ⊆ s
  hydration : ∀ saved v, t.hydration = .found (some saved) → saved.vector = some v → v ⊆ s
  answered : ∀ asked ∈ t.answered, asked ⊆ s

/-- A flush that awaits a write is served by the next one, by the one in flight, or by what was
stored before. -/
structure Coherent (c : Causality Op) (t : Tab K Op) : Prop where
  doc : t.doc.Sound c
  writing : ∀ w, t.writing = some w → w.Coherent c t.doc.held
  hydration : ∀ saved, t.hydration = .found (some saved) ∨ t.hydration = .migrating saved →
    saved.Sound c
  legacy : t.hydration = .legacy ∨ (∃ saved, t.hydration = .migrating saved) →
    t.legacyKey ≠ some t.key
  flushing : ∀ asked ∈ t.flushing, asked ⊆ t.doc.held
  awaiting : ∀ asked ∈ t.awaiting, asked ⊆ t.doc.held ∧ (t.dirty = true ∨
    asked ⊆ t.persistedVector.getD ∅ ∨ ∃ w, t.writing = some w ∧ w.Stores asked)
  waits : t.awaiting ≠ [] → t.hydration = .done

lemma Backed.mono {r : Finset Op} (h : t.Backed r) (hrs : r ⊆ s) : t.Backed s :=
  ⟨h.vector.trans hrs, fun w hw => (h.writing w hw).trans hrs,
    fun saved v hs hv => (h.hydration saved v hs hv).trans hrs,
    fun asked ha => (h.answered asked ha).trans hrs⟩

omit [DecidableEq Op] in
lemma putState_cases (t : Tab K Op) :
    (t.closed = true ∨ t.writing ≠ none ∨ t.dirty = false) ∧ t.putState = t ∨
      t.closed = false ∧ t.writing = none ∧ t.dirty = true ∧
        t.putState = { t with dirty := false, writing := some (.begun t.doc.held) } := by
  rw [putState]
  split
  · next h => exact .inl ⟨h.imp_right (Or.imp_left isSome_iff_ne_none.1), rfl⟩
  · next h =>
    refine .inr ⟨?_, ?_, ?_, rfl⟩
    · exact Bool.eq_false_iff.2 fun hno => h (.inl hno)
    · exact not_isSome_iff_eq_none.1 fun hno => h (.inr (.inl hno))
    · exact Bool.of_not_eq_false fun hno => h (.inr (.inr hno))

lemma Coherent.putState (h : t.Coherent c) : t.putState.Coherent c := by
  rcases t.putState_cases with ⟨-, heq⟩ | ⟨-, -, -, heq⟩
  · rw [heq]
    exact h
  · rw [heq]
    refine ⟨h.doc, ?_, h.hydration, h.legacy, h.flushing, ?_, h.waits⟩
    · rintro w hw
      cases hw
      exact Finset.Subset.refl _
    · exact fun asked ha => ⟨(h.awaiting asked ha).1, .inr (.inr ⟨_, rfl, trivial⟩)⟩

lemma Backed.putState (h : t.Backed s) : t.putState.Backed s := by
  rcases t.putState_cases with ⟨-, heq⟩ | ⟨-, -, -, heq⟩
  · rw [heq]
    exact h
  · rw [heq]
    refine ⟨h.vector, ?_, h.hydration, h.answered⟩
    rintro w hw
    cases hw
    exact Finset.empty_subset _

lemma Coherent.mark (h : t.Coherent c) {flushing : List (Finset Op)} {dirty : Bool}
    (hflushing : ∀ asked ∈ flushing, asked ∈ t.flushing) (hdirty : t.dirty = true → dirty = true) :
    Coherent c { t with flushing := flushing, dirty := dirty } :=
  ⟨h.doc, h.writing, h.hydration, h.legacy, fun asked ha => h.flushing asked (hflushing asked ha),
    fun asked ha => ⟨(h.awaiting asked ha).1, (h.awaiting asked ha).2.imp_left hdirty⟩, h.waits⟩

lemma Coherent.changed (h : t.Coherent c) : t.changed.Coherent c := by
  rw [Tab.changed]
  split
  · exact h
  · exact (h.mark (fun _ ha => ha) fun _ => rfl).putState

lemma Backed.changed (h : t.Backed s) : t.changed.Backed s := by
  rw [Tab.changed]
  split
  · exact h
  · exact Backed.putState ⟨h.vector, h.writing, h.hydration, h.answered⟩

lemma Coherent.capture (h : t.Coherent c) {began : Finset Op}
    (hw : t.writing = some (.begun began)) : (t.capture began).Coherent c := by
  refine ⟨h.doc, ?_, h.hydration, h.legacy, h.flushing, fun asked ha => ?_, h.waits⟩
  · rintro w hcaptured
    cases hcaptured
    exact ⟨h.writing _ hw, h.doc.closed, Finset.sdiff_subset⟩
  · have hheld := (h.awaiting asked ha).1
    exact ⟨hheld, .inr (.inr ⟨_, rfl, hheld⟩)⟩

lemma Backed.capture (h : t.Backed s) (began : Finset Op) : (t.capture began).Backed s := by
  refine ⟨h.vector, ?_, h.hydration, h.answered⟩
  rintro w hw
  cases hw
  refine Finset.Subset.trans (fun o ho => ?_) h.vector
  obtain ⟨hheld, hno⟩ := Finset.mem_sdiff.1 ho
  exact by_contra fun hvector => hno (Finset.mem_sdiff.2 ⟨hheld, hvector⟩)

lemma Coherent.fail (h : t.Coherent c) : t.fail.Coherent c :=
  ⟨h.doc, fun _ hw => (by cases hw), h.hydration, h.legacy, h.flushing, fun _ ha => (by cases ha),
    absurd rfl⟩

lemma Backed.fail (h : t.Backed s) : t.fail.Backed s :=
  ⟨h.vector, fun _ hw => (by cases hw), h.hydration, h.answered⟩

/-- The write of a tab is in the database. -/
lemma Coherent.commit (h : t.Coherent c) {began version update : Finset Op}
    (hw : t.writing = some (.captured began version update)) :
    Coherent c { t with writing := some (.committed began version) } := by
  refine ⟨h.doc, ?_, h.hydration, h.legacy, h.flushing, fun asked ha => ?_, h.waits⟩
  · rintro w hcommitted
    cases hcommitted
    exact (h.writing _ hw).1
  · refine ⟨(h.awaiting asked ha).1, ?_⟩
    rcases (h.awaiting asked ha).2 with hdirty | hvector | ⟨w, hin, hstores⟩
    · exact .inl hdirty
    · exact .inr (.inl hvector)
    · cases hw.symm.trans hin
      exact .inr (.inr ⟨_, rfl, hstores⟩)

lemma Backed.commit (h : t.Backed s) {began version update : Finset Op}
    (hw : t.writing = some (.captured began version update)) :
    Backed { t with writing := some (.committed began version) } (s ∪ update) := by
  have hmore := h.mono (Finset.subset_union_left : s ⊆ s ∪ update)
  refine ⟨hmore.vector, ?_, hmore.hydration, hmore.answered⟩
  rintro w hcommitted
  cases hcommitted
  intro o ho
  by_cases hin : o ∈ update
  · exact Finset.mem_union_right _ hin
  · exact Finset.mem_union_left _ (h.writing _ hw (Finset.mem_sdiff.2 ⟨ho, hin⟩))

lemma Coherent.settle (h : t.Coherent c) (version : Finset Op) :
    (t.settle version).Coherent c := by
  rw [Tab.settle]
  split
  · exact ⟨h.doc, fun _ hw => (by cases hw), h.hydration, h.legacy, h.flushing,
      fun _ ha => (by cases ha), absurd rfl⟩
  · next hdirty =>
    have hdirty : t.dirty = true := Bool.of_not_eq_false hdirty
    have hover : Coherent c
        { t with persistedVector := some version, stored := true, writing := none } :=
      ⟨h.doc, fun _ hw => (by cases hw), h.hydration, h.legacy, h.flushing,
        fun asked ha => ⟨(h.awaiting asked ha).1, .inl hdirty⟩, h.waits⟩
    split
    · exact hover.fail
    · exact hover.putState

lemma Backed.settle (h : t.Backed s) (hc : t.Coherent c) {began version : Finset Op}
    (hw : t.writing = some (.committed began version)) : (t.settle version).Backed s := by
  have hversion : version ⊆ s := h.writing _ hw
  rw [Tab.settle]
  split
  · next hdirty =>
    have hdirty : t.dirty = false := hdirty
    refine ⟨hversion, fun _ hw => (by cases hw), h.hydration, fun asked ha => ?_⟩
    rcases mem_append.1 ha with ha | ha
    · rcases (hc.awaiting asked ha).2 with hno | hvector | ⟨w, hin, hstores⟩
      · cases hdirty.symm.trans hno
      · exact hvector.trans h.vector
      · cases hw.symm.trans hin
        exact Finset.Subset.trans hstores hversion
    · exact h.answered asked ha
  · have hover : Backed
        { t with persistedVector := some version, stored := true, writing := none } s :=
      ⟨hversion, fun _ hw => (by cases hw), h.hydration, h.answered⟩
    split
    · exact hover.fail
    · exact hover.putState

lemma look_clean {asked : Finset Op} (ha : asked ⊆ t.doc.held)
    (h : (t.look asked).dirty = false) : asked ⊆ t.persistedVector.getD ∅ := by
  have hvector : t.persistedVector = some t.doc.held :=
    not_not.1 (of_decide_eq_false (Bool.or_eq_false_iff.1 h).2)
  rw [hvector]
  exact ha

lemma Coherent.look (h : t.Coherent c) (asked : Finset Op) : (t.look asked).Coherent c :=
  h.mark (fun _ => mem_of_mem_erase) fun hdirty => by rw [hdirty]; rfl

lemma Backed.look (h : t.Backed s) (asked : Finset Op) : (t.look asked).Backed s :=
  ⟨h.vector, h.writing, h.hydration, h.answered⟩

lemma Coherent.check (h : t.Coherent c) (hdone : t.hydration = .done) {asked : Finset Op}
    (ha : asked ∈ t.flushing) : (t.check asked).Coherent c := by
  have hheld := h.flushing asked ha
  have hput := (h.look asked).putState
  have hlook : asked ⊆ (t.look asked).putState.doc.held ∧ ((t.look asked).putState.dirty = true ∨
      asked ⊆ (t.look asked).putState.persistedVector.getD ∅ ∨
        ∃ w, (t.look asked).putState.writing = some w ∧ w.Stores asked) ∧
      (t.look asked).putState.hydration = .done := by
    rcases (t.look asked).putState_cases with ⟨-, heq⟩ | ⟨-, -, -, heq⟩
    · rw [heq]
      refine ⟨hheld, ?_, hdone⟩
      by_cases hdirty : (t.look asked).dirty = true
      · exact .inl hdirty
      · exact .inr (.inl (look_clean (t := t) hheld (Bool.eq_false_iff.2 hdirty)))
    · rw [heq]
      exact ⟨hheld, .inr (.inr ⟨_, rfl, trivial⟩), hdone⟩
  rw [Tab.check]
  split
  · refine ⟨hput.doc, hput.writing, hput.hydration, hput.legacy, hput.flushing, ?_,
      fun _ => hlook.2.2⟩
    rintro other hother
    rcases mem_cons.1 hother with rfl | hother
    · exact ⟨hlook.1, hlook.2.1⟩
    · exact hput.awaiting other hother
  · split
    · exact hput
    · exact ⟨hput.doc, hput.writing, hput.hydration, hput.legacy, hput.flushing, hput.awaiting,
        hput.waits⟩

lemma Backed.check (h : t.Backed s) {asked : Finset Op} (ha : asked ⊆ t.doc.held)
    (hclosed : t.closed = true → t.writing = none → t.rejected = false → asked ⊆ s) :
    (t.check asked).Backed s := by
  have hput := (h.look asked).putState
  rw [Tab.check]
  split
  · exact ⟨hput.vector, hput.writing, hput.hydration, hput.answered⟩
  · next hidle =>
    split
    · exact hput
    · next hrejected =>
      refine ⟨hput.vector, hput.writing, hput.hydration, ?_⟩
      rintro other hother
      rcases mem_cons.1 hother with rfl | hother
      · have hnone := not_isSome_iff_eq_none.1 hidle
        rcases (t.look other).putState_cases with ⟨hwhy, heq⟩ | ⟨-, -, -, heq⟩
        · rw [heq] at hnone hrejected
          rcases hwhy with hno | hno | hclean
          · exact hclosed hno hnone (Bool.eq_false_iff.2 hrejected)
          · exact absurd hnone hno
          · exact (look_clean ha hclean).trans h.vector
        · rw [heq] at hnone
          cases hnone
      · exact hput.answered other hother

/-- More comes into the document. -/
lemma Coherent.grow (h : t.Coherent c) {doc : Holder Op} (hdoc : doc.Sound c)
    (hsub : t.doc.held ⊆ doc.held) : Coherent c { t with doc := doc } := by
  refine ⟨hdoc, fun w hw => ?_, h.hydration, h.legacy,
    fun asked ha => (h.flushing asked ha).trans hsub,
    fun asked ha => ⟨(h.awaiting asked ha).1.trans hsub, (h.awaiting asked ha).2⟩, h.waits⟩
  cases w with
  | begun began => exact Finset.Subset.trans (h.writing _ hw) hsub
  | captured began version update => exact h.writing _ hw
  | committed began version => exact h.writing _ hw

lemma Backed.grow (h : t.Backed s) (doc : Holder Op) : Backed { t with doc := doc } s :=
  ⟨h.vector, h.writing, h.hydration, h.answered⟩

/-- A tab that still reads goes on, and no flush awaits a write yet. -/
lemma Coherent.read (h : t.Coherent c) (hreading : t.hydration ≠ .done) {next : Hydration Op}
    (hnext : ∀ saved, next = .found (some saved) ∨ next = .migrating saved → saved.Sound c)
    (hlegacy : next = .legacy ∨ (∃ saved, next = .migrating saved) → t.legacyKey ≠ some t.key)
    (stored : Bool) (vector : Option (Finset Op)) :
    Coherent c { t with stored := stored, persistedVector := vector, hydration := next } := by
  have hnone : t.awaiting = [] := by_contra fun hno => hreading (h.waits hno)
  refine ⟨h.doc, h.writing, hnext, hlegacy, h.flushing, ?_, absurd hnone⟩
  intro asked ha
  rw [hnone] at ha
  cases ha

lemma Backed.read (h : t.Backed s) (next : Hydration Op) (stored : Bool)
    {vector : Option (Finset Op)} (hvector : vector.getD ∅ ⊆ s)
    (hnext : ∀ saved v, next = .found (some saved) → saved.vector = some v → v ⊆ s) :
    Backed { t with stored := stored, persistedVector := vector, hydration := next } s :=
  ⟨hvector, h.writing, hnext, h.answered⟩

lemma Coherent.done (h : t.Coherent c) : Coherent c { t with hydration := .done } :=
  ⟨h.doc, h.writing, fun _ hno => (by rcases hno with hno | hno <;> cases hno),
    fun hno => (by rcases hno with hno | ⟨_, hno⟩ <;> cases hno), h.flushing, h.awaiting,
    fun _ => rfl⟩

lemma Backed.done (h : t.Backed s) : Backed { t with hydration := .done } s :=
  ⟨h.vector, h.writing, fun _ _ hno => (by cases hno), h.answered⟩

section ReadKey
variable [DecidableEq K]

omit [DecidableEq Op] in
/-- The key's record is found, or the legacy key is another one. -/
lemma readKey_cases (t : Tab K Op) (saved : Option (Saved Op)) :
    t.readKey saved = { t with hydration := .found saved } ∨
      t.legacyKey ≠ some t.key ∧ t.readKey saved = { t with hydration := .legacy } := by
  cases saved with
  | some r => exact .inl rfl
  | none =>
    unfold readKey
    split
    · next legacyKey _ hlegacy =>
      by_cases hkey : legacyKey = t.key
      · rw [if_pos hkey]
        exact .inl rfl
      · rw [if_neg hkey]
        exact .inr ⟨fun hno => hkey (some.inj (hlegacy.symm.trans hno)), rfl⟩
    · exact .inl rfl

lemma Coherent.readKey (h : t.Coherent c) (hreading : t.hydration ≠ .done)
    {saved : Option (Saved Op)} (hsaved : ∀ r, saved = some r → r.Sound c) :
    (t.readKey saved).Coherent c := by
  rcases t.readKey_cases saved with heq | ⟨hne, heq⟩
  · rw [heq]
    refine h.read hreading (fun r hr => ?_) (fun hno => ?_) t.stored t.persistedVector
    · rcases hr with hr | hr <;> cases hr
      exact hsaved r rfl
    · rcases hno with hno | ⟨_, hno⟩ <;> cases hno
  · rw [heq]
    refine h.read hreading (fun r hr => ?_) (fun _ => hne) t.stored t.persistedVector
    rcases hr with hr | hr <;> cases hr

lemma Backed.readKey (h : t.Backed s) {saved : Option (Saved Op)}
    (hsaved : ∀ r v, saved = some r → r.vector = some v → v ⊆ s) : (t.readKey saved).Backed s := by
  rcases t.readKey_cases saved with heq | ⟨-, heq⟩
  · rw [heq]
    refine h.read _ t.stored h.vector fun r v hr hv => ?_
    cases hr
    exact hsaved r v rfl hv
  · rw [heq]
    exact h.read _ t.stored h.vector fun r v hr _ => by cases hr

end ReadKey

lemma Coherent.readLegacy (h : t.Coherent c) (hreading : t.hydration = .legacy)
    {saved : Option (Saved Op)} (hsaved : ∀ r, saved = some r → r.Sound c) :
    (t.readLegacy saved).Coherent c := by
  refine h.read (by rw [hreading]; nofun) (fun r hr => ?_)
    (fun _ => h.legacy (.inl hreading)) t.stored t.persistedVector
  rcases saved with - | saved
  · rcases hr with hr | hr <;> cases hr
  · rcases hr with hr | hr <;> cases hr
    exact hsaved _ rfl

lemma Backed.readLegacy (h : t.Backed s) (saved : Option (Saved Op)) :
    (t.readLegacy saved).Backed s := by
  refine h.read _ t.stored h.vector fun r v hr _ => ?_
  cases saved <;> cases hr

lemma importSaved_some (c : Causality Op) (t : Tab K Op) (r : Saved Op) :
    t.importSaved c (some r) =
      if t.closed = true then { t with hydration := .done }
      else { t with
        doc := t.doc.receiveAll c r.imports
        stored := true
        persistedVector := some (r.vector.getD (t.doc.receiveAll c r.imports).held)
        hydration := .reading } := rfl

lemma Coherent.importSaved (h : t.Coherent c) {saved : Option (Saved Op)}
    (hfound : t.hydration = .found saved) : (t.importSaved c saved).Coherent c := by
  cases saved with
  | none => exact h.done
  | some r =>
    rw [importSaved_some]
    split
    · exact h.done
    · refine (h.grow h.doc.receiveAll Holder.held_subset_receiveAll).read
        (by rw [hfound]; nofun) (fun r hr => ?_) (fun hno => ?_) true _
      · rcases hr with hr | hr <;> cases hr
      · rcases hno with hno | ⟨_, hno⟩ <;> cases hno

lemma Backed.importSaved (h : t.Backed s) {saved : Option (Saved Op)}
    (hfound : t.hydration = .found saved)
    (hown : ∀ r, saved = some r → r.vector = none → t.closed = false →
      (t.doc.receiveAll c r.imports).held ⊆ s) : (t.importSaved c saved).Backed s := by
  cases saved with
  | none => exact h.done
  | some r =>
    rw [importSaved_some]
    split
    · exact h.done
    · next hclosed =>
      refine (h.grow (t.doc.receiveAll c r.imports)).read .reading true ?_
        fun _ _ hno => (by cases hno)
      rw [getD_some]
      generalize hv : r.vector = vector
      cases vector with
      | none => exact hown r rfl hv (Bool.eq_false_iff.2 hclosed)
      | some v => exact h.hydration r v hfound hv

lemma Coherent.importPending (h : t.Coherent c) {pending : List (Finset Op)}
    (htaken : t.hydration = .taken pending) : (t.importPending c pending).Coherent c := by
  refine (h.grow h.doc.receiveAll Holder.held_subset_receiveAll).read
    (by rw [htaken]; nofun) (fun r hr => ?_) (fun hno => ?_) t.stored _
  · rcases hr with hr | hr <;> cases hr
  · rcases hno with hno | ⟨_, hno⟩ <;> cases hno

lemma Backed.importPending (h : t.Backed s) {pending : List (Finset Op)}
    (hown : pending ≠ [] → (t.doc.receiveAll c pending).held ⊆ s) :
    (t.importPending c pending).Backed s := by
  refine (h.grow (t.doc.receiveAll c pending)).read .done t.stored ?_ fun _ _ hno => (by cases hno)
  split
  · exact h.vector
  · next hne => exact hown hne

lemma Coherent.close (h : t.Coherent c) : Coherent c { t with closed := true } :=
  ⟨h.doc, h.writing, h.hydration, h.legacy, h.flushing, h.awaiting, h.waits⟩

lemma Backed.close (h : t.Backed s) : Backed { t with closed := true } s :=
  ⟨h.vector, h.writing, h.hydration, h.answered⟩

lemma Coherent.flush (h : t.Coherent c) :
    Coherent c { t with flushing := t.doc.held :: t.flushing } := by
  refine ⟨h.doc, h.writing, h.hydration, h.legacy, fun asked ha => ?_, h.awaiting, h.waits⟩
  rcases mem_cons.1 ha with rfl | ha
  · exact Finset.Subset.refl _
  · exact h.flushing asked ha

lemma Backed.flush (h : t.Backed s) (flushing : List (Finset Op)) :
    Backed { t with flushing := flushing } s := ⟨h.vector, h.writing, h.hydration, h.answered⟩

lemma Coherent.finish (h : t.Coherent c) (asked : Finset Op) : (t.finish asked).Coherent c :=
  ⟨h.doc, h.writing, h.hydration, h.legacy, h.flushing, h.awaiting, h.waits⟩

lemma Backed.finish (h : t.Backed s) (asked : Finset Op) : (t.finish asked).Backed s :=
  ⟨h.vector, h.writing, h.hydration, fun other ho => h.answered other (mem_of_mem_erase ho)⟩

end Tab
end LibrePaper.Offline
