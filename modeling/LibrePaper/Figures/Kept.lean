import LibrePaper.Figures.Catalogue
import LibrePaper.Objects.Referenced

/-!
# Figures that the head names keep their bytes

A digest that is named, or that an upload was answered with within the hour, has a row as long as
no trim drops a row that was offered again, and as long as what a change of the source names was
uploaded. The row's object is then there because objects that rows name stay.
-/
namespace LibrePaper.Figures
open Library Objects List Option Function

variable {s t : System} {o : Objects.Op} {d digest c : ℕ}

/-- The store's steps leave the rows of another document's figures, and so do all but a trim those
of its own. -/
lemma asset_stays (hi : s.Inv) (hactive : s.status d = .active)
    (hnot : ∀ referenced, o ≠ .trim d referenced) (h : s.step o = some t) {r : Row}
    (hr : r ∈ s.rows) (hd : r.key.document = d) (hdigest : r.digest = some digest) :
    r ∈ t.rows := by
  have hkind : ∃ created, r.kind = .asset digest created := by
    rw [Row.digest] at hdigest
    split at hdigest
    · next created hk =>
      cases hdigest
      exact ⟨created, hk⟩
    · cases hdigest
  obtain ⟨created, hkind⟩ := hkind
  have hdue : ∀ now, ¬r.Due now := fun now ⟨_, _, hk⟩ => by cases hkind.symm.trans hk
  cases o with
  | complete c =>
    rw [System.step, System.complete] at h
    repeat' split at h
    all_goals cases h
    exact mem_append_left _ hr
  | activate c =>
    rw [System.step, System.activate] at h
    repeat' split at h
    all_goals cases h
    refine mem_append_left _ (mem_map.2 ⟨r, hr, ?_⟩)
    rw [System.retire, if_neg]
    rintro ⟨-, hk⟩
    cases hkind.symm.trans hk
  | attach c =>
    rw [System.step, System.attach] at h
    repeat' split at h
    all_goals cases h
    · exact hr
    · exact mem_append_left _ hr
  | trim e referenced =>
    cases h
    refine mem_filter.2 ⟨hr, decide_eq_true ?_⟩
    rintro ⟨he, -⟩
    exact hnot referenced (he.symm.trans hd ▸ rfl)
  | removeRow c =>
    rw [System.step, System.removeRow] at h
    split at h
    · cases h
      exact mem_filter.2 ⟨hr, decide_eq_true fun hk => hdue _ hk.2⟩
    · cases h
  | finish c =>
    rw [System.step, System.finish] at h
    split at h
    · next e hc =>
      cases h
      refine mem_filter.2 ⟨hr, decide_eq_true fun he => ?_⟩
      rcases (hi.calls c _ hc).2.1 with hp | hp <;>
      · rw [← he, hd, hactive] at hp
        cases hp
    · cases h
  | _ =>
    simp only [System.step, System.put, System.writeBase, System.acquire, System.look, System.adopt,
      System.enter, System.list, System.filter, System.lock, System.check, System.sweep,
      System.listDue, System.removeBase, System.collect, System.purge, System.beginBackup,
      System.snapshot] at h
    repeat' split at h
    all_goals cases h
    all_goals exact hr

/-- An active document stays so until it is trashed. -/
lemma active_stays (hi : s.Inv) (hactive : s.status d = .active) (hnot : o ≠ .trash d)
    (h : s.step o = some t) : t.status d = .active := by
  have hother : ∀ e status, e ≠ d → (s.setStatus e status).status d = .active :=
    fun e status he => (System.status_of_ne (Ne.symm he) status).trans hactive
  cases o with
  | trash e =>
    rw [System.step] at h
    split at h
    · cases h
      exact hother e _ fun he => hnot (he ▸ rfl)
    · cases h
  | restore e =>
    rw [System.step] at h
    split at h
    · next he =>
      cases h
      exact hother e _ fun hed => Status.noConfusion (hactive.symm.trans (hed ▸ he))
    · cases h
  | claim e =>
    rw [System.step] at h
    split at h
    · next he =>
      cases h
      exact hother e _ fun hed => Status.noConfusion (hactive.symm.trans (hed ▸ he))
    · cases h
  | finish c =>
    rw [System.step, System.finish] at h
    split at h
    · next e hc =>
      cases h
      refine hother e _ fun hed => ?_
      rcases (hi.calls c _ hc).2.1 with hp | hp <;>
      · rw [hed, hactive] at hp
        cases hp
    · cases h
  | _ =>
    simp only [System.step, System.put, System.complete, System.writeBase, System.activate,
      System.acquire, System.look, System.adopt, System.attach, System.enter, System.list,
      System.filter, System.lock, System.check, System.sweep, System.listDue, System.removeBase,
      System.removeRow, System.collect, System.purge, System.beginBackup, System.snapshot,
      System.trim] at h
    repeat' split at h
    all_goals cases h
    all_goals exact hactive

/-- A completed upload leaves the document with every digest that it staged. -/
lemma hasAsset_complete (hi : s.Inv) {staged : List Staged}
    (hc : s.calls c = some (.upload d staged)) (h : s.complete c = some t) {x : Staged}
    (hx : x ∈ staged) : t.HasAsset d x.digest := by
  simp only [System.complete, hc] at h
  split at h
  · cases h
    by_cases hhas : s.HasAsset d x.digest
    · obtain ⟨r, hr, h⟩ := hhas
      exact ⟨r, mem_append_left _ hr, h⟩
    · refine ⟨⟨x.key, .asset x.digest s.now⟩, mem_append_right _ ?_,
        (hi.calls c _ hc).1 x hx, rfl⟩
      exact mem_map_of_mem (mem_filter.2 ⟨hx, decide_eq_true hhas⟩)
  · cases h

lemma now_le (h : s.step o = some t) : s.now ≤ t.now := by
  cases o with
  | tick n =>
    cases h
    exact Nat.le_add_right _ _
  | _ =>
    simp only [System.step, System.put, System.complete, System.writeBase, System.activate,
      System.acquire, System.look, System.adopt, System.attach, System.enter, System.list,
      System.filter, System.lock, System.check, System.sweep, System.listDue, System.removeBase,
      System.removeRow, System.collect, System.purge, System.beginBackup, System.snapshot,
      System.trim, System.finish] at h
    repeat' split at h
    all_goals cases h
    all_goals exact Nat.le_refl _

namespace Project

/-- Committed and about to be answered with, or answered with within the hour. -/
def Offered (s : Project) (digest : ℕ) : Prop :=
  (∃ c, s.waiting c = some digest) ∨ s.Fresh digest

/-- A trim drops no row that was offered again, and none that the stored document names when that
is ahead. A change of the source names what has a row. An upload's row follows its object in
time. -/
def Clean (s : Project) : Op → Prop
  | .trim _ => ∀ r ∈ s.store.rows, s.store.Trimmed s.document s.digests r →
      ∀ digest, r.digest = some digest →
        ¬s.Offered digest ∧ (s.behind = true → digest ∉ s.stored.map Prod.snd)
  | .putBinary _ digest _ => s.store.HasAsset s.document digest
  | .upload c _ | .replace c _ _ => s.store.InTime (.complete c)
  | .store o => s.store.InTime o
  | _ => True

/-- Every digest that is named has a row. -/
def Present (s : Project) (names : List (String × ℕ)) : Prop :=
  ∀ n ∈ names, s.store.HasAsset s.document n.2

structure Inv (s : Project) : Prop where
  store : s.store.Inv
  active : s.store.status s.document = .active
  head : s.Present s.head
  stored : s.Present s.stored
  offered : ∀ digest, s.Offered digest → s.store.HasAsset s.document digest
  settled : s.behind = false → s.buffered = false → s.head = s.stored

/-- The store after a step that keeps the figures of the project. -/
structure Keeps (s : Project) (store : System) : Prop where
  inv : store.Inv
  active : store.status s.document = .active
  rows : ∀ digest, s.store.HasAsset s.document digest → store.HasAsset s.document digest
  now : s.store.now ≤ store.now

variable {store : System} {lost : Bool} {names : List (String × ℕ)}

lemma Inv.keeps {s : Project} (hi : Inv s) (htime : s.store.InTime o)
    (htrim : ∀ referenced, o ≠ .trim s.document referenced) (htrash : o ≠ .trash s.document)
    (h : s.store.step o = some store) : Keeps s store := by
  refine ⟨hi.store.step htime h, active_stays hi.store hi.active htrash h, ?_, now_le h⟩
  rintro digest ⟨r, hr, hd, hdigest⟩
  exact ⟨r, asset_stays hi.store hi.active htrim h hr hd hdigest, hd, hdigest⟩

lemma Keeps.refl {s : Project} (hi : Inv s) : Keeps s s.store :=
  ⟨hi.store, hi.active, fun _ h => h, Nat.le_refl _⟩

lemma fresh_later {s t : Project} (hack : t.acknowledged = s.acknowledged)
    (hnow : s.store.now ≤ t.store.now) (h : t.Fresh digest) : s.Fresh digest := by
  obtain ⟨a, ha, hd, hle⟩ := h
  exact ⟨a, hack ▸ ha, hd, hnow.trans hle⟩

/-- A step keeps the invariant when it keeps the store's figures and names nothing new. -/
lemma Inv.of_keeps {s t : Project} (hi : Inv s) (hdoc : t.document = s.document)
    (hk : Keeps s t.store) (hhead : s.Present t.head ∨ t.Present t.head)
    (hstored : s.Present t.stored ∨ t.Present t.stored) (hack : t.acknowledged = s.acknowledged)
    (hwaiting : ∀ c digest, t.waiting c = some digest →
      s.waiting c = some digest ∨ t.store.HasAsset t.document digest)
    (hsettled : t.behind = false → t.buffered = false → t.head = t.stored) : Inv t := by
  have hpresent : ∀ names, s.Present names ∨ t.Present names → t.Present names := by
    rintro names (h | h)
    · exact fun n hn => hdoc ▸ hk.rows n.2 (h n hn)
    · exact h
  refine ⟨hk.inv, hdoc ▸ hk.active, hpresent _ hhead, hpresent _ hstored, ?_, hsettled⟩
  rintro digest (⟨c, hc⟩ | hfresh)
  · rcases hwaiting c digest hc with h | h
    · exact hdoc ▸ hk.rows digest (hi.offered digest (.inl ⟨c, h⟩))
    · exact h
  · exact hdoc ▸ hk.rows digest
      (hi.offered digest (.inr (fresh_later hack hk.now hfresh)))

/-- What a command that changes no source does to the document. -/
structure Stores (s t : Project) (store : System) : Prop where
  document : t.document = s.document
  store : t.store = store
  head : t.head = s.head
  stored : t.stored = s.stored ∧ (s.behind = false → s.buffered = false) ∨ t.stored = s.head
  waiting : t.waiting = s.waiting
  acknowledged : t.acknowledged = s.acknowledged
  settled : t.behind = false → t.buffered = false → t.head = t.stored

lemma Inv.stores {s t : Project} (hi : Inv s) (h : s.command store lost = some t) :
    Stores s t store := by
  rw [command] at h
  split at h
  · next hb =>
    cases h
    exact ⟨rfl, rfl, rfl, .inl ⟨rfl, fun _ => hb⟩, rfl, rfl, hi.settled⟩
  split at h
  · cases h
  split at h
  · cases h
    exact ⟨rfl, rfl, rfl, .inr rfl, rfl, rfl, Bool.noConfusion⟩
  · cases h
    exact ⟨rfl, rfl, rfl, .inr rfl, rfl, rfl, fun _ _ => rfl⟩

lemma Inv.command {s t : Project} (hi : Inv s) (hk : Keeps s store)
    (h : s.command store lost = some t) : Inv t := by
  have hs := hi.stores h
  refine hi.of_keeps hs.document (hs.store ▸ hk) (.inl (hs.head ▸ hi.head)) (.inl ?_)
    hs.acknowledged (fun c digest hc => .inl (hs.waiting ▸ hc)) hs.settled
  rcases hs.stored with ⟨h, -⟩ | h
  · exact h ▸ hi.stored
  · exact h ▸ hi.head

lemma Inv.commandSource {s t : Project} (hi : Inv s) (hk : Keeps s store)
    (hnames : ∀ n ∈ names, store.HasAsset s.document n.2)
    (h : s.commandSource store names lost = some t) : Inv t := by
  rw [Project.commandSource] at h
  split at h
  · cases h
  split at h
  · cases h
    exact hi.of_keeps rfl hk (.inl hi.head) (.inr hnames) rfl (fun _ _ => .inl)
      Bool.noConfusion
  · cases h
    exact hi.of_keeps rfl hk (.inr hnames) (.inr hnames) rfl (fun _ _ => .inl) fun _ _ => rfl

lemma Inv.upload {s t : Project} (hi : Inv s) (hclean : s.Clean (.upload c lost))
    (h : s.upload c lost = some t) : Inv t := by
  rw [Project.upload] at h
  split at h
  · next d x hc =>
    split at h
    · next hd =>
      obtain ⟨store, hstore, h⟩ := bind_eq_some_iff.1 h
      obtain ⟨u, hu, rfl⟩ := map_eq_some_iff.1 h
      have hk : Keeps s store :=
        hi.keeps (o := .complete c) hclean (fun _ => Objects.Op.noConfusion) Objects.Op.noConfusion
          hstore
      have hui := hi.command hk hu
      cases lost
      · rw [if_neg Bool.false_ne_true]
        refine hui.of_keeps rfl (Keeps.refl hui) (.inl hui.head) (.inl hui.stored) rfl
          (fun c' digest hc' => ?_) hui.settled
        by_cases heq : c' = c
        · right
          have hs := hi.stores hu
          have hself : update u.waiting c (some x.digest) c = some x.digest := update_self ..
          have hx : x.digest = digest := some.inj (hself.symm.trans (heq ▸ hc'))
          have := hasAsset_complete hi.store hc hstore (mem_singleton_self x)
          rw [hx, hd, ← hs.document, ← hs.store] at this
          exact this
        · exact .inl ((update_of_ne heq ..).symm.trans hc')
      · exact hui
    · cases h
  · cases h

lemma Inv.acknowledge {s t : Project} (hi : Inv s) (h : s.acknowledge c = some t) : Inv t := by
  obtain ⟨digest, hc, rfl⟩ := map_eq_some_iff.1 h
  refine ⟨hi.store, hi.active, hi.head, hi.stored, ?_, hi.settled⟩
  rintro d (⟨c', hc'⟩ | ⟨a, ha, hd, hle⟩)
  · by_cases heq : c' = c
    · subst heq
      cases (update_self ..).symm.trans hc'
    · exact hi.offered d (.inl ⟨c', (update_of_ne heq ..).symm.trans hc'⟩)
  · rcases mem_cons.1 ha with rfl | ha
    · exact hd ▸ hi.offered digest (.inl ⟨c, hc⟩)
    · exact hi.offered d (.inr ⟨a, ha, hd, hle⟩)

lemma Inv.replace {s t : Project} (hi : Inv s) (hclean : s.Clean (.replace c names lost))
    (h : s.replace c names lost = some t) : Inv t := by
  obtain ⟨store, hstore, h⟩ := bind_eq_some_iff.1 h
  split at h
  · next hall =>
    refine hi.commandSource ?_ hall h
    rw [completed] at hstore
    split at hstore
    · cases hstore
      exact Keeps.refl hi
    · split at hstore
      · exact hi.keeps (o := .complete c) hclean (fun _ => Objects.Op.noConfusion)
          Objects.Op.noConfusion hstore
      · cases hstore
    · cases hstore
  · cases h

lemma hasAsset_trim {s : Project} (h : s.store.HasAsset s.document digest)
    (hkeep : ∀ r ∈ s.store.rows, r.digest = some digest → ¬s.store.Trimmed s.document s.digests r) :
    (s.store.trim s.document s.digests).HasAsset s.document digest := by
  obtain ⟨r, hr, hd, hdigest⟩ := h
  exact ⟨r, mem_filter.2 ⟨hr, decide_eq_true (hkeep r hr hdigest)⟩, hd, hdigest⟩

lemma Inv.trim {s t : Project} (hi : Inv s) (hclean : s.Clean (.trim lost))
    (h : s.command (s.store.trim s.document s.digests) lost = some t) : Inv t := by
  have hs := hi.stores h
  have hnamed : ∀ digest ∈ s.digests, s.store.HasAsset s.document digest →
      (s.store.trim s.document s.digests).HasAsset s.document digest := by
    intro digest hd hhas
    refine hasAsset_trim hhas fun r hr hdigest ⟨_, htrim⟩ => ?_
    rw [Row.digest] at hdigest
    split at hdigest
    · next created hk =>
      cases hdigest
      rw [hk] at htrim
      exact htrim.1 hd
    · cases hdigest
  have hhead : ∀ n ∈ s.head, t.store.HasAsset t.document n.2 := fun n hn => by
    rw [hs.document, hs.store]
    exact hnamed n.2 (mem_map_of_mem hn) (hi.head n hn)
  refine ⟨?_, ?_, ?_, ?_, ?_, hs.settled⟩
  · rw [hs.store]
    exact hi.store.trim _ _
  · rw [hs.document, hs.store]
    exact hi.active
  · rw [Present, hs.head]
    exact hhead
  · rcases hs.stored with ⟨hst, hsettled⟩ | hst
    · rw [Present, hst]
      intro n hn
      cases hb : s.behind
      · rw [← hi.settled hb (hsettled hb)] at hn
        exact hhead n hn
      · rw [hs.document, hs.store]
        exact hasAsset_trim (hi.stored n hn) fun r hr hdigest htrim =>
          (hclean r hr htrim n.2 hdigest).2 hb (mem_map_of_mem hn)
    · rw [Present, hst]
      exact hhead
  · intro digest hoffered
    have hs' : s.Offered digest := by
      rcases hoffered with ⟨c, hc⟩ | hfresh
      · exact .inl ⟨c, hs.waiting ▸ hc⟩
      · refine .inr (fresh_later hs.acknowledged ?_ hfresh)
        rw [hs.store]
        exact Nat.le_refl _
    rw [hs.document, hs.store]
    exact hasAsset_trim (hi.offered digest hs') fun r hr hdigest htrim =>
      (hclean r hr htrim digest hdigest).1 hs'

lemma present_name {s : Project} (h : s.Present names) (path : String) {digest : Option ℕ}
    (hdigest : ∀ d, digest = some d → s.store.HasAsset s.document d) :
    s.Present (name names path digest) := by
  intro n hn
  rcases mem_append.1 hn with hn | hn
  · exact h n (mem_of_mem_filter hn)
  · rcases digest with _ | d
    · cases hn
    · cases mem_singleton.1 hn
      exact hdigest d rfl

lemma Inv.step {s t : Project} {o : Op} (hi : Inv s) (hprompt : s.Prompt o) (hclean : s.Clean o)
    (h : s.step o = some t) : Inv t := by
  cases o with
  | store o =>
    rw [Project.step] at h
    split at h
    · next helse =>
      obtain ⟨store, hstore, rfl⟩ := map_eq_some_iff.1 h
      have hk : Keeps s store := by
        refine hi.keeps hclean (fun referenced ho => ?_) (fun ho => ?_) hstore <;>
        · subst ho
          exact helse rfl
      exact hi.of_keeps rfl hk (.inl hi.head) (.inl hi.stored) rfl (fun _ _ => .inl) hi.settled
    · cases h
  | edit path digest =>
    cases h
    refine hi.of_keeps rfl (Keeps.refl hi) (.inl (present_name hi.head path ?_))
      (.inl hi.stored) rfl (fun _ _ => .inl) fun _ => Bool.noConfusion
    rintro d rfl
    exact hi.offered d (.inr hprompt)
  | flush =>
    rw [Project.step] at h
    split at h
    · cases h
    · cases h
      exact hi.of_keeps rfl (Keeps.refl hi) (.inl hi.head) (.inl hi.head) rfl
        (fun _ _ => .inl) fun _ _ => rfl
  | reload =>
    cases h
    exact hi.of_keeps rfl (Keeps.refl hi) (.inl hi.stored) (.inl hi.stored) rfl
      (fun _ _ => .inl) fun _ _ => rfl
  | upload c lost => exact hi.upload hclean h
  | acknowledge c => exact hi.acknowledge h
  | replace c names lost => exact hi.replace hclean h
  | restore names lost =>
    rw [Project.step, restore] at h
    split at h
    · next hall => exact hi.commandSource (Keeps.refl hi) hall h
    · cases h
  | putBinary path digest lost =>
    refine hi.commandSource (Keeps.refl hi) (present_name hi.head path ?_) h
    rintro d hd
    exact some.inj hd ▸ hclean
  | trim lost => exact hi.trim hclean h

lemma inv_start (d : ℕ) : Inv (start d) := by
  refine ⟨System.inv_empty, rfl, fun n hn => (nomatch hn), fun n hn => (nomatch hn), ?_,
    fun _ _ => rfl⟩
  rintro digest (⟨c, hc⟩ | ⟨a, ha, -⟩)
  · cases hc
  · cases ha

/-- As long as every step is clean and edits name what was just uploaded, what the head names has
a row and its object. -/
theorem figures_keep_their_bytes {d : ℕ} {ops : List Op} {s : Project}
    (h : Run step (fun s o => s.Prompt o ∧ s.Clean o) (start d) ops s) :
    ∀ n ∈ s.head, ∃ r ∈ s.store.rows, r.key.document = s.document ∧ r.digest = some n.2 ∧
      s.store.objects r.key ≠ none := by
  have hi : Inv s := Run.invariant (I := Inv) (fun _ _ _ hs ho => hs.step ho.1 ho.2) h
    (inv_start d)
  intro n hn
  obtain ⟨r, hr, hd, hdigest⟩ := hi.head n hn
  refine ⟨r, hr, hd, hdigest, ?_⟩
  rcases hi.store.stored r hr with (hp | hp) | ⟨due, _, hk⟩ | ho
  · cases (hd ▸ hi.active).symm.trans hp
  · cases (hd ▸ hi.active).symm.trans hp
  · rw [Row.digest, hk] at hdigest
    cases hdigest
  · exact ho

/-- A figure that is uploaded and named outlives a trim an hour later. -/
theorem named_figure_outlives_a_trim : ∃ s, Run step (fun s o => s.Prompt o ∧ s.Clean o) (start 7)
    [.store (.put 0 7 5), .upload 0 false, .acknowledge 0, .edit "a" (some 5),
      .store (.tick 4000), .trim false] s ∧
    ∃ r ∈ s.store.rows, r.digest = some 5 ∧ s.store.objects r.key ≠ none := by
  obtain ⟨s, hrun, hhead⟩ : ∃ s, Run step (fun s o => s.Prompt o ∧ s.Clean o) (start 7)
      [.store (.put 0 7 5), .upload 0 false, .acknowledge 0, .edit "a" (some 5),
        .store (.tick 4000), .trim false] s ∧ s.head = [("a", 5)] := by
    refine ⟨_, .cons ⟨trivial, trivial⟩ rfl (.cons ⟨trivial, ?_⟩ rfl (.cons ⟨trivial, trivial⟩ rfl
      (.cons ⟨⟨(5, 0), mem_cons_self .., rfl, by decide⟩, trivial⟩ rfl
      (.cons ⟨trivial, trivial⟩ rfl (.cons ⟨trivial, ?_⟩ rfl (.nil _)))))), rfl⟩
    · intro call hc x hx
      cases hc
      rw [mem_singleton.1 hx]
      decide
    · rintro r hr ⟨-, htrim⟩
      rw [mem_singleton.1 hr] at htrim
      exact absurd (mem_singleton_self 5) htrim.1
  obtain ⟨r, hr, -, hdigest, ho⟩ := figures_keep_their_bytes hrun ("a", 5)
    (by rw [hhead]; exact mem_cons_self ..)
  exact ⟨s, hrun, r, hr, hdigest, ho⟩

/-- A figure that is no longer named is uploaded again and acknowledged. A trim drops its row, and
the edit that names it comes after. -/
theorem offered_again_and_dropped : ∃ s, Run step Prompt (start 7)
    [.store (.put 0 7 5), .upload 0 false, .acknowledge 0, .edit "a" (some 5), .edit "a" none,
      .flush, .store (.tick 4000), .store (.put 1 7 5), .upload 1 false, .acknowledge 1,
      .trim false, .edit "a" (some 5)] s ∧
    s.head = [("a", 5)] ∧ s.store.rows = [] := by
  refine ⟨_, .cons trivial rfl (.cons trivial rfl (.cons trivial rfl (.cons ?_ rfl
    (.cons trivial rfl (.cons trivial rfl (.cons trivial rfl (.cons trivial rfl
    (.cons trivial rfl (.cons trivial rfl (.cons trivial rfl (.cons ?_ rfl
    (.nil _)))))))))))), rfl, rfl⟩
  · exact ⟨(5, 0), mem_cons_self .., rfl, by decide⟩
  · exact ⟨(5, 4000), mem_cons_self .., rfl, by decide⟩

end Project
end LibrePaper.Figures
