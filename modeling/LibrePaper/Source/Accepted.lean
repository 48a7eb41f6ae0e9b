import LibrePaper.Source.Patched

/-!
# What an accepted change satisfies
-/
namespace LibrePaper.Source
open Library List

section Unicode
variable {u : Unicode} {rules : Rules} {maxFiles : ℕ} {hash : List Char → String}
  {tree : SourceTree} {change : SourceChange} {origin : Origin}

/-- The paths that a change creates, and those of the binaries that it adds. -/
def addedPaths (tree : SourceTree) (change : SourceChange) : List Path :=
  change.create.map (·.path) ++
    (change.putBinary.filter fun f => (tree.assets.lookup f.path).isNone).map (·.path)

/-- How many files a tree has. -/
def SourceTree.size (tree : SourceTree) : ℕ := tree.files.keys.card + tree.assets.keys.card

/-- What is checked of a patch. -/
structure PatchOk (tree : SourceTree) (p : Patch) (file : SourceFile) : Prop where
  present : tree.files.lookup p.path = some file
  reads : rangeMatches file.text p.start p.stop p.captured = true

/-- What is checked of a deletion. -/
structure DeleteOk (tree : SourceTree) (change : SourceChange) (f : DeleteFile) : Prop where
  unpatched : ∀ p ∈ change.patches, p.path ≠ f.path
  present : f.path ∈ tree.files ∨
    f.path ∉ tree.files ∧ ∃ sha, tree.assets.lookup f.path = some sha

/-- What is checked of a new text. -/
structure CreateOk (u : Unicode) (rules : Rules) (tree : SourceTree) (f : CreateFile) :
    Prop where
  stored : normalise u f.path = f.path
  kind : admission u rules f.path = .ok .text
  noFile : f.path ∉ tree.files
  noAsset : f.path ∉ tree.assets

/-- What is checked of a binary. -/
structure PutOk (u : Unicode) (rules : Rules) (tree : SourceTree) (f : PutBinary) : Prop where
  stored : normalise u f.path = f.path
  kind : admission u rules f.path = .ok .asset
  digest : digestOk f.hash = true
  noFile : f.path ∉ tree.files

/-- What the file operations of an accepted change satisfy. -/
structure OperationsOk (u : Unicode) (rules : Rules) (maxFiles : ℕ) (tree : SourceTree)
    (change : SourceChange) : Prop where
  deletes : ∀ f ∈ change.delete, DeleteOk tree change f
  creates : ∀ f ∈ change.create, CreateOk u rules tree f
  puts : ∀ f ∈ change.putBinary, PutOk u rules tree f
  keys : ((addedPaths tree change).map (collisionKey u)).Nodup
  clash : ∀ path ∈ addedPaths tree change, collisionKey u path ∉ keptKeys u tree change
  count : addedPaths tree change ≠ [] →
    tree.size - removedCount tree change + (addedPaths tree change).length ≤ maxFiles

/-- What an accepted change satisfies. -/
structure Accepted (u : Unicode) (rules : Rules) (maxFiles : ℕ) (tree : SourceTree)
    (change : SourceChange) : Prop where
  patches : ∀ p ∈ change.patches, ∃ file, PatchOk tree p file
  overlaps : ∀ p ∈ change.patches, overlapping agentPatch
    ((change.patches.filter fun q => q.path = p.path).map fun q => (q.start, q.stop)) = false
  operations : OperationsOk u rules maxFiles tree change

variable {v : Unit} {found : Found} {α β ε : Type} {path : α → Path} {items : List α}
  {R : α → β → Prop}

lemma requireKind_ok {path : Path} {want : Kind} (h : requireKind u rules path want = .ok v) :
    normalise u path = path ∧ admission u rules path = .ok want := by
  unfold requireKind at h
  split_ifs at h with hne
  split at h
  · rename_i kind hkind
    split_ifs at h with hwant
    exact ⟨not_not.1 hne, hwant ▸ hkind⟩
  · cases h

lemma checkDelete_ok {f : DeleteFile} (h : checkDelete tree change f = .ok false) :
    DeleteOk tree change f := by
  unfold checkDelete at h
  split_ifs at h with hpatched hfile
  · refine ⟨fun p hp hpath => hpatched ?_, .inl hfile⟩
    exact any_eq_true.2 ⟨p, hp, decide_eq_true hpath⟩
  · refine ⟨fun p hp hpath => hpatched ?_, .inr ⟨hfile, ?_⟩⟩
    · exact any_eq_true.2 ⟨p, hp, decide_eq_true hpath⟩
    · split at h
      · rename_i sha hsha
        exact ⟨sha, hsha⟩
      · cases h

lemma checkCreate_ok {f : CreateFile} (h : checkCreate u rules tree f = .ok found)
    (hne : found ≠ .changed) : CreateOk u rules tree f ∧ found = .added := by
  unfold checkCreate at h
  cases hkind : requireKind u rules f.path .text with
  | error e => rw [hkind] at h; cases h
  | ok v =>
    rw [hkind] at h
    obtain ⟨hstored, hok⟩ := requireKind_ok hkind
    have hfound := Except.ok.inj h
    split_ifs at hfound with hthere
    · exact absurd hfound.symm hne
    · rw [not_or] at hthere
      exact ⟨⟨hstored, hok, hthere.1, hthere.2⟩, hfound.symm⟩

lemma checkPut_ok {f : PutBinary} (h : checkPut u rules tree f = .ok found)
    (hne : found ≠ .changed) :
    PutOk u rules tree f ∧ (found = .added ↔ tree.assets.lookup f.path = none) := by
  unfold checkPut at h
  cases hkind : requireKind u rules f.path .asset with
  | error e => rw [hkind] at h; cases h
  | ok v =>
    rw [hkind] at h
    obtain ⟨hstored, hok⟩ := requireKind_ok hkind
    by_cases hdigest : digestOk f.hash = false
    · rw [if_pos hdigest] at h
      cases h
    · rw [if_neg hdigest] at h
      rw [Bool.not_eq_false] at hdigest
      by_cases hfile : f.path ∈ tree.files
      · simp only [bind, Except.bind, pure, Except.pure, if_pos hfile] at h
        exact absurd (Except.ok.inj h).symm hne
      · simp only [bind, Except.bind, pure, Except.pure, if_neg hfile] at h
        refine ⟨⟨hstored, hok, hdigest, hfile⟩, ?_⟩
        cases hasset : tree.assets.lookup f.path <;> cases hexpect : f.expect <;>
          rw [hasset, hexpect] at h <;> simp only [Except.ok.injEq] at h
        · exact iff_of_true h.symm rfl
        · exact absurd h.symm hne
        · exact absurd h.symm hne
        · split_ifs at h
          · exact iff_of_false (by rw [← h]; exact nofun) nofun
          · exact absurd h.symm hne

lemma takeKeys_ok {taken added : List Path} (h : takeKeys u taken added = .ok v) :
    (added.map (collisionKey u)).Nodup ∧ ∀ path ∈ added, collisionKey u path ∉ taken := by
  induction added generalizing taken with
  | nil => exact ⟨nodup_nil, nofun⟩
  | cons path added ih =>
    unfold takeKeys at h
    split_ifs at h with hmem
    obtain ⟨hnodup, hfree⟩ := ih h
    refine ⟨nodup_cons.2 ⟨fun hin => ?_, hnodup⟩, fun q hq => ?_⟩
    · obtain ⟨q, hq, hkey⟩ := mem_map.1 hin
      exact hfree q hq (hkey ▸ mem_cons_self)
    · rcases mem_cons.1 hq with rfl | hq
      · exact hmem
      · exact fun hin => hfree q hq (mem_cons_of_mem _ hin)

lemma bind_ok {x : Except ε α} {f : α → Except ε β} {b : β} (h : (x >>= f) = .ok b) :
    ∃ a, x = .ok a ∧ f a = .ok b := by
  cases x with
  | error e => cases h
  | ok a => exact ⟨a, rfl, h⟩

/-- When every member of a list passes a check, the findings are those of the members. -/
lemma mapM_found {check : α → Except ε β} {found : List (Path × β)}
    (h : items.mapM (fun f => do pure (path f, ← check f)) = Except.ok found) :
    Forall₂ (fun f e => path f = e.1 ∧ check f = .ok e.2) items found := by
  induction items generalizing found with
  | nil =>
    cases h
    exact .nil
  | cons f items ih =>
    rw [mapM_cons] at h
    obtain ⟨e, he, h⟩ := bind_ok h
    obtain ⟨rest, hrest, h⟩ := bind_ok h
    obtain ⟨b, hb, he⟩ := bind_ok he
    cases h
    cases he
    exact .cons ⟨rfl, hb⟩ (ih hrest)

lemma forall_of_found {P : α → Prop} {found : List β} (h : Forall₂ R items found)
    (hP : ∀ f, ∀ e ∈ found, R f e → P f) : ∀ f ∈ items, P f := by
  induction h with
  | nil => exact nofun
  | cons hR _ ih =>
    intro f hf
    rcases mem_cons.1 hf with rfl | hf
    · exact hP _ _ mem_cons_self hR
    · exact ih (fun f e he => hP f e (mem_cons_of_mem _ he)) f hf

lemma forall₂_and_mem {S : α → β → Prop} {found : List β} (h : Forall₂ R items found)
    (hS : ∀ f, ∀ e ∈ found, R f e → S f e) : Forall₂ S items found := by
  induction h with
  | nil => exact .nil
  | cons hR _ ih =>
    exact .cons (hS _ _ mem_cons_self hR) (ih fun f e he => hS f e (mem_cons_of_mem _ he))

/-- The paths that are found to be added. -/
lemma added_of_found (isNew : α → Bool) {found : List (Path × Found)}
    (h : Forall₂ (fun f e => path f = e.1 ∧ (e.2 = .added ↔ isNew f = true)) items found) :
    (found.filter fun e => e.2 = Found.added).map (·.1) = (items.filter isNew).map path := by
  induction h with
  | nil => rfl
  | @cons f e items found hfe _ ih =>
    obtain ⟨hpath, hnew⟩ := hfe
    by_cases he : e.2 = Found.added
    · rw [filter_cons_of_pos (by simpa using he), filter_cons_of_pos (hnew.1 he),
        map_cons, map_cons, ih, hpath]
    · rw [filter_cons_of_neg (by simpa using he),
        filter_cons_of_neg (fun hno => he (hnew.2 hno)), ih]

lemma hasFileOperations_eq_false : change.hasFileOperations = false ↔
    change.create = [] ∧ change.delete = [] ∧ change.putBinary = [] := by
  unfold SourceChange.hasFileOperations
  simp [and_assoc]

lemma operations_ok (h : validateFileOperations u rules maxFiles tree change = .ok []) :
    OperationsOk u rules maxFiles tree change := by
  unfold validateFileOperations at h
  split_ifs at h with hnone
  · obtain ⟨hcreate, hdelete, hput⟩ := hasFileOperations_eq_false.1 hnone
    have hadded : addedPaths tree change = [] := by
      unfold addedPaths
      rw [hcreate, hput]
      rfl
    exact ⟨by rw [hdelete]; exact nofun, by rw [hcreate]; exact nofun, by rw [hput]; exact nofun,
      by rw [hadded]; exact nodup_nil, by rw [hadded]; exact nofun, absurd hadded⟩
  · obtain ⟨deletes, hdeletes, h⟩ := bind_ok h
    obtain ⟨creates, hcreates, h⟩ := bind_ok h
    obtain ⟨puts, hputs, h⟩ := bind_ok h
    obtain ⟨v, htake, h⟩ := bind_ok h
    dsimp only at h
    have hdeletes := mapM_found hdeletes
    have hcreates := mapM_found hcreates
    have hputs := mapM_found hputs
    split at h
    · cases h
    rename_i hover
    have hnil := Except.ok.inj h
    rw [append_eq_nil_iff, map_eq_nil_iff, map_eq_nil_iff,
      filter_eq_nil_iff, filter_eq_nil_iff] at hnil
    have hsame : ∀ e ∈ creates ++ puts, e.2 ≠ Found.changed := fun e he hno =>
      hnil.2 e he (decide_eq_true hno)
    have hcreated : Forall₂ (fun f e => f.path = e.1 ∧
        (CreateOk u rules tree f ∧ e.2 = Found.added)) change.create creates :=
      forall₂_and_mem hcreates fun f e he hfe =>
        ⟨hfe.1, checkCreate_ok hfe.2 (hsame e (mem_append_left _ he))⟩
    have hput : Forall₂ (fun f e => f.path = e.1 ∧ (PutOk u rules tree f ∧
        (e.2 = Found.added ↔ tree.assets.lookup f.path = none))) change.putBinary puts :=
      forall₂_and_mem hputs fun f e he hfe =>
        ⟨hfe.1, checkPut_ok hfe.2 (hsame e (mem_append_right _ he))⟩
    have hadded : ((creates ++ puts).filter fun e => e.2 = Found.added).map (·.1) =
        addedPaths tree change := by
      rw [filter_append, map_append,
        added_of_found (fun _ => true) (hcreated.imp fun f e hfe =>
          ⟨hfe.1, iff_of_true hfe.2.2 rfl⟩),
        added_of_found (fun f => (tree.assets.lookup f.path).isNone)
          (hput.imp fun f e hfe => ⟨hfe.1, hfe.2.2.trans Option.isNone_iff_eq_none.symm⟩),
        filter_true]
      rfl
    rw [hadded] at hover htake
    obtain ⟨hnodup, hfree⟩ := takeKeys_ok htake
    refine ⟨?_, forall_of_found hcreated fun f e _ hfe => hfe.2.1,
      forall_of_found hput fun f e _ hfe => hfe.2.1, hnodup, hfree, fun hne => ?_⟩
    · refine forall_of_found hdeletes fun f e he hfe => checkDelete_ok ?_
      have hsame := hnil.1 e he
      rw [Bool.not_eq_true] at hsame
      rw [hfe.2, hsame]
    · exact not_lt.1 fun hlt => hover ⟨hne, hlt⟩

lemma changedPatches_ok (h : changedPatches tree change = []) :
    ∀ p ∈ change.patches, ∃ file, PatchOk tree p file := by
  unfold changedPatches at h
  rw [map_eq_nil_iff, filter_eq_nil_iff] at h
  intro p hp
  have hsame := h p hp
  unfold rangeChanged at hsame
  split at hsame
  · exact absurd rfl hsame
  · rename_i file hfile
    rw [Bool.or_eq_true, not_or, Bool.not_eq_true', Bool.not_eq_false] at hsame
    exact ⟨file, hfile, hsame.2⟩

lemma rejectOverlaps_ok (h : rejectOverlaps change = .ok v) :
    ∀ p ∈ change.patches, overlapping agentPatch
      ((change.patches.filter fun q => q.path = p.path).map fun q => (q.start, q.stop)) =
        false := by
  unfold rejectOverlaps at h
  split_ifs at h with hany
  rw [any_eq_true] at hany
  intro p hp
  by_contra hover
  exact hany ⟨p.path, mem_map_of_mem hp, Bool.eq_true_of_not_eq_false hover⟩

/-- What a change satisfies that the checks accept. -/
lemma accepted_of_validate
    (h : validateSourceChange u hash rules maxFiles tree change origin = .ok v) :
    Accepted u rules maxFiles tree change := by
  unfold validateSourceChange at h
  obtain ⟨_, -, h⟩ := bind_ok h
  dsimp only at h
  split at h
  · cases h
  obtain ⟨_, -, h⟩ := bind_ok h
  split at h
  · cases h
  obtain ⟨_, -, h⟩ := bind_ok h
  split at h
  on_goal 1 => obtain ⟨_, -, h⟩ := bind_ok h
  all_goals
    split at h
    · cases h
    obtain ⟨operations, hoperations, h⟩ := bind_ok h
    split at h
    · cases h
    rename_i hsame
    rw [not_not, append_eq_nil_iff, append_eq_nil_iff] at hsame
    obtain ⟨⟨hpatches, -⟩, rfl⟩ := hsame
    exact ⟨changedPatches_ok hpatches, rejectOverlaps_ok h, operations_ok hoperations⟩

end Unicode

end LibrePaper.Source
