import LibrePaper.Source.Replace
import LibrePaper.Source.Performs

/-!
# What a replacement leaves

A replacement leaves exactly what is wanted when every path has at most one id that matters: the
rest of what is removed is no text, and what is written is the only text under its path.
-/
namespace LibrePaper.Source
open Library List

section Lookups
variable {doc doc' : Document} {path : Path}

lemma holders_ext (h : ∀ id, doc'.pathOf id = some path ↔ doc.pathOf id = some path) :
    doc'.holders path = doc.holders path := by
  refine filter_sortedKeys_congr fun id => ?_
  rw [decide_eq_true_iff, decide_eq_true_iff, h]
  exact and_congr_left fun hid => iff_of_true (mem_paths ((h id).2 hid)) (mem_paths hid)

lemma textIdByPathLast_ext (h : ∀ id, (doc'.textById id).isSome ∧ doc'.pathOf id = some path ↔
    (doc.textById id).isSome ∧ doc.pathOf id = some path) :
    doc'.textIdByPathLast path = doc.textIdByPathLast path := by
  have hin : ∀ (doc : Document) id, (doc.textById id).isSome → id ∈ doc.files := by
    intro doc id hsome
    obtain ⟨body, hbody⟩ := Option.isSome_iff_exists.1 hsome
    exact mem_files hbody
  refine congrArg getLast? (filter_sortedKeys_congr fun id => ?_)
  rw [decide_eq_true_iff, decide_eq_true_iff, h]
  exact and_congr_left fun hid =>
    iff_of_true (hin doc' id ((h id).2 hid).1) (hin doc id hid.1)

lemma idByPath_eq_none : doc.idByPath path = none ↔ doc.Unfiled path := by
  rw [Document.idByPath, head?_eq_none_iff, holders_eq_nil]

lemma pathOf_of_idByPath {id : Path} (h : doc.idByPath path = some id) :
    doc.pathOf id = some path :=
  mem_holders.1 (mem_of_mem_head? h)

end Lookups

/-- What removing the files at some paths leaves of a document. -/
structure Pruned (paths : List Path) (doc doc' : Document) : Prop where
  assets : doc'.assets = doc.assets
  named : ∀ id path body, doc'.Named id path body ↔
    doc.Named id path body ∧ (path ∈ paths → id ∈ (doc.holders path).tail)
  holders : ∀ path, path ∉ paths → doc'.holders path = doc.holders path
  files : ∀ id, id ∈ doc'.files → id ∈ doc.files
  paths : ∀ id, id ∈ doc'.paths → id ∈ doc.paths

lemma pruned_removePath (doc : Document) (path : Path) :
    Pruned [path] doc ((doc.removePath path).getD doc) := by
  cases hremove : doc.removePath path with
  | none =>
    have hnone : doc.Unfiled path := by
      rw [← idByPath_eq_none]
      exact Option.map_eq_none_iff.1 hremove
    refine ⟨rfl, fun id q body => ?_, fun _ _ => rfl, fun _ h => h, fun _ h => h⟩
    refine ⟨fun h => ⟨h, fun hq => ?_⟩, And.left⟩
    rw [mem_singleton.1 hq] at h
    exact absurd h.2 (hnone id)
  | some doc' =>
    obtain ⟨id, ids, h⟩ := removed_of_removePath hremove
    have hid : doc.pathOf id = some path := mem_holders.1 (h.here ▸ mem_cons_self)
    have hnodup := holders_nodup doc path
    rw [h.here, nodup_cons] at hnodup
    refine ⟨h.assets, fun j q body => ?_, fun q hq => ?_, h.files, h.paths⟩
    · change doc'.Named j q body ↔ _
      rw [Document.Named, h.textById, h.pathOf]
      split_ifs with hj
      · refine iff_of_false (fun hno => absurd hno.1 nofun) ?_
        rintro ⟨hnamed, htail⟩
        rw [hj] at hnamed htail
        obtain rfl := Option.some.inj (hid.symm.trans hnamed.2)
        refine hnodup.1 ?_
        have := htail (mem_singleton_self _)
        rwa [h.here] at this
      · refine ⟨fun hnamed => ⟨hnamed, fun hq => ?_⟩, And.left⟩
        obtain rfl := mem_singleton.1 hq
        have hmem := mem_holders.2 hnamed.2
        rw [h.here] at hmem ⊢
        exact (mem_cons.1 hmem).resolve_left hj
    · exact h.others q fun hno => hq (mem_singleton.2 hno)

lemma Pruned.cons {path : Path} {paths : List Path} {doc doc' doc'' : Document}
    (hpath : path ∉ paths) (h : Pruned [path] doc doc') (h' : Pruned paths doc' doc'') :
    Pruned (path :: paths) doc doc'' := by
  refine ⟨h'.assets.trans h.assets, fun id q body => ?_, fun q hq => ?_,
    fun id hid => h.files id (h'.files id hid), fun id hid => h.paths id (h'.paths id hid)⟩
  · rw [h'.named, h.named, and_assoc]
    refine and_congr_right fun _ => ?_
    by_cases hq : q = path
    · subst hq
      exact ⟨fun hall _ => hall.1 (mem_singleton_self _),
        fun hall => ⟨fun _ => hall mem_cons_self, fun hmem => absurd hmem hpath⟩⟩
    · have hne : q ∉ [path] := fun hmem => hq (mem_singleton.1 hmem)
      rw [h.holders q hne]
      exact ⟨fun hall hmem => hall.2 ((mem_cons.1 hmem).resolve_left hq),
        fun hall => ⟨fun hmem => absurd hmem hne, fun hmem => hall (mem_cons_of_mem _ hmem)⟩⟩
  · rw [mem_cons, not_or] at hq
    rw [h'.holders q hq.2, h.holders q fun hmem => hq.1 (mem_singleton.1 hmem)]

lemma pruned_removePaths {paths : List Path} (hnodup : paths.Nodup) (doc : Document) :
    Pruned paths doc (doc.removePaths paths) := by
  induction paths generalizing doc with
  | nil =>
    exact ⟨rfl, fun _ _ _ => ⟨fun h => ⟨h, nofun⟩, And.left⟩, fun _ _ => rfl, fun _ h => h,
      fun _ h => h⟩
  | cons path paths ih =>
    rw [nodup_cons] at hnodup
    exact (pruned_removePath doc path).cons hnodup.1 (ih hnodup.2 _)

lemma removeAssets_ok (doc : Document) (paths : List Path) :
    (doc.removeAssets paths).files = doc.files ∧ (doc.removeAssets paths).paths = doc.paths ∧
      ∀ q, (doc.removeAssets paths).assets.lookup q =
        if q ∈ paths then none else doc.assets.lookup q := by
  induction paths generalizing doc with
  | nil => exact ⟨rfl, rfl, fun _ => (if_neg not_mem_nil).symm⟩
  | cons path paths ih =>
    obtain ⟨hfiles, hpaths, hassets⟩ := ih ((doc.removeAsset path).getD doc)
    have hstep : ((doc.removeAsset path).getD doc).files = doc.files ∧
        ((doc.removeAsset path).getD doc).paths = doc.paths ∧
        ∀ q, ((doc.removeAsset path).getD doc).assets.lookup q =
          if q = path then none else doc.assets.lookup q := by
      unfold Document.removeAsset
      by_cases hpath : path ∈ doc.assets
      · rw [if_pos hpath]
        refine ⟨rfl, rfl, fun q => ?_⟩
        dsimp only [Option.getD_some]
        split_ifs with hq
        · rw [hq, Finmap.lookup_erase]
        · rw [Finmap.lookup_erase_ne hq]
      · rw [if_neg hpath]
        refine ⟨rfl, rfl, fun q => ?_⟩
        dsimp only [Option.getD_none]
        split_ifs with hq
        · rw [hq, Finmap.lookup_eq_none.2 hpath]
        · rfl
    refine ⟨hfiles.trans hstep.1, hpaths.trans hstep.2.1, fun q => (hassets q).trans ?_⟩
    rw [hstep.2.2]
    by_cases hq : q = path
    · rw [if_pos hq, ite_self, if_pos (hq ▸ mem_cons_self)]
    · simp [hq]

/-- The texts under a path after a text was put there. -/
def Written (doc : Document) (path : Path) (body : List Char) (new j : Path) (b : List Char) :
    Prop :=
  match doc.idByPath path with
  | none => j = new ∧ b = body
  | some id => if j = id then (∃ old, doc.Named id path old) ∧ b = body else doc.Named j path b

variable {doc doc' : Document} {path new j id : Path} {body b : List Char} {mint : ℕ → Path}
  {texts : List (Path × List Char)} {k : ℕ} {assets : List (Path × String)}

lemma written_none (h : doc.idByPath path = none) :
    Written doc path body new j b ↔ j = new ∧ b = body := by
  rw [Written, h]

lemma written_some (h : doc.idByPath path = some id) : Written doc path body new j b ↔
      if j = id then (∃ old, doc.Named id path old) ∧ b = body else doc.Named j path b := by
  rw [Written, h]

lemma written_congr (hholders : doc'.holders path = doc.holders path)
    (hnamed : ∀ j b, doc'.Named j path b ↔ doc.Named j path b) (body : List Char) (new j : Path)
    (b : List Char) : Written doc' path body new j b ↔ Written doc path body new j b := by
  have hid : doc'.idByPath path = doc.idByPath path := congrArg head? hholders
  cases h : doc.idByPath path with
  | none => rw [written_none h, written_none (hid.trans h)]
  | some id =>
    rw [written_some h, written_some (hid.trans h)]
    simp only [hnamed]

/-- What putting a text at a path leaves of a document. -/
structure Put (path : Path) (body : List Char) (new : Path) (doc doc' : Document) : Prop where
  assets : doc'.assets = doc.assets
  here : ∀ j b, doc'.Named j path b ↔ Written doc path body new j b
  others : ∀ q, q ≠ path → ∀ j b, doc'.Named j q b ↔ doc.Named j q b
  holders : ∀ q, q ≠ path → doc'.holders q = doc.holders q

section Put
variable {mint : ℕ → Path} {doc : Document} {k : ℕ} {path : Path} {body : List Char}

lemma Fresh.succ (hfresh : Fresh mint doc k) : Fresh mint doc (k + 1) :=
  fun j hj => hfresh j (Nat.le_of_succ_le hj)

lemma put_unfiled (hfresh : mint k ∉ doc.paths) (h : doc.Unfiled path) :
    Put path (normaliseEndings body) (mint k) doc (Document.putText mint (doc, k) path body).1 := by
  have hput : Document.putText mint (doc, k) path body = ({ doc with
      files := doc.files.insert (mint k) (.text (normaliseEndings body))
      paths := doc.paths.insert (mint k) (.string path) }, k + 1) :=
    putText_unfiled (f := ⟨path, body⟩) h
  have hold : ∀ j q, doc.pathOf j = some q → j ≠ mint k := by
    rintro j q hj rfl
    exact hfresh (mem_paths hj)
  have hpath := pathOf_put doc ⟨path, body⟩ (mint k)
  have htext := textById_put doc ⟨path, body⟩ (mint k)
  rw [hput]
  refine ⟨rfl, fun j b => ?_, fun q hq j b => ?_, fun q hq => holders_ext fun j => ?_⟩
  · rw [written_none (idByPath_eq_none.2 h), Document.Named, htext, hpath]
    split_ifs with hj
    · exact ⟨fun hno => ⟨hj, (Option.some.inj hno.1).symm⟩, fun hno => ⟨hno.2 ▸ rfl, rfl⟩⟩
    · exact iff_of_false (fun hno => h j hno.2) fun hno => hj hno.1
  · rw [Document.Named, htext, hpath]
    split_ifs with hj
    · exact iff_of_false (fun hno => hq (Option.some.inj hno.2).symm)
        fun hno => hold j q hno.2 hj
    · rfl
  · rw [hpath]
    split_ifs with hj
    · exact iff_of_false (fun hno => hq (Option.some.inj hno).symm) fun hno => hold j q hno hj
    · rfl

lemma put_filed (h : doc.idByPath path = some id) :
    Put path (normaliseEndings body) (mint k) doc (Document.putText mint (doc, k) path body).1 := by
  have hid := pathOf_of_idByPath h
  unfold Document.putText
  rw [h]
  dsimp only
  by_cases htext : (doc.textById id).isSome
  · rw [if_pos htext]
    obtain ⟨old, hold⟩ := Option.isSome_iff_exists.1 htext
    have hpath : ∀ j, ({ doc with files := doc.files.insert id (.text (normaliseEndings body)) } :
        Document).pathOf j = doc.pathOf j := fun _ => rfl
    refine ⟨rfl, fun j b => ?_, fun q hq j b => ?_, fun q _ => holders_congr rfl q⟩
    · rw [written_some h, Document.Named, textById_insert, hpath]
      split_ifs with hj
      · rw [hj, hid]
        exact ⟨fun hno => ⟨⟨old, hold, hid⟩, (Option.some.inj hno.1).symm⟩,
          fun hno => ⟨hno.2 ▸ rfl, rfl⟩⟩
      · rfl
    · rw [Document.Named, textById_insert, hpath]
      split_ifs with hj
      · rw [Document.Named, hj, hid]
        exact iff_of_false (fun hno => hq (Option.some.inj hno.2).symm)
          fun hno => hq (Option.some.inj hno.2).symm
      · rfl
  · rw [if_neg htext]
    refine ⟨rfl, fun j b => ?_, fun _ _ _ _ => Iff.rfl, fun _ _ => rfl⟩
    rw [written_some h]
    split_ifs with hj
    · have hno : ∀ old, ¬ doc.Named id path old := fun old hold => by
        rw [hold.1] at htext
        exact htext rfl
      rw [hj]
      exact iff_of_false (hno b) fun hold => hno _ hold.1.choose_spec
    · rfl

lemma put_putText (hfresh : Fresh mint doc k) : Put path (normaliseEndings body) (mint k) doc
    (Document.putText mint (doc, k) path body).1 := by
  cases h : doc.idByPath path with
  | none => exact put_unfiled (hfresh k le_rfl).2 (idByPath_eq_none.1 h)
  | some id => exact put_filed h

lemma fresh_putText (hmint : mint.Injective) (hfresh : Fresh mint doc k) :
    Fresh mint (Document.putText mint (doc, k) path body).1
      (Document.putText mint (doc, k) path body).2 := by
  cases h : doc.idByPath path with
  | none =>
    have hput : Document.putText mint (doc, k) path body = ({ doc with
        files := doc.files.insert (mint k) (.text (normaliseEndings body))
        paths := doc.paths.insert (mint k) (.string path) }, k + 1) :=
      putText_unfiled (f := ⟨path, body⟩) (idByPath_eq_none.1 h)
    rw [hput]
    intro j hj
    have hne : mint j ≠ mint k := fun hno => absurd (hmint hno) (Nat.ne_of_gt hj)
    obtain ⟨hfiles, hpaths⟩ := hfresh.succ j hj
    exact ⟨fun hin => (Finmap.mem_insert.1 hin).elim hne hfiles,
      fun hin => (Finmap.mem_insert.1 hin).elim hne hpaths⟩
  | some id =>
    unfold Document.putText
    rw [h]
    intro j hj
    obtain ⟨hfiles, hpaths⟩ := hfresh j hj
    dsimp only
    split_ifs with htext
    · obtain ⟨old, hold⟩ := Option.isSome_iff_exists.1 htext
      refine ⟨fun hin => ?_, hpaths⟩
      rcases Finmap.mem_insert.1 hin with hj' | hin
      · exact hfiles (hj' ▸ mem_files hold)
      · exact hfiles hin
    · exact ⟨hfiles, hpaths⟩

end Put

/-- Texts that are put at different paths do not meddle with each other. -/
lemma putTexts_ok (hmint : mint.Injective) (hpaths : (texts.map Prod.fst).Nodup)
    (hfresh : Fresh mint doc k) :
    (Document.putTexts mint (doc, k) texts).1.assets = doc.assets ∧
    (∀ t ∈ texts, ∃ new, ∀ j b, (Document.putTexts mint (doc, k) texts).1.Named j t.1 b ↔
      Written doc t.1 (normaliseEndings t.2) new j b) ∧
    ∀ q, q ∉ texts.map Prod.fst → ∀ j b,
      (Document.putTexts mint (doc, k) texts).1.Named j q b ↔ doc.Named j q b := by
  induction texts generalizing doc k with
  | nil => exact ⟨rfl, nofun, fun _ _ _ _ => Iff.rfl⟩
  | cons t texts ih =>
    rw [map_cons, nodup_cons] at hpaths
    have hput : Put t.1 (normaliseEndings t.2) (mint k) doc
        (Document.putText mint (doc, k) t.1 t.2).1 := put_putText hfresh
    obtain ⟨hassets, hwritten, hothers⟩ := ih hpaths.2 (fresh_putText hmint hfresh)
    refine ⟨hassets.trans hput.assets, fun t' ht' => ?_, fun q hq j b => ?_⟩
    · rcases mem_cons.1 ht' with rfl | ht'
      · exact ⟨mint k, fun j b => (hothers _ hpaths.1 j b).trans (hput.here j b)⟩
      · have hne : t'.1 ≠ t.1 := fun hno => hpaths.1 (hno ▸ mem_map_of_mem ht')
        obtain ⟨new, hnew⟩ := hwritten t' ht'
        exact ⟨new, fun j b => (hnew j b).trans
          (written_congr (hput.holders _ hne) (hput.others _ hne) _ _ _ _)⟩
    · rw [map_cons, mem_cons, not_or] at hq
      exact (hothers q hq.2 j b).trans (hput.others q hq.1 j b)

/-- A text that is put at a path becomes the only one there: no id is filed under the path, or
the first one is a text and no other is. -/
def Document.Writable (doc : Document) (path : Path) : Prop :=
  doc.Unfiled path ∨ ∃ id, doc.idByPath path = some id ∧ (∃ body, doc.Named id path body) ∧
    ∀ j body, doc.Named j path body → j = id

/-- The only text under a path. -/
def Document.Sole (doc : Document) (path : Path) (body : List Char) : Prop :=
  ∃ id, ∀ j b, doc.Named j path b ↔ j = id ∧ b = body

lemma sole_of_writable (h : doc.Writable path)
    (hnew : ∀ j b, doc'.Named j path b ↔ Written doc path body new j b) : doc'.Sole path body := by
  rcases h with h | ⟨id, hid, hlive, hall⟩
  · exact ⟨new, fun j b => (hnew j b).trans (written_none (idByPath_eq_none.2 h))⟩
  · refine ⟨id, fun j b => (hnew j b).trans ((written_some hid).trans ?_)⟩
    split_ifs with hj
    · exact and_congr_left fun _ => iff_of_true hlive hj
    · exact iff_of_false (fun hno => hj (hall j b hno)) fun hno => hj hno.1

/-- What is not in the document yet can only be read where it was written. -/
lemma writable_of_sole (hforeign : ∀ id, doc.textById id ≠ some body) (h : doc'.Sole path body)
    (hnew : ∀ j b, doc'.Named j path b ↔ Written doc path body new j b) : doc.Writable path := by
  cases hid : doc.idByPath path with
  | none => exact .inl (idByPath_eq_none.1 hid)
  | some id =>
    have hwritten : ∀ j b, doc'.Named j path b ↔ _ := fun j b => (hnew j b).trans (written_some hid)
    obtain ⟨i, hi⟩ := h
    have hhere := (hwritten i body).1 ((hi i body).2 ⟨rfl, rfl⟩)
    split_ifs at hhere with hii
    · refine .inr ⟨id, hid, hhere.1, fun j b hj => ?_⟩
      by_contra hne
      have hother := (hwritten j b).2 (by rwa [if_neg hne])
      exact hne (((hi j b).1 hother).1.trans hii)
    · exact absurd hhere.1 (hforeign i)

/-- Some text is stored as it is and is not in the document. -/
lemma exists_foreign (doc : Document) : ∃ body, normaliseEndings body = body ∧
    ∀ id, doc.textById id ≠ some body := by
  have hplain : ∀ n, normaliseEndings (replicate n 'x') = replicate n 'x' := by
    intro n
    induction n with
    | zero => rfl
    | succ n ih => exact congrArg (cons 'x') ih
  let lengths := (sortedKeys doc.files).map fun id => ((doc.textById id).getD []).length
  refine ⟨replicate (lengths.sum + 1) 'x', hplain _, fun id hid => ?_⟩
  have hmem : lengths.sum + 1 ∈ lengths := by
    refine mem_map.2 ⟨id, mem_sortedKeys.2 (mem_files hid), ?_⟩
    rw [hid, Option.getD_some, length_replicate]
  exact absurd (le_sum_of_mem hmem) (Nat.not_succ_le_self _)

/-- What a replacement leaves of a document. -/
structure Outcome (doc doc' : Document) (texts : List (Path × List Char))
    (assets : List (Path × String)) : Prop where
  written : ∀ t ∈ texts, ∃ new, ∀ j b, doc'.Named j t.1 b ↔
    Written doc t.1 (normaliseEndings t.2) new j b
  left : ∀ q, q ∉ texts.map Prod.fst → ∀ j b, doc'.Named j q b ↔
    doc.Named j q b ∧ j ∈ (doc.holders q).tail
  assets : ∀ q digest, doc'.digestAt q = some digest ↔ (q, digest) ∈ assets

lemma digestAt_eq_none (h : path ∉ doc.assetsOf) : doc.digestAt path = none := by
  by_contra hno
  obtain ⟨digest, hdigest⟩ := Option.ne_none_iff_exists'.1 hno
  exact h (Document.mem_assetsOf hdigest)

lemma digestAt_putAssets (hnodup : (assets.map Prod.fst).Nodup)
    (hok : ∀ a ∈ assets, digestOk a.2 = true)
    (hbare : ∀ q, q ∉ assets.map Prod.fst → doc.digestAt q = none) (q : Path) (digest : String) :
    (doc.putAssets assets).digestAt q = some digest ↔ (q, digest) ∈ assets := by
  have hput : PutAll (assets.map fun a => ⟨a.1, a.2, none⟩) doc _ := puts_ok doc fun f hf => by
    obtain ⟨a, ha, rfl⟩ := mem_map.1 hf
    exact hok a ha
  rw [foldl_map] at hput
  have hpaths : (assets.map fun a => (⟨a.1, a.2, none⟩ : PutBinary)).map (·.path) =
      assets.map Prod.fst := map_map
  by_cases hq : q ∈ assets.map Prod.fst
  · obtain ⟨f, hf, hpath, hdigest⟩ := hput.here q (hpaths ▸ hq)
    obtain ⟨a, ha, rfl⟩ := mem_map.1 hf
    obtain rfl : a.1 = q := hpath
    change (doc.putAssets assets).digestAt a.1 = some a.2 at hdigest
    rw [hdigest]
    refine ⟨fun h => Option.some.inj h ▸ ha, fun h => ?_⟩
    exact congrArg (fun p => some p.2) (inj_on_of_nodup_map hnodup ha h rfl)
  · have hnone := hput.others q (hpaths ▸ hq)
    change (doc.putAssets assets).digestAt q = doc.digestAt q at hnone
    rw [hnone, hbare q hq]
    exact iff_of_false nofun fun hmem => hq (mem_map_of_mem hmem)

lemma named_putAssets (doc : Document) (assets : List (Path × String)) (j q : Path)
    (b : List Char) : (doc.putAssets assets).Named j q b ↔ doc.Named j q b := by
  unfold Document.putAssets
  induction assets generalizing doc with
  | nil => rfl
  | cons a assets ih => exact ih (doc.putAsset a.1 a.2)

lemma outcome_replaceProject (hmint : mint.Injective) (hfresh : Fresh mint doc 0)
    (htexts : (texts.map Prod.fst).Nodup) (hassets : (assets.map Prod.fst).Nodup)
    (hok : ∀ a ∈ assets, digestOk a.2 = true) :
    Outcome doc (Document.replaceProject mint doc texts assets) texts assets := by
  let kept := doc.removePaths (doc.unwantedTexts (texts.map Prod.fst))
  have hpruned : Pruned (doc.unwantedTexts (texts.map Prod.fst)) doc kept :=
    pruned_removePaths ((sortedKeys_nodup _).filter _) doc
  let bare := kept.removeAssets (kept.unwantedAssets (assets.map Prod.fst))
  obtain ⟨hfiles, hpaths, hlookup⟩ :=
    removeAssets_ok kept (kept.unwantedAssets (assets.map Prod.fst))
  have hnamed : ∀ j q b, bare.Named j q b ↔ kept.Named j q b := fun j q b => by
    have htext : bare.textById j = kept.textById j := textById_congr (congrArg _ hfiles)
    rw [Document.Named, Document.Named, htext, pathOf_congr hpaths]
  have hbare : ∀ q, q ∉ assets.map Prod.fst → bare.digestAt q = none := by
    intro q hq
    have hsome := hlookup q
    by_cases hmem : q ∈ kept.assetsOf
    · have hgone : q ∈ kept.unwantedAssets (assets.map Prod.fst) :=
        mem_filter.2 ⟨mem_sortedKeys.2 hmem, decide_eq_true hq⟩
      rw [if_pos hgone] at hsome
      unfold Document.digestAt
      rw [hsome]
    · have hgone : q ∉ kept.unwantedAssets (assets.map Prod.fst) :=
        fun hin => hmem (mem_sortedKeys.1 (mem_filter.1 hin).1)
      rw [if_neg hgone] at hsome
      have hsame : bare.digestAt q = kept.digestAt q := by
        unfold Document.digestAt
        rw [hsome]
      rw [hsame, digestAt_eq_none hmem]
  have hfresh' : Fresh mint bare 0 := fun j hj =>
    ⟨fun hin => (hfresh j hj).1 (hpruned.files _ (hfiles ▸ hin)),
      fun hin => (hfresh j hj).2 (hpruned.paths _ (hpaths ▸ hin))⟩
  obtain ⟨hsame, hwritten, hothers⟩ := putTexts_ok hmint htexts hfresh'
  have hput : ∀ q digest, ((Document.putTexts mint (bare, 0) texts).1.putAssets assets).digestAt q =
      some digest ↔ (q, digest) ∈ assets :=
    digestAt_putAssets hassets hok fun q hq => (digestAt_congr hsame q).trans (hbare q hq)
  have hlast : ∀ j q b, (Document.replaceProject mint doc texts assets).Named j q b ↔
      (Document.putTexts mint (bare, 0) texts).1.Named j q b :=
    named_putAssets _ assets
  have hwanted : ∀ q, q ∈ texts.map Prod.fst → q ∉ doc.unwantedTexts (texts.map Prod.fst) :=
    fun q hq hin => (Document.mem_unwantedTexts.1 hin).2 hq
  refine ⟨fun t ht => ?_, fun q hq j b => ?_, hput⟩
  · have hin := hwanted t.1 (mem_map_of_mem ht)
    obtain ⟨new, hnew⟩ := hwritten t ht
    refine ⟨new, fun j b => ((hlast j t.1 b).trans (hnew j b)).trans ?_⟩
    refine written_congr ((holders_congr hpaths _).trans (hpruned.holders _ hin))
      (fun j b => ?_) _ _ _ _
    rw [hnamed, hpruned.named]
    exact and_iff_left fun hno => absurd hno hin
  · rw [hlast, hothers q hq, hnamed, hpruned.named]
    refine and_congr_right fun hname => ⟨fun hall => hall ?_, fun htail _ => htail⟩
    exact Document.mem_unwantedTexts.2 ⟨⟨j, b, hname⟩, hq⟩

/-- Texts and assets that can all stand in one directory, under paths of their kinds. -/
structure Wanted (u : Unicode) (rules : Rules) (paths : List Path)
    (assets : List (Path × String)) : Prop where
  distinct : (paths ++ assets.map Prod.fst).Pairwise fun a b =>
    apart (collisionKey u a) (collisionKey u b) = true
  texts : ∀ path ∈ paths, admission u rules path = .ok .text
  assets : ∀ a ∈ assets, admission u rules a.1 = .ok .asset ∧ digestOk a.2 = true

/-- A projection holds texts and assets, each under its path, and nothing else. -/
structure Exact (u : Unicode) (p : Projected) (texts : List (Path × List Char))
    (assets : List (Path × String)) : Prop where
  settled : Settled p
  bodies : ∀ path body, p.texts.lookup path = some body ↔
    ∃ t ∈ texts, normalise u t.1 = path ∧ normaliseEndings t.2 = body
  texts : ∀ path, (∃ e, p.files.lookup path = some e ∧ e.kind = .text) ↔
    ∃ t ∈ texts, normalise u t.1 = path
  assets : ∀ path digest,
    (∃ e, p.files.lookup path = some e ∧ e.kind = .asset ∧ e.digest = digest) ↔
      ∃ a ∈ assets, normalise u a.1 = path ∧ a.2 = digest

/-- Every text that is wanted can be written, and of the files that are not wanted only the first
under a path is a text. -/
def Replaceable (u : Unicode) (rules : Rules) (doc : Document) (paths : List Path) : Prop :=
  (∀ path, path ∉ paths → admission u rules path = .ok .text →
    ∀ id ∈ (doc.holders path).tail, doc.textById id = none) ∧
  ∀ path ∈ paths, doc.Writable path

lemma collisionKey_normalise (u : Unicode) (path : Path) :
    collisionKey u (normalise u path) = collisionKey u path := by
  unfold collisionKey
  rw [normalise_normalise]

lemma apart_self (key : Path) : apart key key = false := by
  unfold apart
  simp

section Wanted
variable {u : Unicode} {rules : Rules} {paths : List Path} {assets : List (Path × String)}
  (h : Wanted u rules paths assets)
include h

lemma Wanted.nodup : paths.Nodup ∧ (assets.map Prod.fst).Nodup := by
  have hall : (paths ++ assets.map Prod.fst).Nodup := by
    refine Pairwise.imp (fun {a b} hapart (hsame : a = b) => ?_) h.distinct
    rw [hsame, apart_self] at hapart
    cases hapart
  exact ⟨(nodup_append.1 hall).1, (nodup_append.1 hall).2.1⟩

variable {a : Path}

lemma Wanted.beside {b : Path} (ha : a ∈ paths ++ assets.map Prod.fst)
    (hb : b ∈ paths ++ assets.map Prod.fst) (hne : a ≠ b) :
    apart (collisionKey u a) (collisionKey u b) = true := by
  have hsymm : Std.Symm fun a b : Path =>
      apart (collisionKey u a) (collisionKey u b) = true :=
    ⟨fun _ _ hapart => (apart_comm _ _).trans hapart⟩
  exact h.distinct.forall ha hb hne

lemma Wanted.inj {b : Path} (ha : a ∈ paths ++ assets.map Prod.fst)
    (hb : b ∈ paths ++ assets.map Prod.fst) (hname : normalise u a = normalise u b) : a = b := by
  by_contra hne
  have hapart := h.beside ha hb hne
  rw [collisionKey, hname, ← collisionKey, apart_self] at hapart
  cases hapart

end Wanted

section Exact
variable {u : Unicode} {rules : Rules} {hash : List Char → String} {doc doc' : Document}
  {texts : List (Path × List Char)} {assets : List (Path × String)}
  (hwanted : Wanted u rules (texts.map Prod.fst) assets) (h : Outcome doc doc' texts assets)
include hwanted h

omit hwanted in
/-- What is left asks for what is wanted, once each. -/
lemma Outcome.candidate (hdoc : Replaceable u rules doc (texts.map Prod.fst)) {c : Candidate}
    (hc : c ∈ candidates u rules doc') :
    (∃ t ∈ texts, ∃ id, doc'.Named id t.1 (normaliseEndings t.2) ∧
      c = .text id t.1 (normaliseEndings t.2)) ∨ ∃ a ∈ assets, c = .asset a.1 a.2 := by
  cases c with
  | text id path body =>
    obtain ⟨hnamed, hok⟩ := text_mem_iff.1 hc
    by_cases hpath : path ∈ texts.map Prod.fst
    · obtain ⟨t, ht, rfl⟩ := mem_map.1 hpath
      obtain ⟨new, hnew⟩ := h.written t ht
      obtain ⟨i, hsole⟩ := sole_of_writable (hdoc.2 t.1 hpath) hnew
      obtain ⟨-, rfl⟩ := (hsole id body).1 hnamed
      exact .inl ⟨t, ht, id, hnamed, rfl⟩
    · obtain ⟨hold, htail⟩ := (h.left path hpath id body).1 hnamed
      exact absurd (hold.1.symm.trans (hdoc.1 path hpath hok id htail)) nofun
  | asset path digest =>
    obtain ⟨hdigest, -⟩ := asset_mem_candidates.1 hc
    exact .inr ⟨(path, digest), (h.assets path digest).1 hdigest, rfl⟩

lemma Outcome.settled (hdoc : Replaceable u rules doc (texts.map Prod.fst)) :
    Settled (project u rules doc' hash) := by
  have hbeside : ∀ {c d : Candidate}, c.requested ∈ texts.map Prod.fst ++ assets.map Prod.fst →
      d.requested ∈ texts.map Prod.fst ++ assets.map Prod.fst → c.requested ≠ d.requested →
      Beside u c d := by
    intro c d hc hd hne
    unfold Beside Candidate.name
    rw [collisionKey_normalise, collisionKey_normalise]
    exact hwanted.beside hc hd hne
  have hmem : ∀ c ∈ candidates u rules doc',
      c.requested ∈ texts.map Prod.fst ++ assets.map Prod.fst := by
    intro c hc
    rcases h.candidate hdoc hc with ⟨t, ht, id, -, rfl⟩ | ⟨a, ha, rfl⟩
    · exact mem_append_left _ (mem_map_of_mem ht)
    · exact mem_append_right _ (mem_map_of_mem ha)
  rw [settled_iff_beside]
  intro c hc d hd hne
  refine hbeside (hmem c hc) (hmem d hd) fun hsame => hne ?_
  have hkind : c.kind = d.kind := by
    have hok := (mem_candidates.1 hc).2
    rw [hsame, (mem_candidates.1 hd).2] at hok
    exact (Except.ok.inj hok).symm
  cases c with
  | text id path body =>
    cases d with
    | text id' path' body' =>
      obtain rfl : path = path' := hsame
      have hnamed := (text_mem_iff.1 hc).1
      have hnamed' := (text_mem_iff.1 hd).1
      have hpath : path ∈ texts.map Prod.fst := by
        rcases h.candidate hdoc hc with ⟨t, ht, i, -, heq⟩ | ⟨a, -, heq⟩
        · cases heq
          exact mem_map_of_mem ht
        · cases heq
      obtain ⟨t, ht, rfl⟩ := mem_map.1 hpath
      obtain ⟨new, hnew⟩ := h.written t ht
      obtain ⟨i, hsole⟩ := sole_of_writable (hdoc.2 t.1 hpath) hnew
      obtain ⟨rfl, rfl⟩ := (hsole _ _).1 hnamed
      obtain ⟨rfl, rfl⟩ := (hsole _ _).1 hnamed'
      rfl
    | asset => cases hkind
  | asset path digest =>
    cases d with
    | text => cases hkind
    | asset path' digest' =>
      obtain rfl : path = path' := hsame
      have hdigest := (asset_mem_candidates.1 hc).1
      rw [(asset_mem_candidates.1 hd).1] at hdigest
      rw [Option.some.inj hdigest]

lemma Outcome.exact (hdoc : Replaceable u rules doc (texts.map Prod.fst)) :
    Exact u (project u rules doc' hash) texts assets := by
  have hset : Settled (project u rules doc' hash) := h.settled hwanted hdoc
  have htext : ∀ t ∈ texts, ∃ id,
      .text id t.1 (normaliseEndings t.2) ∈ candidates u rules doc' := by
    intro t ht
    have hpath : t.1 ∈ texts.map Prod.fst := mem_map_of_mem ht
    obtain ⟨new, hnew⟩ := h.written t ht
    obtain ⟨id, hsole⟩ := sole_of_writable (hdoc.2 t.1 hpath) hnew
    exact ⟨id, text_mem_iff.2 ⟨(hsole _ _).2 ⟨rfl, rfl⟩, hwanted.texts t.1 hpath⟩⟩
  have hasset : ∀ a ∈ assets, .asset a.1 a.2 ∈ candidates u rules doc' := fun a ha =>
    asset_mem_candidates.2 ⟨(h.assets _ _).2 ha, (hwanted.assets a ha).1⟩
  refine ⟨hset, fun path body => ?_, fun path => ?_, fun path digest => ?_⟩
  · rw [lookup_texts_iff hset]
    constructor
    · rintro ⟨id, raw, hc, rfl⟩
      rcases h.candidate hdoc hc with ⟨t, ht, i, -, heq⟩ | ⟨a, -, heq⟩
      · cases heq
        exact ⟨t, ht, rfl, rfl⟩
      · cases heq
    · rintro ⟨t, ht, rfl, rfl⟩
      obtain ⟨id, hc⟩ := htext t ht
      exact ⟨id, t.1, hc, rfl⟩
  · constructor
    · rintro ⟨e, he, hkind⟩
      obtain ⟨c, hc, rfl, rfl⟩ := (lookup_files hset).1 he
      rcases h.candidate hdoc hc with ⟨t, ht, i, -, rfl⟩ | ⟨a, -, rfl⟩
      · exact ⟨t, ht, rfl⟩
      · cases hkind
    · rintro ⟨t, ht, rfl⟩
      obtain ⟨id, hc⟩ := htext t ht
      exact ⟨_, (lookup_files hset).2 ⟨_, hc, rfl, rfl⟩, rfl⟩
  · constructor
    · rintro ⟨e, he, hkind, rfl⟩
      obtain ⟨c, hc, rfl, rfl⟩ := (lookup_files hset).1 he
      rcases h.candidate hdoc hc with ⟨t, ht, i, -, rfl⟩ | ⟨a, ha, rfl⟩
      · cases hkind
      · exact ⟨a, ha, rfl, rfl⟩
    · rintro ⟨a, ha, rfl, rfl⟩
      exact ⟨_, (lookup_files hset).2 ⟨_, hasset a ha, rfl, rfl⟩, rfl, rfl⟩

/-- A projection of foreign bodies is exact only when every path can be replaced. -/
lemma Outcome.replaceable (hbody : ∀ t ∈ texts, normaliseEndings t.2 = body)
    (hforeign : ∀ id, doc.textById id ≠ some body)
    (hexact : Exact u (project u rules doc' hash) texts assets) :
    Replaceable u rules doc (texts.map Prod.fst) := by
  have hset := hexact.settled
  refine ⟨fun path hpath hok id htail => ?_, fun path hpath => ?_⟩
  · by_contra hsome
    obtain ⟨old, hold⟩ := Option.ne_none_iff_exists'.1 hsome
    have hnamed : doc'.Named id path old := (h.left path hpath id old).2
      ⟨⟨hold, mem_holders.1 (mem_of_mem_tail htail)⟩, htail⟩
    obtain ⟨t, ht, -, rfl⟩ := (hexact.bodies _ _).1
      (lookup_texts hset (text_mem_iff.2 ⟨hnamed, hok⟩))
    exact hforeign id (hbody t ht ▸ hold)
  · obtain ⟨t, ht, rfl⟩ := mem_map.1 hpath
    obtain ⟨id, raw, hc, hname⟩ := (lookup_texts_iff hset).1
      ((hexact.bodies _ _).2 ⟨t, ht, rfl, rfl⟩)
    have hnamed := (text_mem_iff.1 hc).1
    have hraw : raw ∈ texts.map Prod.fst := by
      by_contra hno
      exact hforeign id (hbody t ht ▸ ((h.left raw hno _ _).1 hnamed).1.1)
    obtain rfl := hwanted.inj (mem_append_left _ hraw) (mem_append_left _ hpath) hname
    obtain ⟨new, hnew⟩ := h.written t ht
    refine writable_of_sole (hbody t ht ▸ hforeign) ⟨id, fun j b => ⟨fun hj => ?_, ?_⟩⟩ hnew
    · have hd := text_mem_iff.2 ⟨hj, hwanted.texts t.1 hpath⟩
      have hsame : Candidate.text id t.1 (normaliseEndings t.2) = .text j t.1 b := by
        by_contra hne
        exact (settled_iff_beside.1 hset _ hc _ hd hne).name_ne rfl
      cases hsame
      exact ⟨rfl, rfl⟩
    · rintro ⟨rfl, rfl⟩
      exact hnamed

end Exact

lemma textOf_of_sole (h : doc.Sole path body) : doc.textOf path = some body := by
  obtain ⟨id, hid⟩ := h
  have hnamed : doc.Named id path body := (hid id body).2 ⟨rfl, rfl⟩
  have hmem : ∀ j, j ∈ (sortedKeys doc.files).filter (fun j =>
      (doc.textById j).isSome ∧ doc.pathOf j = some path) ↔ j = id := by
    intro j
    rw [mem_filter, mem_sortedKeys, decide_eq_true_iff]
    constructor
    · rintro ⟨-, hsome, hpath⟩
      obtain ⟨b, hb⟩ := Option.isSome_iff_exists.1 hsome
      exact ((hid j b).1 ⟨hb, hpath⟩).1
    · rintro rfl
      exact ⟨mem_files hnamed.1, hnamed.1 ▸ rfl, hnamed.2⟩
  have hlast : doc.textIdByPathLast path = some id := by
    unfold Document.textIdByPathLast
    cases hl : ((sortedKeys doc.files).filter fun j =>
        (doc.textById j).isSome ∧ doc.pathOf j = some path).getLast? with
    | none =>
      rw [getLast?_eq_none_iff] at hl
      have := (hmem id).2 rfl
      rw [hl] at this
      cases this
    | some j => rw [(hmem j).1 (mem_of_getLast? hl)]
  rw [Document.textOf, hlast]
  exact hnamed.1

/-- A text that is put is read back exactly when nothing is filed under its path, or the first id
there is the last text there. -/
lemma textOf_putText_iff (hfresh : Fresh mint doc k) (path : Path) :
    (∀ body, (Document.putText mint (doc, k) path body).1.textOf path =
      some (normaliseEndings body)) ↔
      doc.Unfiled path ∨
        ∃ id, doc.idByPath path = some id ∧ doc.textIdByPathLast path = some id := by
  cases hid : doc.idByPath path with
  | none =>
    have hfree := idByPath_eq_none.1 hid
    refine iff_of_true (fun body => textOf_of_sole ?_) (.inl hfree)
    exact sole_of_writable (.inl hfree) (put_putText hfresh).here
  | some id =>
    have hfiled : ¬ doc.Unfiled path := fun hno => hno id (pathOf_of_idByPath hid)
    have hedit : ∀ body, (Document.putText mint (doc, k) path body).1 =
        if (doc.textById id).isSome then
          { doc with files := doc.files.insert id (.text (normaliseEndings body)) } else doc := by
      intro body
      unfold Document.putText
      rw [hid]
    have hlast : (doc.textById id).isSome → ∀ body,
        (Document.putText mint (doc, k) path body).1.textIdByPathLast path =
          doc.textIdByPathLast path := by
      intro hsome body
      rw [hedit, if_pos hsome]
      refine textIdByPathLast_ext fun j => and_congr_left fun _ => ?_
      rw [textById_insert]
      split_ifs with hj
      · exact iff_of_true rfl (hj ▸ hsome)
      · rfl
    constructor
    · intro hall
      obtain ⟨body, hbody, hforeign⟩ := exists_foreign doc
      have hread := hall body
      rw [hbody, Document.textOf] at hread
      obtain ⟨j, hj, htext⟩ := Option.bind_eq_some_iff.1 hread
      by_cases hsome : (doc.textById id).isSome
      · rw [hlast hsome] at hj
        rw [hedit, if_pos hsome, textById_insert] at htext
        split_ifs at htext with hji
        · exact .inr ⟨id, rfl, hji ▸ hj⟩
        · exact absurd htext (hforeign j)
      · rw [hedit, if_neg hsome] at htext
        exact absurd htext (hforeign j)
    · rintro (hno | ⟨i, hi, hl⟩)
      · exact absurd hno hfiled
      · cases hi
        have hsome : (doc.textById id).isSome := by
          have hmem := mem_of_getLast? hl
          rw [mem_filter, decide_eq_true_iff] at hmem
          exact hmem.2.1
        intro body
        rw [Document.textOf, hlast hsome, hl, hedit, if_pos hsome]
        exact (textById_insert doc id id _).trans (if_pos rfl)

section Replacement
variable {u : Unicode} {rules : Rules} {hash : List Char → String} {mint : ℕ → Path}
  {doc : Document} {paths : List Path} {assets : List (Path × String)}
  (hmint : mint.Injective) (hfresh : Fresh mint doc 0) (h : Wanted u rules paths assets)
include hmint hfresh h

lemma exact_iff_replaceable : (∀ texts, texts.map Prod.fst = paths →
    Exact u (project u rules (Document.replaceProject mint doc texts assets) hash) texts assets) ↔
      Replaceable u rules doc paths := by
  have houtcome : ∀ texts, texts.map Prod.fst = paths →
      Outcome doc (Document.replaceProject mint doc texts assets) texts assets := by
    rintro texts rfl
    exact outcome_replaceProject hmint hfresh h.nodup.1 h.nodup.2 fun a ha => (h.assets a ha).2
  constructor
  · intro hall
    obtain ⟨body, hbody, hforeign⟩ := exists_foreign doc
    let texts : List (Path × List Char) := paths.map fun path => (path, body)
    have htexts : texts.map Prod.fst = paths := by
      rw [map_map]
      exact map_id paths
    have hdoc : Replaceable u rules doc (texts.map Prod.fst) := by
      refine (houtcome texts htexts).replaceable (htexts ▸ h) (fun t ht => ?_) hforeign
        (hall texts htexts)
      obtain ⟨path, -, rfl⟩ := mem_map.1 ht
      exact hbody
    exact htexts ▸ hdoc
  · rintro hdoc texts rfl
    exact (houtcome texts rfl).exact h hdoc

/-- A replacement is exact, whatever the bodies, exactly when every path that is wanted can be
written and only the first file under any other is a text; and a text that is put is read back
exactly when nothing is filed under its path or the first id there is the last text there. -/
theorem replacement_is_exact : ((∀ texts, texts.map Prod.fst = paths →
    Exact u (project u rules (Document.replaceProject mint doc texts assets) hash) texts assets) ↔
      Replaceable u rules doc paths) ∧
    ∀ path, (∀ body, (Document.putText mint (doc, 0) path body).1.textOf path =
      some (normaliseEndings body)) ↔
      doc.Unfiled path ∨ ∃ id, doc.idByPath path = some id ∧ doc.textIdByPathLast path = some id :=
  ⟨exact_iff_replaceable hmint hfresh h, textOf_putText_iff hfresh⟩

end Replacement

lemma wanted_one : Wanted plain texRules ["b.tex".toList] [] :=
  ⟨pairwise_singleton _ _, fun path hpath => by
    obtain rfl := mem_singleton.1 hpath
    decide, nofun⟩

lemma pathOf_oneFile (h : oneFile.pathOf id = some path) : path = "a.tex".toList := by
  rcases Finmap.mem_insert.1 (mem_paths h) with rfl | hmem
  · have hpath : oneFile.pathOf ['f'] = some "a.tex".toList := by decide
    exact Option.some.inj (h.symm.trans hpath)
  · exact absurd hmem Finmap.notMem_empty

lemma replaceable_oneFile : Replaceable plain texRules oneFile ["b.tex".toList] := by
  refine ⟨fun path _ _ id htail => ?_, fun path hpath => .inl fun id hid => ?_⟩
  · obtain rfl := pathOf_oneFile (mem_holders.1 (mem_of_mem_tail htail))
    have hkeys : sortedKeys oneFile.paths = [['f']] := by
      refine sortedKeys_eq (by decide) fun id => ?_
      rw [oneFile, Finmap.mem_insert, mem_singleton]
      exact or_iff_left Finmap.notMem_empty
    have hholders : oneFile.holders "a.tex".toList = [['f']] := by
      rw [Document.holders, hkeys]
      decide
    rw [hholders] at htail
    cases htail
  · obtain rfl := mem_singleton.1 hpath
    exact absurd (pathOf_oneFile hid) (by decide)

theorem replacement_of_one_file : Exact plain
    (project plain texRules (Document.replaceProject minted oneFile [("b.tex".toList, ['y'])] [])
      fun _ => "") [("b.tex".toList, ['y'])] [] :=
  (replacement_is_exact minted_injective minted_fresh wanted_one).1.2 replaceable_oneFile _ rfl

/-- A project in which two peers have each created a file under one path. -/
def twoClaims : Document where
  files := Finmap.insert ['f'] (.text ['x']) (Finmap.insert ['g'] (.text ['y']) ∅)
  paths := Finmap.insert ['f'] (.string "a.tex".toList)
    (Finmap.insert ['g'] (.string "a.tex".toList) ∅)
  assets := ∅

lemma minted_fresh_twoClaims : Fresh minted twoClaims 0 := by
  intro j _
  have hne : ∀ c : Char, minted j ≠ [c] := by
    intro c hno
    have hlength := congrArg length hno
    unfold minted at hlength
    rw [length_replicate] at hlength
    exact absurd hlength (by simp)
  refine ⟨fun hin => ?_, fun hin => ?_⟩
  · exact (Finmap.mem_insert.1 hin).elim (hne _)
      fun hin => (Finmap.mem_insert.1 hin).elim (hne _) Finmap.notMem_empty
  · exact (Finmap.mem_insert.1 hin).elim (hne _)
      fun hin => (Finmap.mem_insert.1 hin).elim (hne _) Finmap.notMem_empty

lemma holders_twoClaims : twoClaims.holders "a.tex".toList = [['f'], ['g']] := by
  have hkeys : sortedKeys twoClaims.paths = [['f'], ['g']] := by
    refine sortedKeys_eq (by decide) fun id => ?_
    rw [twoClaims, Finmap.mem_insert, Finmap.mem_insert, mem_pair]
    exact or_congr_right (or_iff_left Finmap.notMem_empty)
  rw [Document.holders, hkeys]
  decide

lemma last_twoClaims : twoClaims.textIdByPathLast "a.tex".toList = some ['g'] := by
  have hkeys : sortedKeys twoClaims.files = [['f'], ['g']] := by
    refine sortedKeys_eq (by decide) fun id => ?_
    rw [twoClaims, Finmap.mem_insert, Finmap.mem_insert, mem_pair]
    exact or_congr_right (or_iff_left Finmap.notMem_empty)
  rw [Document.textIdByPathLast, hkeys]
  decide

/-- The second of two files under one path survives a replacement, and it is what is read after
the first is written. -/
theorem second_claim_stays : (¬ ∀ (u : Unicode) (rules : Rules) (hash : List Char → String)
    (mint : ℕ → Path) (doc : Document) (paths : List Path) (assets : List (Path × String)),
    mint.Injective → Fresh mint doc 0 → Wanted u rules paths assets →
    ∀ texts, texts.map Prod.fst = paths →
      Exact u (project u rules (Document.replaceProject mint doc texts assets) hash) texts assets) ∧
    ¬ ∀ (mint : ℕ → Path) (doc : Document) (path : Path) (body : List Char), mint.Injective →
      Fresh mint doc 0 → (Document.putText mint (doc, 0) path body).1.textOf path =
        some (normaliseEndings body) := by
  constructor
  · intro hall
    have hdoc := (exact_iff_replaceable minted_injective minted_fresh_twoClaims wanted_one).1
      (hall plain texRules (fun _ => "") minted twoClaims _ [] minted_injective
        minted_fresh_twoClaims wanted_one)
    have htail : ['g'] ∈ (twoClaims.holders "a.tex".toList).tail := by
      rw [holders_twoClaims]
      exact mem_singleton_self _
    exact absurd (hdoc.1 "a.tex".toList (by decide) (by decide) ['g'] htail) (by decide)
  · intro hall
    have hread := (textOf_putText_iff minted_fresh_twoClaims "a.tex".toList).1 fun body =>
      hall minted twoClaims _ body minted_injective minted_fresh_twoClaims
    rw [← holders_eq_nil, Document.idByPath, holders_twoClaims, last_twoClaims] at hread
    exact absurd hread (by decide)

end LibrePaper.Source
