import LibrePaper.Source.Applied

/-!
# Replacement of a whole project

A replacement removes what is not wanted and writes what is, path by path. A file is removed and
written through the first id under its path, and read through the last text under it.
-/
namespace LibrePaper.Source
open Library List Finmap

namespace Document

/-- The texts by path, each under its last id. -/
def textIdsOf (doc : Document) : Table Path :=
  insertAll ((sortedKeys doc.files).filterMap fun id =>
    match doc.textById id, doc.pathOf id with
    | some _, some path => some (path, id)
    | _, _ => none) ∅

/-- The assets that are named by a string. -/
def assetsOf (doc : Document) : Table String :=
  collect (fun _ value => match value with
    | .string digest => some digest
    | .other => none) doc.assets

/-- The last text that is named by a path. -/
def textIdByPathLast (doc : Document) (path : Path) : Option Path :=
  ((sortedKeys doc.files).filter fun id =>
    (doc.textById id).isSome ∧ doc.pathOf id = some path).getLast?

/-- The text at a path, as it is read. -/
def textOf (doc : Document) (path : Path) : Option (List Char) :=
  (doc.textIdByPathLast path).bind doc.textById

/-- Removes the files at paths. -/
def removePaths (doc : Document) (paths : List Path) : Document :=
  paths.foldl (fun doc path => (doc.removePath path).getD doc) doc

def removeAssets (doc : Document) (paths : List Path) : Document :=
  paths.foldl (fun doc path => (doc.removeAsset path).getD doc) doc

def putTexts (mint : ℕ → Path) (s : Document × ℕ) (texts : List (Path × List Char)) :
    Document × ℕ :=
  texts.foldl (fun s t => putText mint s t.1 t.2) s

def putAssets (doc : Document) (assets : List (Path × String)) : Document :=
  assets.foldl (fun doc a => doc.putAsset a.1 a.2) doc

/-- The texts that a replacement removes. -/
def unwantedTexts (doc : Document) (wanted : List Path) : List Path :=
  (sortedKeys doc.textIdsOf).filter (· ∉ wanted)

def unwantedAssets (doc : Document) (wanted : List Path) : List Path :=
  (sortedKeys doc.assetsOf).filter (· ∉ wanted)

def replaceProject (mint : ℕ → Path) (doc : Document) (texts : List (Path × List Char))
    (assets : List (Path × String)) : Document :=
  let kept := doc.removePaths (doc.unwantedTexts (texts.map Prod.fst))
  let bare := kept.removeAssets (kept.unwantedAssets (assets.map Prod.fst))
  (putTexts mint (bare, 0) texts).1.putAssets assets

variable {doc : Document} {path : Path}

lemma named_of_textIdsOf (h : path ∈ doc.textIdsOf) : ∃ id body, doc.Named id path body := by
  by_contra hno
  obtain ⟨id, hid⟩ := mem_iff.1 h
  rw [textIdsOf, lookup_insertAll_of_notMem, lookup_empty] at hid
  · cases hid
  intro hmem
  obtain ⟨e, he, rfl⟩ := mem_map.1 hmem
  obtain ⟨j, -, hj⟩ := mem_filterMap.1 he
  split at hj
  · next body path hbody hpath =>
    cases hj
    exact hno ⟨j, body, hbody, hpath⟩
  · cases hj

lemma mem_insertAll {κ α : Type*} [DecidableEq κ] {entries : List (κ × α)} {k : κ}
    (h : k ∈ entries.map Prod.fst) (table : Finmap fun _ : κ => α) :
    k ∈ insertAll entries table := by
  induction entries generalizing table with
  | nil => cases h
  | cons e entries ih =>
    rw [insertAll_cons]
    by_cases hk : k ∈ entries.map Prod.fst
    · exact ih hk _
    · have hek : k = e.1 := (mem_cons.1 h).resolve_right hk
      rw [← lookup_isSome, lookup_insertAll_of_notMem hk, hek, lookup_insert]
      rfl

lemma mem_textIdsOf : path ∈ doc.textIdsOf ↔ ∃ id body, doc.Named id path body := by
  refine ⟨named_of_textIdsOf, fun ⟨id, body, hbody, hpath⟩ => mem_insertAll ?_ _⟩
  refine mem_map.2 ⟨(path, id), mem_filterMap.2 ⟨id, mem_sortedKeys.2 (mem_files hbody), ?_⟩, rfl⟩
  rw [hbody, hpath]

lemma mem_unwantedTexts {wanted : List Path} :
    path ∈ doc.unwantedTexts wanted ↔ (∃ id body, doc.Named id path body) ∧ path ∉ wanted := by
  rw [unwantedTexts, mem_filter, mem_sortedKeys, mem_textIdsOf, decide_eq_true_iff]

/-- An asset that is projected is named by a string. -/
lemma mem_assetsOf {digest : String} (h : doc.digestAt path = some digest) :
    path ∈ doc.assetsOf := by
  rw [← lookup_isSome, assetsOf, lookup_collect]
  rw [digestAt] at h
  split at h
  · next d hd =>
    rw [hd]
    rfl
  · cases h

end Document

end LibrePaper.Source
