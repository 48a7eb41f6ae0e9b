import LibrePaper.Library.Orders

/-!
# Forests of named files

A listing of the files of a folder and of all the folders below it. A name lies below another
when it continues it after a separator, and no file of a forest lies below another file.
-/
namespace LibrePaper.Library
open List

variable {α : Type*}

/-- A name that continues the name of a folder. -/
def Below (sep : α) (folder name : List α) : Prop := folder ++ [sep] <+: name

instance [DecidableEq α] (sep : α) (folder name : List α) : Decidable (Below sep folder name) :=
  inferInstanceAs (Decidable (_ <+: _))

lemma Below.ne {sep : α} {a b : List α} (h : Below sep a b) : a ≠ b := by
  rintro rfl
  have hle := h.length_le
  simp at hle

variable [LinearOrder α]

/-- The files by rising names, none of them below another. -/
@[ext] structure Forest (sep : α) (β : Type*) where
  entries : List (List α × β)
  sorted : entries.Pairwise fun a b => a.1 < b.1
  apart : ∀ a ∈ entries, ∀ b ∈ entries, ¬Below sep a.1 b.1

namespace Forest

variable {β : Type*} {sep : α}

instance [DecidableEq β] : DecidableEq (Forest sep β) := fun f g =>
  decidable_of_iff (f.entries = g.entries) ⟨Forest.ext, fun h => h ▸ rfl⟩

instance : EmptyCollection (Forest sep β) :=
  ⟨⟨[], List.Pairwise.nil, fun _ h => absurd h List.not_mem_nil⟩⟩

/-- What a forest holds under a name. -/
def get? (f : Forest sep β) (name : List α) : Option β :=
  (f.entries.find? fun e => e.1 = name).map Prod.snd

/-- Whether a file can stand beside another name. -/
def Clear (sep : α) (name other : List α) : Prop :=
  other ≠ name ∧ ¬Below sep other name ∧ ¬Below sep name other

instance (name other : List α) : Decidable (Clear sep name other) :=
  inferInstanceAs (Decidable (_ ∧ _ ∧ _))

/-- Puts a file under a name. The files that cannot stand beside it are taken out. -/
def put (f : Forest sep β) (name : List α) (b : β) : Forest sep β where
  entries := sortByKey Prod.fst ((name, b) :: f.entries.filter fun e => Clear sep name e.1)
  sorted := by
    have hnodup : (((name, b) :: f.entries.filter fun e => Clear sep name e.1).map
        Prod.fst).Nodup := by
      rw [List.map_cons, List.nodup_cons]
      constructor
      · intro h
        obtain ⟨e, he, hname⟩ := List.mem_map.mp h
        exact (of_decide_eq_true (List.mem_filter.mp he).2).1 hname
      · exact ((List.pairwise_map.mpr (f.sorted.imp ne_of_lt)).sublist
          (List.filter_sublist.map _))
    have hsorted := sortByKey_pairwise Prod.fst
      ((name, b) :: f.entries.filter fun e => Clear sep name e.1)
    have hne := List.pairwise_map.mp
      (((sortByKey_perm Prod.fst _).map Prod.fst).nodup_iff.mpr hnodup)
    exact (hsorted.and hne).imp fun h => lt_of_le_of_ne h.1 h.2
  apart := by
    intro a ha c hc
    rw [mem_sortByKey, List.mem_cons, List.mem_filter, decide_eq_true_eq] at ha hc
    rcases ha with rfl | ⟨ha, hclear⟩ <;> rcases hc with rfl | ⟨hc, hclear'⟩
    · exact fun h => h.ne rfl
    · exact hclear'.2.2
    · exact hclear.2.1
    · exact f.apart a ha c hc

/-- Takes the file of a name out. -/
def drop (f : Forest sep β) (name : List α) : Forest sep β where
  entries := f.entries.filter fun e => e.1 ≠ name
  sorted := f.sorted.sublist List.filter_sublist
  apart := fun a ha b hb => f.apart a (List.mem_of_mem_filter ha) b (List.mem_of_mem_filter hb)

lemma get?_eq_some {f : Forest sep β} {name : List α} {b : β} :
    f.get? name = some b ↔ (name, b) ∈ f.entries := by
  unfold get?
  constructor
  · intro h
    obtain ⟨⟨n, c⟩, he, rfl⟩ := Option.map_eq_some_iff.1 h
    have hn : n = name := by simpa using find?_some he
    exact hn ▸ mem_of_find?_eq_some he
  · intro h
    cases he : f.entries.find? fun e => e.1 = name with
    | none => exact absurd rfl (of_decide_eq_false
        (Bool.eq_false_iff.2 (find?_eq_none.1 he (name, b) h)))
    | some e =>
      have hn : e.1 = name := by simpa using find?_some he
      have hnodup : (f.entries.map Prod.fst).Nodup := pairwise_map.2 (f.sorted.imp ne_of_lt)
      rw [inj_on_of_nodup_map hnodup (mem_of_find?_eq_some he) h hn]
      rfl

lemma get?_put (f : Forest sep β) (name : List α) (b : β) (other : List α) :
    (f.put name b).get? other =
      if other = name then some b else if Clear sep name other then f.get? other else none := by
  ext c
  rw [get?_eq_some, put, mem_sortByKey, mem_cons, mem_filter, decide_eq_true_eq]
  split
  next h => simp [Clear, h, eq_comm]
  next h =>
    split
    next hclear => simp [h, hclear, get?_eq_some]
    next hclear => simp [h, hclear]

lemma get?_drop (f : Forest sep β) (name other : List α) :
    (f.drop name).get? other = if other = name then none else f.get? other := by
  ext b
  rw [get?_eq_some, drop, mem_filter]
  split
  next h => simp [h]
  next h => simp [h, get?_eq_some]

/-- Puts files one after the other. -/
def putAll (f : Forest sep β) (files : List (List α × β)) : Forest sep β :=
  files.foldl (fun f e => f.put e.1 e.2) f

/-- Takes files out one after the other. -/
def dropAll (f : Forest sep β) (names : List (List α)) : Forest sep β := names.foldl drop f

lemma get?_dropAll (f : Forest sep β) (names : List (List α)) (other : List α) :
    (f.dropAll names).get? other = if other ∈ names then none else f.get? other := by
  induction names generalizing f with
  | nil => rfl
  | cons name names ih =>
    change (Forest.dropAll (f.drop name) names).get? other = _
    rw [ih, get?_drop]
    by_cases h : other ∈ names <;> by_cases hname : other = name <;> simp [h, hname]

/-- A name that is not put keeps its file when the file can stand beside all that are put. -/
lemma get?_putAll_of_notMem (f : Forest sep β) {files : List (List α × β)} {other : List α}
    (h : other ∉ files.map Prod.fst) :
    (f.putAll files).get? other =
      if ∀ e ∈ files, Clear sep e.1 other then f.get? other else none := by
  induction files generalizing f with
  | nil => simp [putAll]
  | cons e files ih =>
    rw [map_cons, mem_cons, not_or] at h
    change (Forest.putAll (f.put e.1 e.2) files).get? other = _
    rw [ih _ h.2, get?_put, if_neg h.1]
    by_cases hclear : Clear sep e.1 other <;>
      simp only [hclear, forall_mem_cons, if_true, if_false, true_and, false_and, ite_self]

/-- The files that are put are found, when none of them takes another out. -/
lemma get?_putAll_of_mem (f : Forest sep β) {files : List (List α × β)} {e : List α × β}
    (hfiles : files.Pairwise fun a b => Clear sep b.1 a.1) (he : e ∈ files) :
    (f.putAll files).get? e.1 = some e.2 := by
  induction files generalizing f with
  | nil => exact absurd he not_mem_nil
  | cons a files ih =>
    obtain ⟨hhead, htail⟩ := pairwise_cons.1 hfiles
    change (Forest.putAll (f.put a.1 a.2) files).get? e.1 = _
    rcases mem_cons.1 he with rfl | he
    · have hnot : e.1 ∉ files.map Prod.fst := by
        intro hmem
        obtain ⟨b, hb, hname⟩ := mem_map.1 hmem
        exact (hhead b hb).1 hname.symm
      rw [get?_putAll_of_notMem _ hnot, if_pos hhead, get?_put, if_pos rfl]
    · exact ih _ htail he

end Forest
end LibrePaper.Library
