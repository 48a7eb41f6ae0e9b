import Mathlib

/-!
# Entries under keys

A map that is read in the order of its keys.
-/
namespace LibrePaper.Library
open List

variable {κ α : Type*} [LinearOrder κ]

/-- Entries under keys, in the order of the keys. -/
structure Keyed (κ α : Type*) [LinearOrder κ] where
  entries : List (κ × α)
  sorted : entries.Pairwise fun a b => a.1 < b.1

namespace Keyed

/-- Puts an entry under a key, in the place of the one that is there. -/
def put (t : Keyed κ α) (k : κ) (a : α) : Keyed κ α where
  entries := t.entries.filter (fun e => e.1 < k) ++ (k, a) :: t.entries.filter fun e => k < e.1
  sorted := by
    refine List.pairwise_append.mpr ⟨t.sorted.filter _, List.pairwise_cons.mpr
      ⟨fun e he => ?_, t.sorted.filter _⟩, fun e he e' he' => ?_⟩
    · exact of_decide_eq_true (List.mem_filter.mp he).2
    · have hlt : e.1 < k := of_decide_eq_true (List.mem_filter.mp he).2
      rcases List.mem_cons.mp he' with rfl | he'
      · exact hlt
      · exact hlt.trans (of_decide_eq_true (List.mem_filter.mp he').2)

/-- Puts entries one after the other. -/
def putAll (t : Keyed κ α) (l : List (κ × α)) : Keyed κ α := l.foldl (fun t e => t.put e.1 e.2) t

variable {t : Keyed κ α} {k : κ} {a b : α} {e : κ × α}

lemma mem_put : e ∈ (t.put k a).entries ↔ e = (k, a) ∨ (e ∈ t.entries ∧ e.1 ≠ k) := by
  simp only [put, mem_append, mem_filter, mem_cons, decide_eq_true_eq]
  constructor
  · rintro (⟨he, hlt⟩ | rfl | ⟨he, hlt⟩)
    · exact .inr ⟨he, hlt.ne⟩
    · exact .inl rfl
    · exact .inr ⟨he, hlt.ne'⟩
  · rintro (rfl | ⟨he, hne⟩)
    · exact .inr (.inl rfl)
    · exact (lt_or_gt_of_ne hne).imp (fun h => ⟨he, h⟩) fun h => .inr ⟨he, h⟩

lemma nodup_keys (t : Keyed κ α) : (t.entries.map Prod.fst).Nodup :=
  pairwise_map.2 (t.sorted.imp ne_of_lt)

lemma unique (ha : (k, a) ∈ t.entries) (hb : (k, b) ∈ t.entries) : a = b :=
  congrArg Prod.snd (inj_on_of_nodup_map t.nodup_keys ha hb rfl)

lemma mem_putAll {l : List (κ × α)} (hl : (l.map Prod.fst).Nodup) :
    e ∈ (t.putAll l).entries ↔ e ∈ l ∨ (e ∈ t.entries ∧ e.1 ∉ l.map Prod.fst) := by
  induction l generalizing t with
  | nil => simp [putAll]
  | cons x l ih =>
    rw [map_cons, nodup_cons] at hl
    have hstep : (t.putAll (x :: l)) = (t.put x.1 x.2).putAll l := rfl
    rw [hstep, ih hl.2, mem_put, mem_cons, map_cons, mem_cons, not_or]
    constructor
    · rintro (he | ⟨rfl | ⟨he, hne⟩, hout⟩)
      · exact .inl (.inr he)
      · exact .inl (.inl rfl)
      · exact .inr ⟨he, hne, hout⟩
    · rintro ((rfl | he) | ⟨he, hne, hout⟩)
      · exact .inr ⟨.inl rfl, hl.1⟩
      · exact .inl he
      · exact .inr ⟨.inr ⟨he, hne⟩, hout⟩

end Keyed

/-- Lists that rise by a key are told apart by their elements. -/
lemma eq_of_mem_iff {key : α → κ} {l m : List α} (hl : l.Pairwise fun a b => key a < key b)
    (hm : m.Pairwise fun a b => key a < key b) (h : ∀ a, a ∈ l ↔ a ∈ m) : l = m := by
  have hnodup : ∀ {l : List α}, (l.Pairwise fun a b => key a < key b) → l.Nodup := fun hl =>
    hl.imp fun hab heq => absurd (congrArg key heq) hab.ne
  refine Perm.eq_of_pairwise (fun a b _ _ hab hba => absurd (hab.trans hba) (lt_irrefl _))
    hl hm ((perm_ext_iff_of_nodup (hnodup hl) (hnodup hm)).2 h)

section Zipped

variable {β γ κ' : Type*} {f : α → β → γ} {ka : α → κ'} {kb : β → κ'}

/-- Lists with the same keys are zipped key by key. -/
lemma mem_zipWith_of_keys {l : List α} {m : List β} (h : m.map kb = l.map ka) {x : γ}
    (hx : x ∈ zipWith f l m) : ∃ a ∈ l, ∃ b ∈ m, kb b = ka a ∧ x = f a b := by
  induction l generalizing m with
  | nil => exact absurd hx (by simp)
  | cons a l ih =>
    cases m with
    | nil => exact absurd hx (by simp)
    | cons b m =>
      rw [map_cons, map_cons, cons.injEq] at h
      rw [zipWith_cons_cons, mem_cons] at hx
      rcases hx with rfl | hx
      · exact ⟨a, mem_cons_self, b, mem_cons_self, h.1, rfl⟩
      · obtain ⟨a', ha', b', hb', hkey, rfl⟩ := ih h.2 hx
        exact ⟨a', mem_cons_of_mem _ ha', b', mem_cons_of_mem _ hb', hkey, rfl⟩

lemma exists_mem_zipWith {l : List α} {m : List β} (h : m.map kb = l.map ka) {a : α}
    (ha : a ∈ l) : ∃ b ∈ m, kb b = ka a ∧ f a b ∈ zipWith f l m := by
  induction l generalizing m with
  | nil => exact absurd ha not_mem_nil
  | cons a' l ih =>
    cases m with
    | nil => exact absurd h nofun
    | cons b m =>
      rw [map_cons, map_cons, cons.injEq] at h
      rw [zipWith_cons_cons]
      rcases mem_cons.1 ha with rfl | ha
      · exact ⟨b, mem_cons_self, h.1, mem_cons_self⟩
      · obtain ⟨b', hb', hkey, hmem⟩ := ih h.2 ha
        exact ⟨b', mem_cons_of_mem _ hb', hkey, mem_cons_of_mem _ hmem⟩

end Zipped

end LibrePaper.Library
