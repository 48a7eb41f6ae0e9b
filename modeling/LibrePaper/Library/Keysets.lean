import LibrePaper.Library.Orders

/-!
# Walks over keys that change

A collection is read a page at a time, in the order of its keys. Each page serves the first keys
behind a cursor, and the next one begins behind what it served. Keys come and go between the pages.
What is there throughout is served once, and in order.
-/
namespace LibrePaper.Library.Keyset
open List

variable {κ : Type*} [LinearOrder κ]

/-- A page that was read: the keys stored then, those it served, and whether it was the last. -/
structure Page (κ : Type*) where
  stored : κ → Prop
  keys : List κ
  complete : Bool

/-- The page serves the first keys behind the cursor, and is the last when no more are there. -/
structure Serves (cursor : WithBot κ) (p : Page κ) : Prop where
  rising : p.keys.Pairwise (· < ·)
  stored : ∀ k ∈ p.keys, p.stored k ∧ cursor < k
  rest : ∀ k, p.stored k → cursor < k → k ∉ p.keys → p.complete = false ∧ ∀ j ∈ p.keys, j < k

/-- A cursor behind what a page served, and before what it left. -/
structure Continues (cursor : WithBot κ) (p : Page κ) (next : WithBot κ) : Prop where
  served : ∀ k ∈ p.keys, ↑k ≤ next
  left : ∀ k, p.stored k → cursor < k → k ∉ p.keys → next < k
  forward : cursor ≤ next

/-- Pages read one behind the other, up to the last one. -/
inductive Walked : WithBot κ → List (Page κ) → Prop
  | last {cursor : WithBot κ} {p : Page κ} :
      Serves cursor p → p.complete = true → Walked cursor [p]
  | more {cursor next : WithBot κ} {p : Page κ} {pages : List (Page κ)} :
      Serves cursor p → Continues cursor p next → Walked next pages → Walked cursor (p :: pages)

/-- All keys that a walk served. -/
def served (pages : List (Page κ)) : List κ := pages.flatMap Page.keys

variable {cursor next : WithBot κ} {pages : List (Page κ)}

/-- A walk serves keys in order, behind where it began. -/
lemma Walked.rising (h : Walked cursor pages) :
    (served pages).Pairwise (· < ·) ∧ ∀ k ∈ served pages, cursor < k := by
  induction h with
  | @last cursor p hserves _ =>
    rw [served, flatMap_singleton]
    exact ⟨hserves.rising, fun k hk => (hserves.stored k hk).2⟩
  | @more cursor next p pages hserves hcontinues _ ih =>
    obtain ⟨hrising, hbehind⟩ := ih
    rw [served, flatMap_cons]
    constructor
    · refine pairwise_append.2 ⟨hserves.rising, hrising, fun j hj k hk => ?_⟩
      exact WithBot.coe_lt_coe.1 ((hcontinues.served j hj).trans_lt (hbehind k hk))
    · intro k hk
      rcases mem_append.1 hk with hk | hk
      · exact (hserves.stored k hk).2
      · exact hcontinues.forward.trans_lt (hbehind k hk)

/-- What is stored throughout a walk is served. -/
lemma Walked.mem_served (h : Walked cursor pages) {k : κ} (hk : cursor < k)
    (hstored : ∀ p ∈ pages, p.stored k) : k ∈ served pages := by
  induction h with
  | @last cursor p hserves hcomplete =>
    rw [served, flatMap_singleton]
    by_contra hno
    have hopen := (hserves.rest k (hstored p mem_cons_self) hk hno).1
    exact Bool.false_ne_true (hopen.symm.trans hcomplete)
  | @more cursor next p pages hserves hcontinues _ ih =>
    rw [served, flatMap_cons]
    by_cases hin : k ∈ p.keys
    · exact mem_append_left _ hin
    · refine mem_append_right _ (ih ?_ fun q hq => hstored q (mem_cons_of_mem p hq))
      exact hcontinues.left k (hstored p mem_cons_self) hk hin

/-- Every key of a walk was stored when its page was read. -/
lemma Walked.was_stored (h : Walked cursor pages) {k : κ} (hk : k ∈ served pages) :
    ∃ p ∈ pages, p.stored k := by
  induction h with
  | @last cursor p hserves _ =>
    rw [served, flatMap_singleton] at hk
    exact ⟨p, mem_cons_self, (hserves.stored k hk).1⟩
  | @more cursor next p pages hserves _ _ ih =>
    rw [served, flatMap_cons] at hk
    rcases mem_append.1 hk with hk | hk
    · exact ⟨p, mem_cons_self, (hserves.stored k hk).1⟩
    · obtain ⟨q, hq, hstored⟩ := ih hk
      exact ⟨q, mem_cons_of_mem p hq, hstored⟩

section Prefixes

variable {rest : List κ} {stored : κ → Prop} {n : ℕ} {complete : Bool}

/-- The first keys of what is stored behind the cursor make a page. -/
lemma serves_take (hrising : rest.Pairwise (· < ·))
    (hrest : ∀ k, k ∈ rest ↔ stored k ∧ cursor < k)
    (hcomplete : complete = true → rest.length ≤ n) :
    Serves cursor ⟨stored, rest.take n, complete⟩ := by
  refine ⟨hrising.sublist (take_sublist n rest),
    fun k hk => (hrest k).1 (mem_of_mem_take hk),
    fun k hk hcursor hno => ⟨?_, fun j hj => ?_⟩⟩
  · by_contra htrue
    refine hno ?_
    rw [take_of_length_le (hcomplete (Bool.eq_true_of_not_eq_false htrue))]
    exact (hrest k).2 ⟨hk, hcursor⟩
  · have hin : k ∈ rest := (hrest k).2 ⟨hk, hcursor⟩
    rw [← take_append_drop n rest] at hin hrising
    exact (pairwise_append.1 hrising).2.2 j hj k ((mem_append.1 hin).resolve_left hno)

/-- The last key of a page is where the next one begins. -/
lemma continues_last (hrising : rest.Pairwise (· < ·))
    (hrest : ∀ k, k ∈ rest ↔ stored k ∧ cursor < k) {last : κ}
    (hlast : (rest.take n).getLast? = some last) :
    Continues cursor ⟨stored, rest.take n, complete⟩ last := by
  have hmem : last ∈ rest.take n := mem_of_getLast? hlast
  obtain ⟨keys, hkeys⟩ := getLast?_eq_some_iff.1 hlast
  refine ⟨fun k hk => ?_, fun k hk hcursor hno => ?_, ?_⟩
  · have hsorted := hrising.sublist (take_sublist n rest)
    rw [hkeys] at hk hsorted
    rcases mem_append.1 hk with hk | hk
    · exact WithBot.coe_le_coe.2
        ((pairwise_append.1 hsorted).2.2 k hk last (mem_singleton_self last)).le
    · rw [mem_singleton.1 hk]
  · have hin : k ∈ rest := (hrest k).2 ⟨hk, hcursor⟩
    rw [← take_append_drop n rest] at hin hrising
    exact WithBot.coe_lt_coe.2 ((pairwise_append.1 hrising).2.2 last hmem k
      ((mem_append.1 hin).resolve_left hno))
  · exact ((hrest last).1 (mem_of_mem_take hmem)).2.le

end Prefixes

end LibrePaper.Library.Keyset
