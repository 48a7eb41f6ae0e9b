import Mathlib

/-!
# Records nested in records

A record consists of parts: pieces of its own, and other records in their places. It is expanded
once, where it is met first. Without cycles every record is expanded at the least of the outermost
records that it can be reached from.
-/
namespace LibrePaper.Library
open List

variable {κ β : Type*}

/-- A part of a record: a piece of its own, or another record. -/
inductive Part (κ β : Type*)
  | own (piece : β)
  | ref (id : κ)
deriving DecidableEq

/-- The piece of a part. -/
def Part.piece? : Part κ β → Option β
  | own b => some b
  | ref _ => none

section Shut

variable {S : κ → κ → Prop}

/-- Everything that a record refers to has been visited. -/
def Shut (S : κ → κ → Prop) (visited : List κ) (x : κ) : Prop := ∀ y, S x y → y ∈ visited

variable {visited : List κ}

lemma Shut.mono {visited' : List κ} {x : κ} (h : Shut S visited x) (hsub : visited ⊆ visited') :
    Shut S visited' x := fun y hy => hsub (h y hy)

/-- Everything that can be reached from a visited record has been visited. -/
lemma Shut.reaches (h : ∀ x ∈ visited, Shut S visited x) {a b : κ} (ha : a ∈ visited)
    (hab : Relation.ReflTransGen S a b) : b ∈ visited := by
  induction hab with
  | refl => exact ha
  | tail _ hbc ih => exact h _ ih _ hbc

end Shut

section Leaders

/-- The least of the outermost records that a record can be reached from. -/
structure Leads [LT κ] (S : κ → κ → Prop) (c y : κ) : Prop where
  outermost : ∀ a, ¬ S a y
  reach : Relation.ReflTransGen S y c
  least : ∀ z, (∀ a, ¬ S a z) → Relation.ReflTransGen S z c → ¬ z < y

variable {s : Set κ}

lemma founded_of_acyclic {S : κ → κ → Prop} (hs : s.Finite) (hS : ∀ a b, S a b → a ∈ s)
    (hacyclic : ∀ a, ¬ Relation.TransGen S a a) : WellFounded S := by
  have hstrict : IsStrictOrder κ (Relation.TransGen S) := {
    irrefl := hacyclic
    trans := fun _ _ _ => Relation.TransGen.trans }
  have hin : ∀ a, a ∈ s → Acc S a := by
    have hfounded := Set.wellFoundedOn_iff.1 (hs.wellFoundedOn (r := Relation.TransGen S))
    intro a
    induction a using hfounded.induction with
    | h a ih => exact fun ha => ⟨a, fun b hb => ih b ⟨.single hb, hS b a hb, ha⟩ (hS b a hb)⟩
  exact ⟨fun a => ⟨a, fun b hb => hin b (hS b a hb)⟩⟩

variable [LinearOrder κ] {S : κ → κ → Prop} {c y z : κ}

lemma Leads.unique (h : Leads S c y) (h' : Leads S c z) : y = z :=
  le_antisymm (not_lt.1 (h.least z h'.outermost h'.reach))
    (not_lt.1 (h'.least y h.outermost h.reach))

/-- Everything between a record and the one that leads it has the same one. -/
lemma Leads.between (h : Leads S c y) {b : κ} (hyb : Relation.ReflTransGen S y b)
    (hbc : Relation.ReflTransGen S b c) : Leads S b y where
  outermost := h.outermost
  reach := hyb
  least w hw hwb := h.least w hw (hwb.trans hbc)

omit [LinearOrder κ] in
lemma exists_outermost (hS : WellFounded S) (c : κ) :
    ∃ y, (∀ a, ¬ S a y) ∧ Relation.ReflTransGen S y c := by
  induction c using hS.induction with
  | h c ih =>
    by_cases hc : ∃ a, S a c
    · obtain ⟨a, ha⟩ := hc
      obtain ⟨y, hy, hya⟩ := ih a ha
      exact ⟨y, hy, hya.tail ha⟩
    · exact ⟨c, fun a ha => hc ⟨a, ha⟩, .refl⟩

lemma exists_leads (hS : WellFounded S) (hs : s.Finite) (hsub : ∀ a b, S a b → a ∈ s) (c : κ) :
    ∃ y, Leads S c y := by
  let roots : Set κ := {y | (∀ a, ¬ S a y) ∧ Relation.ReflTransGen S y c}
  have hfin : roots.Finite := (hs.insert c).subset fun y hy => by
    rcases hy.2.cases_head with rfl | ⟨b, hyb, -⟩
    · exact Set.mem_insert _ _
    · exact Set.mem_insert_of_mem _ (hsub y b hyb)
  obtain ⟨y, hy, hmin⟩ := Set.exists_min_image roots id hfin (exists_outermost hS c)
  exact ⟨y, hy.1, hy.2, fun z hz hzc => not_lt.2 (hmin z ⟨hz, hzc⟩)⟩

/-- The references between the records that `z` does not lead. -/
def Without (S : κ → κ → Prop) (z a b : κ) : Prop := S a b ∧ ¬ Leads S a z ∧ ¬ Leads S b z

lemma Without.reach (h : Relation.ReflTransGen (Without S z) y c) :
    Relation.ReflTransGen S y c := Relation.ReflTransGen.mono (fun _ _ hab => hab.1) _ _ h

lemma Leads.without (hc : ¬ Leads S c z) (h : Leads S c y) (hS : WellFounded S) (hs : s.Finite)
    (hsub : ∀ a b, S a b → a ∈ s) : Leads (Without S z) c y where
  outermost a ha := h.outermost a ha.1
  reach := by
    have hne : y ≠ z := fun heq => hc (heq ▸ h)
    have hreach := h.reach
    clear hc
    induction hreach with
    | refl => exact .refl
    | tail hyb hbc ih =>
      have hb := h.between hyb (.single hbc)
      exact (ih hb).tail ⟨hbc, fun hbz => hne (hb.unique hbz), fun hcz => hne (h.unique hcz)⟩
  least w hw hwc := by
    by_cases hroot : ∀ a, ¬ S a w
    · exact h.least w hroot (Without.reach hwc)
    · exfalso
      have hwz : ¬ Leads S w z := by
        rcases hwc.cases_head with rfl | ⟨b, hwb, -⟩
        · exact hc
        · exact hwb.2.1
      obtain ⟨l, hl⟩ := exists_leads hS hs hsub w
      rcases hl.reach.cases_tail with heq | ⟨a, hla, haw⟩
      · exact hroot fun a ha => hl.outermost a (heq ▸ ha)
      · by_cases haz : Leads S a z
        · obtain rfl := (hl.between hla (.single haw)).unique haz
          exact hwz hl
        · exact hw a ⟨haw, haz, hwz⟩

/-- A record keeps the one that leads it when the records of another one go. -/
lemma leads_without_iff (hc : ¬ Leads S c z) (hS : WellFounded S) (hs : s.Finite)
    (hsub : ∀ a b, S a b → a ∈ s) : Leads (Without S z) c y ↔ Leads S c y := by
  refine ⟨fun h => ?_, fun h => h.without hc hS hs hsub⟩
  obtain ⟨l, hl⟩ := exists_leads hS hs hsub c
  exact h.unique (hl.without hc hS hs hsub) ▸ hl

end Leaders

section Expansion

variable [DecidableEq κ] (parts : κ → Option (List (Part κ β)))

/-- The pieces of a list of parts of the record `id`, in order. `expand` expands a record. -/
def expandParts (expand : κ → List κ → List (κ × β) × List κ) (id : κ) :
    List (Part κ β) → List κ → List (κ × β) × List κ
  | [], visited => ([], visited)
  | .own b :: l, visited =>
    ((id, b) :: (expandParts expand id l visited).1, (expandParts expand id l visited).2)
  | .ref p :: l, visited =>
    ((expand p visited).1 ++ (expandParts expand id l (expand p visited).2).1,
      (expandParts expand id l (expand p visited).2).2)

/-- The pieces of a record that has not been visited, with their owners. -/
def expandOnce : ℕ → κ → List κ → List (κ × β) × List κ
  | 0, _, visited => ([], visited)
  | n + 1, id, visited =>
    match parts id with
    | none => ([], visited)
    | some l => if id ∈ visited then ([], visited)
      else expandParts (expandOnce n) id l (id :: visited)

/-- Expands records one after the other. A skipped one has no pieces. -/
def expandEach (skip : κ → Bool) (n : ℕ) : List κ → List κ → List (κ × List (κ × β))
  | [], _ => []
  | id :: ids, visited =>
    if skip id then (id, []) :: expandEach skip n ids visited
    else (id, (expandOnce parts n id visited).1) ::
      expandEach skip n ids (expandOnce parts n id visited).2

/-- The pieces with one owner. -/
def ownedBy (c : κ) (pieces : List (κ × β)) : List β :=
  (pieces.filter fun p => p.1 = c).map Prod.snd

/-- The pieces of a record itself. -/
def ownPieces (c : κ) : List β := ((parts c).getD []).filterMap Part.piece?

/-- A record holds another one. -/
def Holds (a b : κ) : Prop := ∃ l, parts a = some l ∧ .ref b ∈ l ∧ (parts b).isSome

lemma ownedBy_append (c : κ) (l m : List (κ × β)) :
    ownedBy c (l ++ m) = ownedBy c l ++ ownedBy c m := by
  rw [ownedBy, filter_append, map_append]
  rfl

lemma ownedBy_cons_self (c : κ) (b : β) (l : List (κ × β)) :
    ownedBy c ((c, b) :: l) = b :: ownedBy c l := by
  simp [ownedBy]

lemma ownedBy_cons_of_ne {c id : κ} (h : id ≠ c) (b : β) (l : List (κ × β)) :
    ownedBy c ((id, b) :: l) = ownedBy c l := by
  simp [ownedBy, h]

/-- What a step adds: records that are visited for the first time, each with all its pieces. -/
structure Grows (visited new : List κ) (r : List (κ × β) × List κ) : Prop where
  grown : r.2 = new ++ visited
  fresh : ∀ c ∈ new, c ∉ visited
  nodup : new.Nodup
  owned : ∀ c ∈ new, ownedBy c r.1 = ownPieces parts c
  other : ∀ c, c ∉ new → ownedBy c r.1 = []

variable {parts} {id : κ} {visited new : List κ} {r : List (κ × β) × List κ}
  {expand : κ → List κ → List (κ × β) × List κ}

lemma Grows.nil (visited : List κ) : Grows parts visited [] ([], visited) where
  grown := rfl
  fresh := nofun
  nodup := nodup_nil
  owned := nofun
  other _ _ := rfl

lemma Grows.subset (h : Grows parts visited new r) : visited ⊆ r.2 := by
  rw [h.grown]
  exact subset_append_right new visited

lemma Grows.mem_new (h : Grows parts visited new r) {c : κ} :
    c ∈ new ↔ c ∈ r.2 ∧ c ∉ visited := by
  rw [h.grown, mem_append]
  exact ⟨fun hc => ⟨.inl hc, h.fresh c hc⟩, fun hc => hc.1.resolve_right hc.2⟩

/-- A list of parts adds what its records add, and the pieces of its own record. -/
lemma expandParts_grows
    (hexpand : ∀ p visited, ∃ new, Grows parts visited new (expand p visited) ∧
      ∀ c ∈ new, (parts p).isSome ∧ Relation.ReflTransGen (Holds parts) p c)
    (l : List (Part κ β)) (hid : id ∈ visited) :
    ∃ new, (expandParts expand id l visited).2 = new ++ visited ∧ (∀ c ∈ new, c ∉ visited) ∧
      new.Nodup ∧
      (∀ c ∈ new, ownedBy c (expandParts expand id l visited).1 = ownPieces parts c) ∧
      (∀ c, c ∉ new → c ≠ id → ownedBy c (expandParts expand id l visited).1 = []) ∧
      ownedBy id (expandParts expand id l visited).1 = l.filterMap Part.piece? ∧
      ∀ c ∈ new, ∃ p, .ref p ∈ l ∧ (parts p).isSome ∧ Relation.ReflTransGen (Holds parts) p c := by
  induction l generalizing visited with
  | nil => exact ⟨[], rfl, nofun, nodup_nil, nofun, fun _ _ _ => rfl, rfl, nofun⟩
  | cons part l ih =>
    cases part with
    | own b =>
      obtain ⟨new, hvisited, hfresh, hnodup, howned, hother, hown, hreach⟩ := ih hid
      have hne : ∀ c ∈ new, id ≠ c := fun c hc hidc => hfresh c hc (hidc ▸ hid)
      refine ⟨new, hvisited, hfresh, hnodup, fun c hc => ?_, fun c hc hcid => ?_, ?_,
        fun c hc => ?_⟩
      · rw [expandParts, ownedBy_cons_of_ne (hne c hc), howned c hc]
      · rw [expandParts, ownedBy_cons_of_ne hcid.symm, hother c hc hcid]
      · rw [expandParts, ownedBy_cons_self, hown]
        rfl
      · obtain ⟨p, hp, hrest⟩ := hreach c hc
        exact ⟨p, mem_cons_of_mem _ hp, hrest⟩
    | ref p =>
      obtain ⟨first, hfirst, hfirstReach⟩ := hexpand p visited
      have hid' := hfirst.subset hid
      obtain ⟨new, hvisited, hfresh, hnodup, howned, hother, hown, hreach⟩ := ih hid'
      have hapart : ∀ c ∈ new, c ∉ first := fun c hc hc' => by
        refine hfresh c hc ?_
        rw [hfirst.grown]
        exact mem_append_left _ hc'
      have hidFirst : id ∉ first := fun h => hfirst.fresh id h hid
      refine ⟨new ++ first, ?_, fun c hc => ?_, ?_, fun c hc => ?_, fun c hc hcid => ?_, ?_,
        fun c hc => ?_⟩
      · rw [expandParts, hvisited, hfirst.grown, append_assoc]
      · rcases mem_append.1 hc with hc | hc
        · exact fun hv => hfresh c hc (hfirst.subset hv)
        · exact hfirst.fresh c hc
      · exact nodup_append.2 ⟨hnodup, hfirst.nodup, fun c hc c' hc' heq =>
          hapart c hc (heq ▸ hc')⟩
      · rw [expandParts, ownedBy_append]
        rcases mem_append.1 hc with hc | hc
        · rw [hfirst.other c (hapart c hc), howned c hc, nil_append]
        · rw [hfirst.owned c hc, hother c (fun h => hapart c h hc)
            (fun h => hidFirst (h ▸ hc)), append_nil]
      · rw [mem_append, not_or] at hc
        rw [expandParts, ownedBy_append, hfirst.other c hc.2, hother c hc.1 hcid, append_nil]
      · rw [expandParts, ownedBy_append, hfirst.other id hidFirst, hown, nil_append]
        rfl
      · rcases mem_append.1 hc with hc | hc
        · obtain ⟨q, hq, hrest⟩ := hreach c hc
          exact ⟨q, mem_cons_of_mem _ hq, hrest⟩
        · exact ⟨p, mem_cons_self, hfirstReach c hc⟩

/-- Expanding a record adds records that it holds, at any depth. -/
lemma expandOnce_grows (n : ℕ) (id : κ) (visited : List κ) :
    ∃ new, Grows parts visited new (expandOnce parts n id visited) ∧
      ∀ c ∈ new, (parts id).isSome ∧ Relation.ReflTransGen (Holds parts) id c := by
  induction n generalizing id visited with
  | zero => exact ⟨[], .nil visited, nofun⟩
  | succ n ih =>
    rw [expandOnce]
    split
    · exact ⟨[], .nil visited, nofun⟩
    next l hl =>
      split
      · exact ⟨[], .nil visited, nofun⟩
      next hid =>
        obtain ⟨new, hvisited, hfresh, hnodup, howned, hother, hown, hreach⟩ :=
          expandParts_grows ih l (mem_cons_self : id ∈ id :: visited)
        have hidNew : id ∉ new := fun h => hfresh id h mem_cons_self
        have hsome : (parts id).isSome := by rw [hl]; rfl
        refine ⟨new ++ [id], ?_, fun c hc => ?_⟩
        · exact {
            grown := by rw [hvisited, append_assoc, singleton_append]
            fresh := fun c hc => by
              rcases mem_append.1 hc with hc | hc
              · exact fun hv => hfresh c hc (mem_cons_of_mem _ hv)
              · exact mem_singleton.1 hc ▸ hid
            nodup := nodup_append.2 ⟨hnodup, nodup_singleton id,
              fun c hc c' hc' heq => hidNew ((mem_singleton.1 hc') ▸ heq ▸ hc)⟩
            owned := fun c hc => by
              rcases mem_append.1 hc with hc | hc
              · exact howned c hc
              · rw [mem_singleton.1 hc, hown, ownPieces, hl, Option.getD_some]
            other := fun c hc => by
              rw [mem_append, not_or, mem_singleton] at hc
              exact hother c hc.1 hc.2 }
        · rcases mem_append.1 hc with hc | hc
          · obtain ⟨p, hp, hsomep, hpc⟩ := hreach c hc
            exact ⟨hsome, .head ⟨l, hl, hp, hsomep⟩ hpc⟩
          · rw [mem_singleton.1 hc]
            exact ⟨hsome, .refl⟩

section Complete

variable {S : κ → κ → Prop}

/-- A relation between records that the parts follow: what a record refers to is one of its
parts, or is referred to by something that the record refers to. -/
structure Follows (parts : κ → Option (List (Part κ β))) (S : κ → κ → Prop) (all : Finset κ) :
    Prop where
  sound : ∀ a b, Holds parts a b → S a b
  complete : ∀ a b, S a b → Holds parts a b ∨ ∃ q, S a q ∧ S q b
  listed : ∀ a, (parts a).isSome → a ∈ all
  founded : WellFounded S

variable {all : Finset κ} {n : ℕ}

/-- Before the record `id` is expanded, the visited records are shut, or lead to it. -/
def Ready (S : κ → κ → Prop) (visited : List κ) (id : κ) : Prop :=
  ∀ x ∈ visited, Shut S visited x ∨ Relation.TransGen S x id

lemma card_sdiff_mono {visited' : List κ} (h : visited ⊆ visited') :
    (all \ visited'.toFinset).card ≤ (all \ visited.toFinset).card :=
  Finset.card_le_card (Finset.sdiff_subset_sdiff le_rfl fun x hx => by
    rw [mem_toFinset] at hx ⊢
    exact h hx)

lemma card_sdiff_cons (hall : id ∈ all) (hid : id ∉ visited) :
    (all \ (id :: visited).toFinset).card < (all \ visited.toFinset).card := by
  rw [toFinset_cons, Finset.sdiff_insert]
  refine Finset.card_erase_lt_of_mem (Finset.mem_sdiff.2 ⟨hall, ?_⟩)
  rwa [mem_toFinset]

/-- What the records of a list of parts lead to is visited, when their own expansions visit it. -/
lemma expandParts_shut
    (hexpand : ∀ p visited, ∃ new, Grows parts visited new (expand p visited) ∧
      ∀ c ∈ new, (parts p).isSome ∧ Relation.ReflTransGen (Holds parts) p c)
    (hshut : ∀ p visited, (parts p).isSome → (all \ visited.toFinset).card < n →
      Ready S visited p → p ∈ (expand p visited).2 ∧
        ∀ x ∈ (expand p visited).2, x ∉ visited → Shut S (expand p visited).2 x)
    (hnone : ∀ p visited, (parts p).isSome = false → expand p visited = ([], visited))
    (l : List (Part κ β)) (hl : ∀ p, .ref p ∈ l → (parts p).isSome → S id p)
    (hn : (all \ visited.toFinset).card < n)
    (hready : ∀ x ∈ visited, Shut S visited x ∨ Relation.TransGen S x id ∨ x = id) :
    visited ⊆ (expandParts expand id l visited).2 ∧
      (∀ p, .ref p ∈ l → (parts p).isSome → p ∈ (expandParts expand id l visited).2) ∧
      ∀ x ∈ (expandParts expand id l visited).2, x ∉ visited →
        Shut S (expandParts expand id l visited).2 x := by
  induction l generalizing visited with
  | nil => exact ⟨Subset.refl _, nofun, fun _ hx => absurd hx⟩
  | cons part l ih =>
    cases part with
    | own b =>
      obtain ⟨hsub, hrefs, hnew⟩ := ih (fun p hp => hl p (mem_cons_of_mem _ hp)) hn hready
      refine ⟨hsub, fun p hp hsome => hrefs p ?_ hsome, hnew⟩
      exact (mem_cons.1 hp).resolve_left nofun
    | ref p =>
      rw [expandParts]
      dsimp only
      obtain ⟨first, hfirst, -⟩ := hexpand p visited
      have hstep : ((parts p).isSome → p ∈ (expand p visited).2) ∧
          ∀ x ∈ (expand p visited).2, x ∉ visited → Shut S (expand p visited).2 x := by
        by_cases hsome : (parts p).isSome = true
        · have hSp := hl p mem_cons_self hsome
          obtain ⟨hmem, hnew⟩ := hshut p visited hsome hn fun x hx =>
            (hready x hx).imp_right fun h => h.elim (fun h => h.tail hSp) fun h => h ▸ .single hSp
          exact ⟨fun _ => hmem, hnew⟩
        · rw [hnone p visited (Bool.eq_false_iff.2 hsome)]
          exact ⟨fun h => absurd h hsome, fun _ hx => absurd hx⟩
      obtain ⟨hsub, hrefs, hnew⟩ := ih (fun q hq => hl q (mem_cons_of_mem _ hq))
        ((card_sdiff_mono hfirst.subset).trans_lt hn) fun x hx => by
          by_cases hv : x ∈ visited
          · exact (hready x hv).imp_left fun h => h.mono hfirst.subset
          · exact .inl (hstep.2 x hx hv)
      refine ⟨Subset.trans hfirst.subset hsub, fun q hq hsome => ?_, fun x hx hxv => ?_⟩
      · rcases mem_cons.1 hq with heq | hq
        · obtain rfl : q = p := Part.ref.inj heq
          exact hsub (hstep.1 hsome)
        · exact hrefs q hq hsome
      · by_cases hx' : x ∈ (expand p visited).2
        · exact (hstep.2 x hx' hxv).mono hsub
        · exact hnew x hx hx'

lemma expandOnce_none (hid : (parts id).isSome = false) (n : ℕ) (visited : List κ) :
    expandOnce parts n id visited = ([], visited) := by
  cases n with
  | zero => rfl
  | succ n =>
    rw [expandOnce]
    split
    · rfl
    next l hl =>
      rw [hl] at hid
      exact absurd hid nofun

/-- Expanding a record visits it and everything that it refers to. -/
lemma expandOnce_shut (h : Follows parts S all) (hsome : (parts id).isSome)
    (hn : (all \ visited.toFinset).card < n) (hready : Ready S visited id) :
    id ∈ (expandOnce parts n id visited).2 ∧
      ∀ x ∈ (expandOnce parts n id visited).2, x ∉ visited →
        Shut S (expandOnce parts n id visited).2 x := by
  induction n generalizing id visited with
  | zero => exact absurd hn (Nat.not_lt_zero _)
  | succ n ih =>
    rw [expandOnce]
    split
    next hnone =>
      rw [hnone] at hsome
      exact absurd hsome nofun
    next l hl =>
      split
      next hid => exact ⟨hid, fun _ hx => absurd hx⟩
      next hid =>
        have hcard := card_sdiff_cons (h.listed id hsome) hid
        have hrefs : ∀ p, Part.ref p ∈ l → (parts p).isSome → S id p := fun p hp hp' =>
          h.sound id p ⟨l, hl, hp, hp'⟩
        obtain ⟨hsub, hmem, hnew⟩ := expandParts_shut (S := S) (n := n)
          (expandOnce_grows n) (fun _ _ hp hn => ih hp hn)
          (fun p visited hp => expandOnce_none hp n visited) l hrefs
          (by omega : (all \ (id :: visited).toFinset).card < n) fun x hx => by
            rcases mem_cons.1 hx with rfl | hx
            · exact .inr (.inr rfl)
            · exact (hready x hx).imp (fun h => h.mono (subset_cons_self id visited))
                .inl
        refine ⟨hsub mem_cons_self, fun x hx hxv => ?_⟩
        by_cases hxid : x = id
        · subst hxid
          intro y
          induction y using h.founded.induction with
          | h y ihy =>
            intro hy
            rcases h.complete x y hy with ⟨l', hl', hpart, hsomey⟩ | ⟨q, hxq, hqy⟩
            · rw [hl, Option.some.injEq] at hl'
              exact hmem y (hl' ▸ hpart) hsomey
            · have hq := ihy q hqy hxq
              by_cases hqv : q ∈ x :: visited
              · rcases mem_cons.1 hqv with rfl | hqv
                · exact absurd hxq (h.founded.irrefl.irrefl q)
                · rcases hready q hqv with hshut | hback
                  · exact hsub (mem_cons_of_mem _ (hshut y hqy))
                  · exact absurd (hback.tail hxq) (h.founded.transGen.irrefl.irrefl q)
              · exact hnew q hq hqv y hqy
        · exact hnew x hx fun hmem => (mem_cons.1 hmem).elim hxid hxv

variable {skip : κ → Bool} {ids : List κ}

lemma expandEach_keys (skip : κ → Bool) (n : ℕ) (ids visited : List κ) :
    (expandEach parts skip n ids visited).map Prod.fst = ids := by
  induction ids generalizing visited with
  | nil => rfl
  | cons id ids ih =>
    rw [expandEach]
    split <;> rw [map_cons, ih]

variable {b : β}

lemma mem_ownedBy {c : κ} {pieces : List (κ × β)} : b ∈ ownedBy c pieces ↔ (c, b) ∈ pieces := by
  simp [ownedBy]

/-- A piece is one of its owner. -/
lemma mem_expandEach {e : κ × List (κ × β)} (he : e ∈ expandEach parts skip n ids visited) {c : κ}
    (hb : (c, b) ∈ e.2) : b ∈ ownPieces parts c := by
  induction ids generalizing visited with
  | nil => exact absurd he not_mem_nil
  | cons id ids ih =>
    rw [expandEach] at he
    split at he
    · rcases mem_cons.1 he with rfl | he
      · exact absurd hb not_mem_nil
      · exact ih he
    · rcases mem_cons.1 he with rfl | he
      · obtain ⟨new, hgrows, -⟩ := expandOnce_grows n id visited
        have hown := mem_ownedBy.2 hb
        by_cases hc : c ∈ new
        · exact hgrows.owned c hc ▸ hown
        · rw [hgrows.other c hc] at hown
          exact absurd hown not_mem_nil
      · exact ih he

/-- Expanding a record visits exactly what it refers to, and what was visited. -/
lemma mem_expandOnce (h : Follows parts S all) (hsome : (parts id).isSome)
    (hn : all.card < n) (hshut : ∀ x ∈ visited, Shut S visited x) (c : κ) :
    c ∈ (expandOnce parts n id visited).2 ↔ c ∈ visited ∨ Relation.ReflTransGen S id c := by
  obtain ⟨new, hgrows, hreach⟩ := expandOnce_grows n id visited
  obtain ⟨hmem, hnew⟩ := expandOnce_shut h hsome
    ((Finset.card_le_card Finset.sdiff_subset).trans_lt hn) fun x hx => .inl (hshut x hx)
  have hall : ∀ x ∈ (expandOnce parts n id visited).2,
      Shut S (expandOnce parts n id visited).2 x := fun x hx => by
    by_cases hv : x ∈ visited
    · exact (hshut x hv).mono hgrows.subset
    · exact hnew x hx hv
  constructor
  · intro hc
    by_cases hv : c ∈ visited
    · exact .inl hv
    · exact .inr (Relation.ReflTransGen.mono h.sound _ _
        (hreach c (hgrows.mem_new.2 ⟨hc, hv⟩)).2)
  · rintro (hc | hc)
    · exact hgrows.subset hc
    · exact Shut.reaches hall hmem hc

variable [PartialOrder κ]

/-- Where records are expanded one after the other, each is expanded where it is reached first. -/
lemma owned_expandEach (h : Follows parts S all) (hn : all.card < n)
    (hids : ids.Pairwise (· < ·)) (hsome : ∀ id ∈ ids, (parts id).isSome)
    (hshut : ∀ x ∈ visited, Shut S visited x) {e : κ × List (κ × β)}
    (he : e ∈ expandEach parts skip n ids visited) (c : κ) :
    (skip e.1 = false → Relation.ReflTransGen S e.1 c → c ∉ visited →
      (∀ z ∈ ids, z < e.1 → skip z = false → ¬ Relation.ReflTransGen S z c) →
      ownedBy c e.2 = ownPieces parts c) ∧
    (ownedBy c e.2 ≠ [] → skip e.1 = false ∧ Relation.ReflTransGen S e.1 c ∧ c ∉ visited ∧
      ∀ z ∈ ids, z < e.1 → skip z = false → ¬ Relation.ReflTransGen S z c) := by
  induction ids generalizing visited with
  | nil => exact absurd he not_mem_nil
  | cons id ids ih =>
    obtain ⟨hfirst, hids⟩ := pairwise_cons.1 hids
    have hsome' : ∀ id ∈ ids, (parts id).isSome := fun x hx => hsome x (mem_cons_of_mem _ hx)
    have hlater : ∀ visited', e ∈ expandEach parts skip n ids visited' → id < e.1 :=
      fun visited' he' => hfirst _ (by
        rw [← expandEach_keys skip n ids visited']
        exact mem_map_of_mem he')
    have hhead : ∀ z ∈ id :: ids, z < id → skip z = false → ¬ Relation.ReflTransGen S z c :=
      fun z hz hlt => by
        rcases mem_cons.1 hz with rfl | hz
        · exact absurd hlt (lt_irrefl _)
        · exact absurd (hlt.trans (hfirst z hz)) (lt_irrefl _)
    rw [expandEach] at he
    split at he
    next hskip =>
      rcases mem_cons.1 he with rfl | he
      · exact ⟨fun hno => absurd (hskip.symm.trans hno) nofun, absurd rfl⟩
      · obtain ⟨hpos, hneg⟩ := ih hids hsome' hshut he
        refine ⟨fun hno hreach hv hz => hpos hno hreach hv fun z hz' =>
          hz z (mem_cons_of_mem _ hz'), fun hne => ?_⟩
        obtain ⟨hno, hreach, hv, hz⟩ := hneg hne
        refine ⟨hno, hreach, hv, fun z hz' hlt hskipz => ?_⟩
        rcases mem_cons.1 hz' with rfl | hz'
        · exact absurd (hskip.symm.trans hskipz) nofun
        · exact hz z hz' hlt hskipz
    next hskip =>
      have hskip : skip id = false := Bool.eq_false_iff.2 hskip
      obtain ⟨new, hgrows, -⟩ := expandOnce_grows n id visited
      have hmem := mem_expandOnce h (hsome id mem_cons_self) hn hshut
      have hnew : ∀ c, c ∈ new ↔ Relation.ReflTransGen S id c ∧ c ∉ visited := fun c => by
        rw [hgrows.mem_new, hmem c]
        exact ⟨fun hc => ⟨hc.1.resolve_left hc.2, hc.2⟩, fun hc => ⟨.inr hc.1, hc.2⟩⟩
      rcases mem_cons.1 he with rfl | he
      · refine ⟨fun _ hreach hv _ => hgrows.owned c ((hnew c).2 ⟨hreach, hv⟩), fun hne => ?_⟩
        have hc : c ∈ new := by
          by_contra hno
          exact hne (hgrows.other c hno)
        obtain ⟨hreach, hv⟩ := (hnew c).1 hc
        exact ⟨hskip, hreach, hv, hhead⟩
      · have hshut' : ∀ x ∈ (expandOnce parts n id visited).2,
            Shut S (expandOnce parts n id visited).2 x := fun x hx y hxy => by
          rw [hmem] at hx ⊢
          rcases hx with hx | hx
          · exact .inl (hshut x hx y hxy)
          · exact .inr (hx.tail hxy)
        obtain ⟨hpos, hneg⟩ := ih hids hsome' hshut' he
        refine ⟨fun hno hreach hv hz => hpos hno hreach (fun hv' => ?_) fun z hz' =>
          hz z (mem_cons_of_mem _ hz'), fun hne => ?_⟩
        · rcases (hmem c).1 hv' with hv' | hv'
          · exact hv hv'
          · exact hz id mem_cons_self (hlater _ he) hskip hv'
        · obtain ⟨hno, hreach, hv, hz⟩ := hneg hne
          rw [hmem, not_or] at hv
          refine ⟨hno, hreach, hv.1, fun z hz' hlt hskipz => ?_⟩
          rcases mem_cons.1 hz' with rfl | hz'
          · exact hv.2
          · exact hz z hz' hlt hskipz

/-- A record is expanded at the one that leads it. -/
lemma expandEach_leads (h : Follows parts S all) (hn : all.card < n)
    (hids : ids.Pairwise (· < ·)) (hsome : ∀ id, id ∈ ids ↔ (parts id).isSome)
    (hskip : ∀ id ∈ ids, skip id = true ↔ ∃ a, S a id) (hS : ∀ a b, S a b → (parts a).isSome)
    {e : κ × List (κ × β)} (he : e ∈ expandEach parts skip n ids []) {c : κ}
    (hc : (parts c).isSome) :
    (Leads S c e.1 → ownedBy c e.2 = ownPieces parts c) ∧ (ownedBy c e.2 ≠ [] → Leads S c e.1) := by
  have hshut : ∀ x ∈ ([] : List κ), Shut S [] x := fun x hx => absurd hx not_mem_nil
  obtain ⟨hpos, hneg⟩ := owned_expandEach h hn hids (fun id hid => (hsome id).1 hid) hshut he c
  have hroot : ∀ id ∈ ids, skip id = false ↔ ∀ a, ¬ S a id := fun id hid => by
    rw [← Bool.not_eq_true, hskip id hid, not_exists]
  have hkeys : (expandEach parts skip n ids []).map Prod.fst = ids := expandEach_keys skip n ids []
  have heids : e.1 ∈ ids := hkeys ▸ mem_map_of_mem he
  refine ⟨fun hl => hpos ((hroot _ heids).2 hl.outermost) hl.reach not_mem_nil
    fun z hz hlt hskipz hzc => hl.least z ((hroot z hz).1 hskipz) hzc hlt, fun hne => ?_⟩
  obtain ⟨hno, hreach, -, hz⟩ := hneg hne
  refine ⟨(hroot _ heids).1 hno, hreach, fun z hzroot hzc hlt => ?_⟩
  have hzids : z ∈ ids := by
    rcases hzc.cases_head with rfl | ⟨b, hzb, -⟩
    · exact (hsome z).2 hc
    · exact (hsome z).2 (hS z b hzb)
  exact hz z hzids hlt ((hroot z hzids).2 hzroot) hzc

end Complete

end Expansion

end LibrePaper.Library
