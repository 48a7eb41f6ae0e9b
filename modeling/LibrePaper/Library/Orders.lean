import LibrePaper.Library.Codes
import LibrePaper.Library.Lists
import LibrePaper.Library.Utf8

/-!
# Orders of coded texts

A code that keeps the order of the characters keeps the order of the texts. UTF-8 is one. A list
that is sorted by a comparison of two elements is sorted by a key when the comparison is the one of
the keys.
-/
namespace LibrePaper.Library
open List

variable {α β γ : Type*}

/-- The codes of two characters stand in their order, whatever follows. -/
def Ascending [LT α] [LT β] (code : α → List β) : Prop :=
  ∀ a b, a < b → ∀ p q, code a ++ p < code b ++ q

section Ascending
variable [LinearOrder α] [LinearOrder β] {code : α → List β}

lemma append_lt_append_iff (p : List β) {x y : List β} : p ++ x < p ++ y ↔ x < y := by
  induction p with
  | nil => rfl
  | cons b p ih => rw [cons_append, cons_append, cons_lt_cons_self, ih]

lemma coded_lt_iff (h : Ascending code) (hne : ∀ a, code a ≠ []) (x y : List α) :
    coded code x < coded code y ↔ x < y := by
  induction x generalizing y with
  | nil =>
    cases y with
    | nil => exact iff_of_false (lt_irrefl _) (lt_irrefl _)
    | cons b y =>
      refine iff_of_true ?_ (nil_lt_cons b y)
      rw [coded_nil, coded_cons]
      cases hb : code b with
      | nil => exact absurd hb (hne b)
      | cons c rest => exact nil_lt_cons _ _
  | cons a x ih =>
    cases y with
    | nil => exact iff_of_false (not_lt_nil _) (not_lt_nil _)
    | cons b y =>
      rw [coded_cons, coded_cons]
      rcases lt_trichotomy a b with hab | rfl | hba
      · exact iff_of_true (h a b hab _ _) (cons_lt_cons_iff.2 (.inl hab))
      · rw [append_lt_append_iff, cons_lt_cons_self, ih]
      · refine iff_of_false (lt_asymm (h b a hba _ _)) fun hlt => ?_
        rcases cons_lt_cons_iff.1 hlt with hab | ⟨rfl, -⟩
        · exact lt_asymm hab hba
        · exact lt_irrefl _ hba

lemma coded_le_iff (h : Ascending code) (hne : ∀ a, code a ≠ []) (x y : List α) :
    coded code x ≤ coded code y ↔ x ≤ y := by
  rw [← not_lt, ← not_lt, coded_lt_iff h hne]

end Ascending

/-- The bytes of a character, as numbers. -/
def octetsOf (c : Char) : List ℕ := (String.utf8EncodeChar c).map UInt8.toNat

/-- The bytes of a text, as numbers. -/
def octets (text : List Char) : List ℕ := (utf8 text).map UInt8.toNat

lemma octets_eq_coded (text : List Char) : octets text = coded octetsOf text := map_flatMap

lemma octetsOf_eq (c : Char) : octetsOf c =
    if c.toNat ≤ 0x7f then [c.toNat]
    else if c.toNat ≤ 0x7ff then [0xc0 + c.toNat / 64, 0x80 + c.toNat % 64]
    else if c.toNat ≤ 0xffff then
      [0xe0 + c.toNat / 4096, 0x80 + c.toNat / 64 % 64, 0x80 + c.toNat % 64]
    else [0xf0 + c.toNat / 262144, 0x80 + c.toNat / 4096 % 64, 0x80 + c.toNat / 64 % 64,
      0x80 + c.toNat % 64] := by
  have hmax : c.toNat < 0xd800 ∨ 0xdfff < c.toNat ∧ c.toNat < 0x110000 := c.valid
  have hbyte : ∀ n < 256, (UInt8.ofNat n).toNat = n := fun n hn =>
    UInt8.toNat_ofNat'.trans (Nat.mod_eq_of_lt hn)
  unfold octetsOf String.utf8EncodeChar
  rw [show c.val.toNat = c.toNat from rfl]
  generalize c.toNat = n at hmax
  dsimp only
  split_ifs
  · rw [map_singleton, hbyte n (by omega)]
  · simp only [map_cons, map_nil]
    rw [hbyte _ (by omega), hbyte _ (by omega), Nat.mod_eq_of_lt (by omega : n / 64 < 32),
      Nat.add_comm, Nat.add_comm (n % 64)]
  · simp only [map_cons, map_nil]
    rw [hbyte _ (by omega), hbyte _ (by omega), hbyte _ (by omega),
      Nat.mod_eq_of_lt (by omega : n / 4096 < 16), Nat.add_comm, Nat.add_comm (n / 64 % 64),
      Nat.add_comm (n % 64)]
  · simp only [map_cons, map_nil]
    rw [hbyte _ (by omega), hbyte _ (by omega), hbyte _ (by omega), hbyte _ (by omega),
      Nat.mod_eq_of_lt (by omega : n / 262144 < 8), Nat.add_comm, Nat.add_comm (n / 4096 % 64),
      Nat.add_comm (n / 64 % 64), Nat.add_comm (n % 64)]

lemma octetsOf_ne_nil (c : Char) : octetsOf c ≠ [] := by
  rw [octetsOf_eq]
  split_ifs <;> exact cons_ne_nil _ _

lemma ascending_octetsOf : Ascending octetsOf := by
  intro a b hab p q
  have hlt : a.toNat < b.toNat := hab
  have hmax : b.toNat < 0xd800 ∨ 0xdfff < b.toNat ∧ b.toNat < 0x110000 := b.valid
  rw [octetsOf_eq, octetsOf_eq]
  generalize a.toNat = m at hlt
  generalize b.toNat = n at hlt hmax
  split_ifs <;> simp only [cons_append, nil_append, cons_lt_cons_iff] <;> omega

/-- The bytes of texts stand in the order of their characters. -/
lemma octets_le_iff (x y : List Char) : octets x ≤ octets y ↔ x ≤ y := by
  rw [octets_eq_coded, octets_eq_coded, coded_le_iff ascending_octetsOf octetsOf_ne_nil]

lemma octets_injective : octets.Injective := fun x y h =>
  le_antisymm ((octets_le_iff x y).1 h.le) ((octets_le_iff y x).1 h.ge)

/-- Compares two lists of numbers by the first that differ, else by their lengths. -/
def compareNumbers : List ℕ → List ℕ → ℤ
  | a :: as, b :: bs => if a ≠ b then (a : ℤ) - b else compareNumbers as bs
  | as, bs => (as.length : ℤ) - bs.length

lemma compareNumbers_nonpos (as bs : List ℕ) : compareNumbers as bs ≤ 0 ↔ as ≤ bs := by
  suffices h : compareNumbers as bs ≤ 0 ↔ ¬bs < as from h.trans not_lt
  induction as generalizing bs with
  | nil =>
    refine iff_of_true ?_ (not_lt_nil bs)
    rw [compareNumbers, length_nil]
    · omega
    · exact fun _ _ _ _ h => nomatch h
  | cons a as ih =>
    cases bs with
    | nil =>
      refine iff_of_false ?_ (not_not.2 (nil_lt_cons a as))
      rw [compareNumbers, length_nil, length_cons]
      · omega
      · exact fun _ _ _ _ _ h => nomatch h
    | cons b bs =>
      rw [compareNumbers, cons_lt_cons_iff]
      by_cases hab : a = b
      · subst hab
        rw [if_neg (not_not.2 rfl), ih]
        simp
      · rw [if_pos hab]
        have hba : b ≠ a := Ne.symm hab
        simp only [hba, false_and, or_false, not_lt]
        omega

/-- Sorts a list by a comparison; elements that compare equal keep their order. -/
def sortBy (compare : α → α → ℤ) (l : List α) : List α :=
  l.insertionSort fun a b => compare a b ≤ 0

lemma sortBy_perm (compare : α → α → ℤ) (l : List α) : (sortBy compare l).Perm l :=
  perm_insertionSort _ l

variable {key : α → γ} {l m : List α}

lemma sortBy_eq_sortByKey [LinearOrder γ] {compare : α → α → ℤ}
    (h : ∀ a b, compare a b ≤ 0 ↔ key a ≤ key b) (l : List α) :
    sortBy compare l = sortByKey key l := by
  have hrel : (fun a b => compare a b ≤ 0) = fun a b => key a ≤ key b :=
    funext₂ fun a b => propext (h a b)
  unfold sortBy sortByKey
  congr!

lemma sortByKey_pairwise [LinearOrder γ] (key : α → γ) (l : List α) :
    (sortByKey key l).Pairwise fun a b => key a ≤ key b :=
  pairwise_insertionSort _ l

/-- Two keys that tell the same elements apart sort a list alike exactly when they order its
elements alike. -/
lemma sortByKey_eq_iff [LinearOrder β] [LinearOrder γ] {first : α → β} {second : α → γ}
    (h : ∀ a b, first a = first b ↔ second a = second b) (l : List α) :
    sortByKey first l = sortByKey second l ↔
      ∀ a ∈ l, ∀ b ∈ l, first a ≤ first b → second a ≤ second b := by
  constructor
  · intro heq a ha b hb hab
    have hfirst := sortByKey_pairwise first l
    have hsecond := sortByKey_pairwise second l
    rw [← heq] at hsecond
    obtain ⟨i, hi, rfl⟩ := getElem_of_mem ((mem_sortByKey first l a).2 ha)
    obtain ⟨j, hj, rfl⟩ := getElem_of_mem ((mem_sortByKey first l b).2 hb)
    rcases lt_trichotomy i j with hij | rfl | hji
    · exact pairwise_iff_getElem.1 hsecond i j hi hj hij
    · exact le_rfl
    · have hba := pairwise_iff_getElem.1 hfirst j i hj hi hji
      exact ((h _ _).1 (le_antisymm hab hba)).le
  · intro hall
    refine (map_id _).symm.trans ((map_insertionSort _ _ id l fun a ha b hb => ?_).trans
      (congrArg _ (map_id l)))
    constructor
    · exact hall a ha b hb
    · intro hab
      by_contra hno
      have hba := hall b hb a ha (le_of_not_ge hno)
      exact hno ((h a b).2 (le_antisymm hab hba)).le

/-- Sorting lists with the same elements gives the same list, when the key tells them apart. -/
lemma sortByKey_congr [LinearOrder γ] (hperm : l.Perm m)
    (hkey : ∀ a ∈ l, ∀ b ∈ l, key a = key b → a = b) : sortByKey key l = sortByKey key m :=
  Perm.eq_of_pairwise
    (fun a b ha hb hab hba => hkey a ((mem_sortByKey key l a).1 ha) b
      (hperm.mem_iff.2 ((mem_sortByKey key m b).1 hb)) (le_antisymm hab hba))
    (sortByKey_pairwise key l) (sortByKey_pairwise key m)
    ((sortByKey_perm key l).trans (hperm.trans (sortByKey_perm key m).symm))

/-- A sorted list is the rising list with its elements. -/
lemma eq_of_rising [LinearOrder γ] (hl : l.Pairwise fun a b => key a ≤ key b)
    (hm : m.Pairwise fun a b => key a < key b) (hperm : l.Perm m) : l = m :=
  Perm.eq_of_pairwise
    (fun _ _ ha hb hab hba => inj_on_of_nodup_map
      (pairwise_map.2 (hm.imp ne_of_lt) : (m.map key).Nodup) (hperm.mem_iff.1 ha) hb
      (le_antisymm hab hba))
    hl (hm.imp le_of_lt) hperm

lemma sortByKey_map {δ : Type*} [LinearOrder γ] [LinearOrder δ] (key : α → γ)
    (key' : β → δ) (f : α → β) (h : ∀ a b, key' (f a) ≤ key' (f b) ↔ key a ≤ key b)
    (l : List α) : sortByKey key' (l.map f) = (sortByKey key l).map f :=
  (map_insertionSort _ _ f l fun a _ b _ => (h a b).symm).symm

end LibrePaper.Library
