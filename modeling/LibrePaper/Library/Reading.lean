import LibrePaper.Library.Fallible
import LibrePaper.Library.Utf8

/-!
# Reading from the front of a list

A reader takes something from the front of a list, or fails. It is local when what it takes does
not depend on what follows. What several readers take one after another is taken by their
sequence, and of a list that is cut short a repeated local reader takes a first part, or fails.
-/
namespace LibrePaper.Library
open List

variable {ε σ α β : Type}

abbrev Reader (ε σ α : Type) := List σ → Except ε (α × List σ)

namespace Reader

/-- Takes nothing. -/
def done (a : α) : Reader ε σ α := fun s => .ok (a, s)

/-- Fails on a condition, and takes nothing. -/
def refuseIf (p : Prop) [Decidable p] (e : ε) : Reader ε σ Unit :=
  fun s => if p then .error e else .ok ((), s)

/-- One reader after another. -/
def andThen (p : Reader ε σ α) (f : α → Reader ε σ β) : Reader ε σ β :=
  fun s => p s >>= fun x => f x.1 x.2

/-- Takes a number of elements. -/
def take (short : ε) (count : ℕ) : Reader ε σ (List σ) :=
  fun s => if s.length < count then .error short else .ok (s.take count, s.drop count)

/-- Takes as often as there is something left, but not more often than `fuel`. -/
def many (exhausted : ε) (p : Reader ε σ α) : ℕ → List σ → Except ε (List α)
  | _, [] => .ok []
  | 0, _ :: _ => .error exhausted
  | fuel + 1, s => p s >>= fun x => many exhausted p fuel x.2 >>= fun rest => .ok (x.1 :: rest)

/-- A reader takes `a` from a first part, whatever follows. -/
def Reads (p : Reader ε σ α) (first : List σ) (a : α) : Prop :=
  ∀ rest, p (first ++ rest) = .ok (a, rest)

/-- What a reader takes does not depend on what follows. -/
def Local (p : Reader ε σ α) : Prop :=
  ∀ s a rest, p s = .ok (a, rest) → ∃ first, s = first ++ rest ∧ Reads p first a

lemma reads_done (a : α) : Reads (done a : Reader ε σ α) [] a := fun _ => rfl

lemma local_done (a : α) : Local (done a : Reader ε σ α) := by
  intro s b rest h
  cases h
  exact ⟨[], rfl, reads_done a⟩

section RefuseIf
variable {p : Prop} [Decidable p] {e : ε}

lemma reads_refuseIf (h : ¬p) : Reads (refuseIf p e : Reader ε σ Unit) [] () := fun _ => if_neg h

lemma local_refuseIf : Local (refuseIf p e : Reader ε σ Unit) := by
  intro s a rest h
  obtain ⟨hp, hok⟩ := else_of_ok h
  cases hok
  exact ⟨[], rfl, reads_refuseIf hp⟩

end RefuseIf

variable {first : List σ}

lemma reads_take (short : ε) {count : ℕ} (h : first.length = count) :
    Reads (take short count) first first := by
  intro rest
  subst h
  unfold take
  rw [if_neg (by rw [length_append]; omega), take_left, drop_left]

lemma local_take (short : ε) (count : ℕ) : Local (take short count : Reader ε σ (List σ)) := by
  intro s a rest h
  obtain ⟨hlength, hok⟩ := else_of_ok h
  cases hok
  exact ⟨s.take count, (take_append_drop count s).symm,
    reads_take short (length_take_of_le (not_lt.1 hlength))⟩

section AndThen
variable {p : Reader ε σ α} {f : α → Reader ε σ β}

lemma Reads.andThen {second : List σ} {a : α} {b : β} (h : Reads p first a)
    (hf : Reads (f a) second b) : Reads (andThen p f) (first ++ second) b := by
  intro rest
  rw [append_assoc, Reader.andThen, h]
  exact hf rest

lemma Local.andThen (h : Local p) (hf : ∀ a, Local (f a)) : Local (andThen p f) := by
  intro s b rest hok
  obtain ⟨⟨a, middle⟩, hp, hb⟩ := bind_eq_ok.1 hok
  obtain ⟨first, rfl, hfirst⟩ := h _ _ _ hp
  obtain ⟨second, rfl, hsecond⟩ := hf a _ _ _ hb
  exact ⟨first ++ second, (append_assoc _ _ _).symm, hfirst.andThen hsecond⟩

end AndThen

section Many
variable {exhausted : ε} {p : Reader ε σ α} {code : α → List σ}

variable {items read : List α} {fuel : ℕ}

lemma many_of_reads (h : ∀ a ∈ items, Reads p (code a) a) (hne : ∀ a ∈ items, code a ≠ [])
    (hfuel : (items.flatMap code).length ≤ fuel) :
    many exhausted p fuel (items.flatMap code) = .ok items := by
  induction items generalizing fuel with
  | nil => rw [flatMap_nil, many]
  | cons a items ih =>
    rw [flatMap_cons, length_append] at hfuel
    have hpos := length_pos_iff_ne_nil.2 (hne a mem_cons_self)
    obtain ⟨fuel, rfl⟩ : ∃ n, fuel = n + 1 := ⟨fuel - 1, by omega⟩
    have hsome : code a ++ items.flatMap code ≠ [] :=
      fun hno => hne a mem_cons_self (append_eq_nil_iff.1 hno).1
    have hrest : many exhausted p fuel (items.flatMap code) = .ok items :=
      ih (fun b hb => h b (mem_cons_of_mem _ hb))
        (fun b hb => hne b (mem_cons_of_mem _ hb)) (by omega)
    rw [flatMap_cons, many, h a mem_cons_self, ok_bind, hrest]
    · rfl
    · exact hsome

/-- Of a list that is cut short, a local reader takes a first part of what is there. -/
lemma many_take (hlocal : Local p) (h : ∀ a ∈ items, Reads p (code a) a) {n : ℕ}
    (hn : n ≤ (items.flatMap code).length)
    (hok : many exhausted p fuel ((items.flatMap code).take n) = .ok read) :
    ∃ k, n = ((items.take k).flatMap code).length := by
  induction items generalizing n fuel read with
  | nil => exact ⟨0, Nat.le_zero.1 hn⟩
  | cons a items ih =>
    rw [flatMap_cons] at hn hok
    by_cases hzero : n = 0
    · exact ⟨0, hzero⟩
    · by_cases hlt : n < (code a).length
      · exfalso
        cases fuel with
        | zero =>
          cases hcut : (code a ++ items.flatMap code).take n with
          | nil =>
            have hlength := congrArg length hcut
            rw [length_take_of_le hn] at hlength
            exact hzero hlength
          | cons x rest =>
            rw [hcut, many] at hok
            cases hok
        | succ fuel =>
          have hsome : (code a ++ items.flatMap code).take n ≠ [] := by
            intro hcut
            have hlength := congrArg length hcut
            rw [length_take_of_le hn] at hlength
            exact hzero hlength
          rw [many] at hok
          · obtain ⟨⟨b, left⟩, hb, -⟩ := bind_eq_ok.1 hok
            obtain ⟨first, hfirst, hreads⟩ := hlocal _ _ _ hb
            have hwhole : code a ++ items.flatMap code =
                first ++ (left ++ (code a ++ items.flatMap code).drop n) := by
              rw [← append_assoc, ← hfirst, take_append_drop]
            have hboth := hreads (left ++ (code a ++ items.flatMap code).drop n)
            rw [← hwhole, h a mem_cons_self] at hboth
            have hleft := congrArg length (Prod.mk.inj (Except.ok.inj hboth)).2
            have hcut := congrArg length hfirst
            rw [length_take_of_le hn, length_append] at hcut
            rw [length_append, length_drop, length_append] at hleft
            omega
          · exact hsome
      · have htake : (code a ++ items.flatMap code).take n =
            code a ++ (items.flatMap code).take (n - (code a).length) := by
          rw [take_append, take_of_length_le (by omega)]
        rw [htake] at hok
        obtain ⟨m, rest, hrest⟩ : ∃ m rest, many exhausted p m
            ((items.flatMap code).take (n - (code a).length)) = .ok rest := by
          cases hcut : code a ++ (items.flatMap code).take (n - (code a).length) with
          | nil => exact ⟨0, [], by rw [(append_eq_nil_iff.1 hcut).2, many]⟩
          | cons x more =>
            cases fuel with
            | zero =>
              rw [hcut, many] at hok
              cases hok
            | succ fuel =>
              rw [many] at hok
              · rw [h a mem_cons_self, ok_bind] at hok
                obtain ⟨rest, hrest, -⟩ := bind_eq_ok.1 hok
                exact ⟨fuel, rest, hrest⟩
              · exact fun hno => cons_ne_nil x more (hcut ▸ hno)
        rw [length_append] at hn
        obtain ⟨k, hk⟩ := ih (fun b hb => h b (mem_cons_of_mem _ hb)) (by omega) hrest
        refine ⟨k + 1, ?_⟩
        rw [take_succ_cons, flatMap_cons, length_append, ← hk]
        omega

/-- What every reading satisfies, every one of many readings does. -/
lemma forall_many {P : α → Prop} (h : ∀ s a rest, p s = .ok (a, rest) → P a) {s : List σ}
    (hok : many exhausted p fuel s = .ok read) : ∀ a ∈ read, P a := by
  induction fuel generalizing s read with
  | zero =>
    cases s with
    | nil =>
      rw [many] at hok
      cases hok
      exact nofun
    | cons x s =>
      rw [many] at hok
      cases hok
  | succ fuel ih =>
    cases s with
    | nil =>
      rw [many] at hok
      cases hok
      exact nofun
    | cons x s =>
      rw [many] at hok
      · obtain ⟨⟨a, rest⟩, ha, hmore⟩ := bind_eq_ok.1 hok
        obtain ⟨more, hmany, heq⟩ := bind_eq_ok.1 hmore
        cases heq
        intro b hb
        rcases mem_cons.1 hb with rfl | hb
        · exact h _ _ _ ha
        · exact ih hmany b hb
      · exact cons_ne_nil x s

end Many

end Reader

end LibrePaper.Library
