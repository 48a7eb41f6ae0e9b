import LibrePaper.Track.Fragments
import LibrePaper.Track.RejectAll

/-!
# Which change holds which inserted character

Each character of the text after a batch is followed back to the text before it. A
batch keeps a character's owner unless one of its edits gives the author's own span to
another change of the author, which stands before it: `Call.TakesSpan`.
-/
namespace LibrePaper.Track
open Library List Option

/-- One edit of a batch applied to origins in place of characters. -/
def originStep (s : ℤ × List (Option ℕ)) (e : Edit) : ℤ × List (Option ℕ) :=
  (s.1 + e.insert.length - (e.toPos - e.fromPos),
    splice s.2 (e.fromPos + s.1).toNat (e.toPos + s.1).toNat
      (List.replicate e.insert.length none))

namespace Batch

/-- The origins after the edits: each character by its position before the batch, `none`
for an inserted one. -/
def originsAfter (b : Batch) (edits : List Edit) : ℤ × List (Option ℕ) :=
  edits.foldl originStep (0, (List.range b.before.length).map some)

/-- The origins of the characters of the text after the batch. -/
def origins (b : Batch) : List (Option ℕ) := (b.originsAfter b.edits).2

/-- The progress after the edits. -/
def after (b : Batch) (edits : List Edit) : Progress := edits.foldl b.step b.start

/-- What a batch owes the pending insertions. A surviving character of a span is in a span
of the same change or of a copy that splitting it made; no old change takes over other
text; and a change whose row is emptied has no surviving character. -/
structure OwnershipKept (b : Batch) : Prop where
  inside : ∀ c ∈ b.state.changes, ∀ i j, c.covers i → b.origins[j]? = some (some i) →
    ∃ r ∈ b.plan.liveChanges, r.1.covers j ∧ (r.1.id = c.id ∨
      (SameChange r.1 c ∧ ∃ k, b.taken ≤ k ∧ r.1.id = b.fresh k))
  outside : ∀ i j, b.origins[j]? = some (some i) → (∀ c ∈ b.state.changes, ¬ c.covers i) →
    ∀ r ∈ b.plan.liveChanges, (∃ c ∈ b.state.changes, c.id = r.1.id) → ¬ r.1.covers j
  emptied : ∀ r ∈ b.plan.liveChanges, r.1.emptied = true → hasSpan r.1 = false ∧
    ∀ c ∈ b.state.changes, c.id = r.1.id → ∀ i, c.covers i → some i ∉ b.origins

end Batch

/-- The edit gives the author's span `d` to another change: it records a change, `d` is the
first own span at the edit, and the first owned change by position is another one. -/
def Call.TakesSpan (c : Call) (d : ChangeRecord) : Prop :=
  c.records = true ∧ firstSpan c.changes c.me c.edit = some d ∧
    ∃ m, firstOwned c.changes c.owned = some m ∧ m.id ≠ d.id

/-- No edit of the batch takes a span that holds a character which was there before the
batch and survives it. -/
def Batch.KeepsSpans (b : Batch) : Prop :=
  ∀ pre edit post, b.edits = pre ++ edit :: post → ∀ d, (b.call (b.after pre) edit).TakesSpan d →
    ∀ i k, d.covers k → (b.originsAfter pre).2[k]? = some (some i) → some i ∉ b.origins

/-! One edit. -/

variable {tags : List (Option ℕ)} {e : OneEdit} {k q : ℕ}

/-- A survivor keeps its tag. -/
lemma splice_moves (he : e.Fits tags.length) (hm : e.Moves k q) :
    (splice tags e.ef e.et (replicate e.len none))[q]? = tags[k]? := by
  have hlo : e.ef ≤ tags.length := he.le.trans he.bound
  rcases hm with ⟨hk, rfl⟩ | ⟨hk, rfl⟩
  · exact getElem?_splice_left hk hlo
  · have h : (splice tags e.ef e.et (replicate e.len none))[k +
        (replicate e.len (none : Option ℕ)).length - (e.et - e.ef)]? = tags[k]? :=
      getElem?_splice_right hk he.le hlo
    rwa [length_replicate] at h

/-- A position of the origins after an edit holds a character that survived it. -/
lemma origin_moves (he : e.Fits tags.length) {i : ℕ} :
    (splice tags e.ef e.et (replicate e.len none))[q]? = some (some i) ↔
      ∃ k, e.Moves k q ∧ tags[k]? = some (some i) := by
  constructor
  · intro h
    rcases OneEdit.moves_or_inserted he.le q with ⟨h1, h2⟩ | ⟨k, hk⟩
    · rw [getElem?_splice_mid h1 (by simpa [OneEdit.stop] using h2) (he.le.trans he.bound),
        getElem?_replicate] at h
      split at h <;> simp at h
    · exact ⟨k, hk, splice_moves he hk ▸ h⟩
  · rintro ⟨k, hk, h⟩
    rw [splice_moves he hk, h]

namespace Call
variable {c : Call}

variable {r : Row}

/-- A tracked edit never splits a span of its author. -/
lemma Ready.not_split_own (h : c.Ready) (hu : c.untracked = false) (hr : r ∈ c.changes)
    (hw : r.1.who = c.me.who) (hs : splitsRow c.edit c.mine c.owned r = true) : False := by
  simp only [splitsRow, Bool.and_eq_true, Bool.not_eq_true', decide_eq_true_eq] at hs
  obtain ⟨ha, ⟨h1, h2⟩, hlen⟩ := hs
  have hle := h.fits.le
  have hspan : hasSpan r.1 = true := (hasSpan_iff _).2 (by omega)
  cases hd : firstSpan c.changes c.me c.edit with
  | none =>
    simp only [firstSpan, firstMin_eq_none, map_eq_nil_iff, filter_eq_nil_iff,
      decide_eq_true_eq] at hd
    exact hd r hr ⟨hw, hspan, by omega, by omega⟩
  | some d =>
    obtain ⟨⟨s, hs⟩, -, hds, hdf, hdt⟩ := firstSpan_spec hd
    rw [hasSpan_iff] at hds hspan
    have he : r.1 = d := h.valid.eq_of_covers hr hs (p := max d.fromPos r.1.fromPos)
      ⟨le_max_right _ _, by omega⟩ ⟨le_max_left _ _, by dsimp only; omega⟩
    have hrec : c.records = true := recordsChange_iff.2 ⟨hu, .inr hlen⟩
    rw [he, absorbedBy_iff.2 ⟨hrec, firstSpan_owned hu hd⟩] at ha
    simp at ha

/-- A taken span's row is emptied. -/
lemma Ready.taken_emptied (h : c.Ready) {d : ChangeRecord} (ht : c.TakesSpan d) :
    ∃ x ∈ c.rows, x.1.id = d.id ∧ x.1.emptied = true := by
  obtain ⟨hrec, hd, e, he, hne⟩ := ht
  obtain ⟨m, hm⟩ : ∃ m, c.mine = some m := by rw [← isSome_iff_exists, mine_isSome, hrec]
  obtain ⟨-, -, -, -, -, ⟨e', he', hid, -⟩ | ⟨hno, -⟩⟩ := mine_spec h.ids hm
  · rw [he, some.injEq] at he'
    subst he'
    have ho := firstSpan_owned (untracked_of_mine hm) hd
    have howner : c.owner d.id = e.id := by simp [owner, newOwner, hm, ho, hid]
    obtain ⟨⟨x, hx, hxid, -, hxe⟩, -⟩ := h.owner_ne (howner.trans_ne hne)
    exact ⟨x, hx, hxid, hxe⟩
  · rw [he] at hno
    simp at hno

/-- The row of a span that the edit leaves before it. -/
lemma row_before (hr : r ∈ c.changes) (ha : absorbedBy c.mine c.owned r.1 = false)
    (hs : hasSpan r.1 = true) (hle : r.1.toPos ≤ c.edit.ef) :
    ∃ x ∈ c.rows, x.1.id = r.1.id ∧ x.1.who = r.1.who ∧ hasSpan x.1 = true ∧
      x.1.toPos = r.1.toPos := by
  obtain ⟨s, hk⟩ : ∃ s, (r.1, s) ∈ keepRow c.edit c.mine c.owned r := by simp [keepRow, ha, hs, hle]
  have hsame := settled_same (c := c) (r.1, s)
  obtain ⟨h1, h2⟩ := settled_of_span (c := c) (y := (r.1, s)) hs
  refine ⟨c.settled (r.1, s), settled_mem (mem_out.2 (.inl ⟨r, hr, hk⟩)) (.inl hs),
    hsame.1, hsame.2.1, ?_, h2⟩
  rw [hasSpan_iff] at hs ⊢
  rw [h1, h2]
  exact hs

/-- The left part of a span that the edit splits. -/
lemma Ready.row_left (h : c.Ready) (hr : r ∈ c.changes)
    (hs : splitsRow c.edit c.mine c.owned r = true) :
    ∃ x ∈ c.rows, x.1.id = r.1.id ∧ x.1.who = r.1.who ∧ hasSpan x.1 = true ∧
      x.1.toPos = c.edit.ef := by
  simp only [splitsRow, Bool.and_eq_true, Bool.not_eq_true', decide_eq_true_eq] at hs
  obtain ⟨ha, ⟨h1, h2⟩, hlen⟩ := hs
  have hle := h.fits.le
  have hspan : hasSpan r.1 = true := (hasSpan_iff _).2 (by omega)
  have hk : ({ r.1 with toPos := c.edit.ef }, .set) ∈ keepRow c.edit c.mine c.owned r := by
    rw [keepRow]
    simp only [ha, hspan, Bool.false_eq_true, if_false, Bool.not_true,
      if_neg (show ¬ r.1.toPos ≤ c.edit.ef by omega),
      if_neg (show ¬ c.edit.et ≤ r.1.fromPos by omega), h1, h2, hlen, and_self, if_true,
      mem_singleton]
  have hleft : hasSpan ({ r.1 with toPos := c.edit.ef } : ChangeRecord) = true :=
    (hasSpan_iff _).2 h1
  obtain ⟨h3, h4⟩ := settled_of_span (c := c) (y := ({ r.1 with toPos := c.edit.ef }, .set)) hleft
  have hsame := settled_same (c := c) ({ r.1 with toPos := c.edit.ef }, .set)
  refine ⟨_, settled_mem (mem_out.2 (.inl ⟨r, hr, hk⟩)) (.inl hleft), hsame.1, hsame.2.1, ?_, h4⟩
  rw [hasSpan_iff, h3, h4]
  exact h1

lemma Ready.settled_holds (h : c.Ready) {y : Row} (hy : y ∈ c.out) (hq : y.1.covers q) :
    ∃ x ∈ c.rows, x.1.covers q ∧ x.1.id = y.1.id ∧ SameChange x.1 y.1 :=
  ⟨c.settled y, settled_mem hy (.inl hq.hasSpan),
    (settled_covers (h.out_ordered hy) q).2 hq, settled_same y⟩

end Call

lemma SameChange.trans {x y z : ChangeRecord} (h : SameChange x y) (h' : SameChange y z) :
    SameChange x z :=
  ⟨h.1.trans h'.1, h.2.1.trans h'.2.1, h.2.2.1.trans h'.2.2.1, h.2.2.2.trans h'.2.2.2⟩

/-! One pass of the loop. -/

namespace Batch
variable {b : Batch}

/-- The batch may rewrite the change: it is its author's and the batch is tracked. -/
def Own (b : Batch) (c : ChangeRecord) : Prop := b.untracked = false ∧ c.who = b.me.who

/-- The character at `k` is in a span of the change `c`, or in a span of a copy of it while
the rest of its own span lies before the edits to come. -/
inductive Held (b : Batch) (lo : ℕ) (p : Progress) (c : ChangeRecord) (k : ℕ) : Prop
  | same (r : Row) (hr : r ∈ p.changes) (hk : r.1.covers k) (hid : r.1.id = c.id)
      (hw : r.1.who = c.who) (h : SameChange r.1 c ∨ b.Own c)
  | copy (r s : Row) (hr : r ∈ p.changes) (hk : r.1.covers k) (h : SameChange r.1 c)
      (hnew : ∃ j, b.taken ≤ j ∧ r.1.id = b.fresh j) (hother : ¬ b.Own c)
      (hs : s ∈ p.changes) (hid : s.1.id = c.id) (hw : s.1.who = c.who)
      (hspan : hasSpan s.1 = true) (hlo : (s.1.toPos : ℤ) ≤ lo + p.adj)

variable {p : Progress} {edit : Edit} {c : ChangeRecord} {r : Row} {lo : ℕ}
  {g : ℤ × List (Option ℕ)} {id : String}

lemma not_absorbed_other (hready : (b.call p edit).Ready) (hr : r ∈ p.changes)
    (hw : r.1.who = c.who) (hother : ¬ b.Own c) :
    absorbedBy (b.call p edit).mine (b.call p edit).owned r.1 = false := by
  by_contra ha
  rw [Bool.not_eq_false, Call.absorbedBy_iff] at ha
  obtain ⟨hu, s, hs, hid, hsw⟩ := Call.owned_row ha.2
  rw [Call.row_ext hready.ids hs hr hid, hw] at hsw
  exact hother ⟨hu, hsw⟩

/-- After an edit the character is still held, unless the edit took the span. -/
lemma Held.next (hs : b.Sound lo p) (hlo : lo ≤ edit.fromPos) (hle : edit.fromPos ≤ edit.toPos)
    (hb : edit.toPos ≤ b.before.length) (htaken : b.taken ≤ p.taken) (h : b.Held lo p c k)
    (hm : (b.call p edit).edit.Moves k q) :
    b.Held edit.toPos (b.next p edit) c q ∨ ∃ d, (b.call p edit).TakesSpan d ∧ d.covers k := by
  have hready := hs.ready hlo hle hb
  have hmade := Call.taken_le_made (c := b.call p edit)
  have hstop : ((b.call p edit).edit.ef : ℤ) ≤ edit.toPos + (b.next p edit).adj := by
    have h1 := hs.reached
    simp only [Batch.next, call, OneEdit.len]
    omega
  have hreach : ((lo : ℤ) + p.adj) ≤ (b.call p edit).edit.ef := by
    simp only [call]
    omega
  cases h with
  | same r hr hk hid hw h =>
    rcases Call.owner_after hready.ids hready.fits.le hr hm hk with
      ⟨ha, y, hy, hyq, hsame, hyid⟩ | ⟨ha, hfirst, m, hmine, hmq⟩
    · obtain ⟨x, hx, hxq, hxid, hxs⟩ := hready.settled_holds hy hyq
      rcases hyid with hyid | ⟨hsplit, j, hj, hyid⟩
      · exact .inl (.same x hx hxq (hxid.trans (hyid.trans hid))
          ((hxs.trans hsame).1.trans hw) (h.imp_left (hxs.trans hsame).trans))
      · have hother : ¬ b.Own c := fun ho =>
          hready.not_split_own ho.1 hr (hw.trans ho.2) hsplit
        obtain ⟨s, hs', hsid, hsw, hspan, hto⟩ := hready.row_left hr hsplit
        refine .inl (.copy x s hx hxq ((hxs.trans hsame).trans (h.resolve_right hother))
          ⟨j, htaken.trans (hmade.trans hj), hxid.trans hyid⟩ hother hs' (hsid.trans hid)
          (hsw.trans hw) hspan ?_)
        rw [hto]
        exact hstop
    · obtain ⟨hrec, ho⟩ := Call.absorbedBy_iff.1 ha
      have hu := Call.untracked_of_mine hmine
      obtain ⟨-, hmw, -, -, -, ⟨e, he, hmid, -⟩ | ⟨hno, -⟩⟩ := Call.mine_spec hready.ids hmine
      · by_cases hne : e.id = r.1.id
        · obtain ⟨x, hx, hxq, hxid, hxs⟩ := hready.settled_holds
            (Call.mem_out.2 (.inr (.inr ⟨m, hmine, rfl⟩))) hmq
          obtain ⟨-, hrw, -⟩ := firstSpan_spec hfirst
          have hcw : c.who = b.me.who := hw.symm.trans hrw
          exact .inl (.same x hx hxq (hxid.trans (hmid.trans (hne.trans hid)))
            (hxs.1.trans (hmw.trans hcw.symm)) (.inr ⟨hu, hcw⟩))
        · exact .inr ⟨r.1, ⟨hrec, hfirst, e, he, hne⟩, hk⟩
      · rw [firstOwned, firstMin_eq_none, filterMap_eq_nil_iff] at hno
        have hnone := hno _ ho
        rw [findRow_of_mem hready.ids hr] at hnone
        simp at hnone
  | copy r s hr hk h hnew hother hs' hid hw hspan hto =>
    have ha := not_absorbed_other hready hr h.1 hother
    have hb' := not_absorbed_other hready hs' hw hother
    obtain ⟨z, hz, hzid, hzw, hzspan, hzto⟩ := Call.row_before hs' hb' hspan (by omega)
    rcases Call.owner_after hready.ids hready.fits.le hr hm hk with
      ⟨-, y, hy, hyq, hsame, hyid⟩ | ⟨ha', -⟩
    · obtain ⟨x, hx, hxq, hxid, hxs⟩ := hready.settled_holds hy hyq
      refine .inl (.copy x z hx hxq ((hxs.trans hsame).trans h) ?_ hother hz (hzid.trans hid)
        (hzw.trans hw) hzspan ?_)
      · rcases hyid with hyid | ⟨-, j, hj, hyid⟩
        · obtain ⟨j, hj, hrid⟩ := hnew
          exact ⟨j, hj, hxid.trans (hyid.trans hrid)⟩
        · exact ⟨j, htaken.trans (hmade.trans hj), hxid.trans hyid⟩
      · rw [hzto]
        omega
    · rw [ha] at ha'
      simp at ha'

/-! The whole batch. -/

/-- What holds of the origins between two edits of a batch. -/
structure Followed (b : Batch) (lo : ℕ) (g : ℤ × List (Option ℕ)) (p : Progress) : Prop where
  adj : g.1 = p.adj
  length : g.2.length = p.cur.length
  taken : b.taken ≤ p.taken
  outside : ∀ i k, g.2[k]? = some (some i) → (∀ c ∈ b.state.changes, ¬ c.covers i) →
    ¬ Covered p.changes k
  inside : ∀ c ∈ b.state.changes, ∀ i k, c.covers i → g.2[k]? = some (some i) →
    b.Held lo p c k ∨ ∃ r ∈ p.changes, r.1.id = c.id ∧ r.1.emptied = true

lemma Held.mono {lo' : ℕ} (h : b.Held lo p c k) (hlo : lo ≤ lo') : b.Held lo' p c k := by
  cases h with
  | same r hr hk hid hw h => exact .same r hr hk hid hw h
  | copy r s hr hk h hnew hother hs hid hw hspan hto =>
    exact .copy r s hr hk h hnew hother hs hid hw hspan (by omega)

lemma originStep_eq (hs : b.Sound lo p) (hlo : lo ≤ edit.fromPos)
    (hle : edit.fromPos ≤ edit.toPos) (hadj : g.1 = p.adj) :
    originStep g edit = ((b.next p edit).adj,
      splice g.2 (b.call p edit).edit.ef (b.call p edit).edit.et
        (replicate (b.call p edit).edit.len none)) := by
  have h1 := hs.reached
  simp only [originStep, hadj, Batch.next, call, OneEdit.len, Prod.mk.injEq, and_true]
  omega

/-- An edit that does nothing moves no character. -/
lemma originStep_skip (hs : b.Sound lo p) (hlo : lo ≤ edit.fromPos)
    (hle : edit.fromPos ≤ edit.toPos) (hadj : g.1 = p.adj)
    (hskip : (b.call p edit).edit.ef = (b.call p edit).edit.et ∧ edit.insert = []) :
    originStep g edit = g := by
  have h1 := hs.reached
  obtain ⟨heq, hins⟩ := hskip
  simp only [call] at heq
  have hft : edit.fromPos = edit.toPos := by omega
  obtain ⟨a, l⟩ := g
  simp only [originStep, hins, hft, splice, length_nil, replicate_zero,
    append_nil, take_append_drop, Prod.mk.injEq, and_true]
  omega

lemma taken_le_ids (p : Progress) (edit : Edit) : p.taken ≤ (b.next p edit).taken := by
  have h1 := Call.taken_le_made (c := b.call p edit)
  have h2 := Call.made_le_ids (c := b.call p edit)
  have h3 : (b.call p edit).taken = p.taken := rfl
  simp only [Batch.next]
  omega

lemma emptied_step (hs : b.Sound lo p) (hlo : lo ≤ edit.fromPos) (hle : edit.fromPos ≤ edit.toPos)
    (hb : edit.toPos ≤ b.before.length) (h : ∃ r ∈ p.changes, r.1.id = id ∧ r.1.emptied = true) :
    ∃ r ∈ (b.step p edit).changes, r.1.id = id ∧ r.1.emptied = true := by
  rw [step_eq]
  split
  · exact h
  · obtain ⟨r, hr, hid, hem⟩ := h
    obtain ⟨x, hx, hxid, -, hxe⟩ := (hs.ready hlo hle hb).emptied_kept hr hem
    exact ⟨x, hx, hxid.trans hid, hxe⟩

lemma Followed.step (hs : b.Sound lo p) (hlo : lo ≤ edit.fromPos)
    (hle : edit.fromPos ≤ edit.toPos) (hb : edit.toPos ≤ b.before.length) (h : b.Followed lo g p) :
    b.Followed edit.toPos (originStep g edit) (b.step p edit) := by
  have hready := hs.ready hlo hle hb
  have hempty : ∀ id, (∃ r ∈ p.changes, r.1.id = id ∧ r.1.emptied = true) →
      ∃ r ∈ (b.step p edit).changes, r.1.id = id ∧ r.1.emptied = true :=
    fun _ => emptied_step hs hlo hle hb
  rw [step_eq] at hempty ⊢
  split at hempty <;> rename_i hskip
  · rw [if_pos hskip, originStep_skip hs hlo hle h.adj hskip]
    exact ⟨h.adj, h.length, h.taken, h.outside, fun c hc i k hi hk =>
      (h.inside c hc i k hi hk).imp_left fun hh => hh.mono (hlo.trans hle)⟩
  · have hfits : (b.call p edit).edit.Fits g.2.length := h.length ▸ hready.fits
    rw [if_neg hskip, originStep_eq hs hlo hle h.adj]
    refine ⟨rfl, ?_, h.taken.trans (taken_le_ids p edit), fun i q hq hno => ?_,
      fun c hc i q hi hq => ?_⟩
    · have hlen := Call.length_text hready.fits
      have hcur : (b.call p edit).cur = p.cur := rfl
      rw [length_splice _ _ _ _ hfits.le hfits.bound, length_replicate, h.length]
      rw [hcur] at hlen
      exact hlen.symm
    · obtain ⟨k, hm, hk⟩ := (origin_moves hfits).1 hq
      change ¬ Covered (b.call p edit).rows q
      rw [hready.covered_rows, Call.covered_out hready.ids hready.fits.le]
      rintro (⟨-, hi⟩ | ⟨k', hm', hk'⟩)
      · exact hm.not_inserted hready.fits.le hi
      · exact h.outside i k hk hno (hm.inj hready.fits.le hm' ▸ hk')
    · obtain ⟨k, hm, hk⟩ := (origin_moves hfits).1 hq
      rcases h.inside c hc i k hi hk with hheld | hem
      · rcases hheld.next hs hlo hle hb h.taken hm with hheld' | ⟨d, ht, hdk⟩
        · exact .inl hheld'
        · cases hheld with
          | same r hr hrk hid hw _ =>
            obtain ⟨⟨st, hd⟩, -⟩ := firstSpan_spec ht.2.1
            have he := hready.valid.eq_of_covers hr hd hrk hdk
            obtain ⟨x, hx, hxid, hxe⟩ := hready.taken_emptied ht
            exact .inr ⟨x, hx, by rw [hxid, ← hid, he], hxe⟩
          | copy r s hr hrk hsame hnew hother hs' hid hw hspan hto =>
            obtain ⟨⟨st, hd⟩, hdw, -⟩ := firstSpan_spec ht.2.1
            have he := hready.valid.eq_of_covers hr hd hrk hdk
            have hu := (recordsChange_iff.1 ht.1).1
            exact (hother ⟨hu, by rw [← hsame.1, he]; exact hdw⟩).elim
      · exact .inr (hempty c.id hem)

variable {pre post : List Edit}

lemma Ready.followed (h : b.Ready) (he : b.edits = pre ++ post) :
    b.Sound (reach 0 pre) (b.after pre) ∧
      b.Followed (reach 0 pre) (b.originsAfter pre) (b.after pre) := by
  have hfits := h.fits
  rw [he, fitsFrom_append] at hfits
  refine Sound.fold (motive := b.Followed) originStep
    (fun lo g p edit hs hlo hle hb hm => hm.step hs hlo hle hb) hfits.1 h.start ?_
  have hget : ∀ i k : ℕ, ((List.range b.before.length).map some)[k]? = some (some i) → k = i := by
    intro i k hk
    rw [List.getElem?_map, Option.map_eq_some_iff] at hk
    obtain ⟨x, hx, hxi⟩ := hk
    obtain ⟨hlt, hx⟩ := List.getElem?_eq_some_iff.1 hx
    rw [List.getElem_range] at hx
    exact hx.trans (Option.some.inj hxi)
  refine ⟨rfl, by simp [Batch.start, startProgress], le_rfl, fun i k hk hno => ?_,
    fun c hc i k hi hk => .inl ?_⟩
  · rintro ⟨r, hr, hp⟩
    obtain ⟨c, hc, rfl⟩ := List.mem_map.1 hr
    exact hno c hc (hget i k hk ▸ hp)
  · exact .same (c, .kept) (List.mem_map_of_mem hc) (by rw [hget i k hk]; exact hi) rfl rfl
      (.inl ⟨rfl, rfl, rfl, rfl⟩)

/-- A batch that keeps spans has every surviving character held all along. -/
lemma Ready.held (h : b.Ready) (hk : b.KeepsSpans) (pre : List Edit) :
    ∀ post, b.edits = pre ++ post → ∀ c ∈ b.state.changes, ∀ i k, c.covers i →
      (b.originsAfter pre).2[k]? = some (some i) → some i ∈ b.origins →
        b.Held (reach 0 pre) (b.after pre) c k := by
  induction pre using reverseRecOn with
  | nil =>
    intro post he c hc i k hi hk' _
    obtain ⟨-, hf⟩ := h.followed he
    rcases hf.inside c hc i k hi hk' with hh | ⟨r, hr, -, hem⟩
    · exact hh
    · obtain ⟨c', hc', rfl⟩ := mem_map.1 hr
      rw [h.valid.live c' hc'] at hem
      simp at hem
  | append_singleton pre edit ih =>
    intro post he c hc i q hi hq hsurv
    rw [append_assoc] at he
    obtain ⟨hs, hf⟩ := h.followed he
    have hfits := h.fits
    rw [he, fitsFrom_append] at hfits
    obtain ⟨hlo, hle, hb, -⟩ := hfits.2
    have hready := hs.ready hlo hle hb
    have hreach : reach 0 (pre ++ [edit]) = edit.toPos := by
      have key : ∀ (es : List Edit) lo, reach lo (es ++ [edit]) = edit.toPos := by
        intro es
        induction es with
        | nil => exact fun _ => rfl
        | cons e es ih => exact fun lo => ih e.toPos
      exact key pre 0
    have hafter : b.after (pre ++ [edit]) = b.step (b.after pre) edit := by simp [Batch.after]
    have horig : b.originsAfter (pre ++ [edit]) = originStep (b.originsAfter pre) edit := by
      simp [originsAfter]
    rw [hreach, hafter, step_eq]
    rw [horig] at hq
    split <;> rename_i hskip
    · rw [originStep_skip hs hlo hle hf.adj hskip] at hq
      exact (ih _ he c hc i q hi hq hsurv).mono (hlo.trans hle)
    · rw [originStep_eq hs hlo hle hf.adj] at hq
      obtain ⟨k, hm, hk'⟩ := (origin_moves (hf.length ▸ hready.fits)).1 hq
      rcases (ih _ he c hc i k hi hk' hsurv).next hs hlo hle hb hf.taken hm with hh | ⟨d, ht, hd⟩
      · exact hh
      · exact (hk pre edit post (by simpa using he) d ht i k hd hk' hsurv).elim

/-- An emptied row stays emptied to the end of the batch. -/
lemma Ready.emptied_after (h : b.Ready) (he : b.edits = pre ++ post)
    (hem : ∃ r ∈ (b.after pre).changes, r.1.id = id ∧ r.1.emptied = true) :
    ∃ r ∈ b.loop.changes, r.1.id = id ∧ r.1.emptied = true := by
  obtain ⟨hs, -⟩ := h.followed he
  have hfits := h.fits
  rw [he, fitsFrom_append] at hfits
  have hfold := Sound.fold (motive := fun _ (_ : Unit) p =>
    ∃ r ∈ p.changes, r.1.id = id ∧ r.1.emptied = true) (fun _ _ => ())
    (fun _ _ _ _ hs hlo hle hb => emptied_step hs hlo hle hb) hfits.2 hs (g := ()) hem
  have hloop : b.loop = post.foldl b.step (b.after pre) := by
    rw [Batch.loop, he, foldl_append]
    rfl
  rw [hloop]
  exact hfold.2

lemma Ready.live_row (h : b.Ready) (hr : r ∈ b.loop.changes) :
    ∃ x ∈ b.plan.liveChanges, x.1 = r.1 := by
  have hm : r.1 ∈ b.plan.liveChanges.map Prod.fst := h.live.1 ▸ mem_map_of_mem hr
  exact mem_map.1 hm

lemma Ready.loop_row (h : b.Ready) {x : Row} (hx : x ∈ b.plan.liveChanges) :
    ∃ r ∈ b.loop.changes, r.1 = x.1 := by
  have hm : x.1 ∈ b.loop.changes.map Prod.fst := h.live.1 ▸ mem_map_of_mem hx
  exact mem_map.1 hm

lemma Ready.ownership_kept (h : b.Ready) (hk : b.KeepsSpans) : b.OwnershipKept := by
  have hall : b.edits = b.edits ++ [] := (append_nil _).symm
  obtain ⟨hs, hf⟩ := h.followed hall
  have hheld : ∀ c ∈ b.state.changes, ∀ i j, c.covers i → b.origins[j]? = some (some i) →
      b.Held (reach 0 b.edits) b.loop c j := fun c hc i j hi hj =>
    h.held hk b.edits [] hall c hc i j hi hj (mem_of_getElem? hj)
  refine ⟨fun c hc i j hi hj => ?_, fun i j hj hno r hr _ hcov => ?_, fun r hr hem => ?_⟩
  · cases hheld c hc i j hi hj with
    | same r hr hk hid _ _ =>
      obtain ⟨x, hx, he⟩ := h.live_row hr
      exact ⟨x, hx, he ▸ hk, .inl (he ▸ hid)⟩
    | copy r s hr hk hsame hnew _ _ _ _ _ _ =>
      obtain ⟨x, hx, he⟩ := h.live_row hr
      exact ⟨x, hx, he ▸ hk, .inr (he ▸ ⟨hsame, hnew⟩)⟩
  · obtain ⟨x, hx, he⟩ := h.loop_row hr
    exact hf.outside i j hj hno ⟨x, hx, he ▸ hcov⟩
  · obtain ⟨x, hx, he⟩ := h.loop_row hr
    have hspan := hs.valid.emptied x hx (he ▸ hem)
    refine ⟨he ▸ hspan, fun c hc hid i hi hsurv => ?_⟩
    obtain ⟨j, hj⟩ := mem_iff_getElem?.mp hsurv
    have hrow : ∀ y ∈ b.loop.changes, y.1.id = c.id → hasSpan y.1 = true → False := by
      intro y hy hyid hys
      have hsame : y = x := inj_on_of_nodup_map hs.valid.ids hy hx (by rw [hyid, hid, he])
      rw [hsame, hspan] at hys
      simp at hys
    cases hheld c hc i j hi hj with
    | same y hy hyk hyid _ _ => exact hrow y hy hyid hyk.hasSpan
    | copy y s _ _ _ _ _ hs' hsid _ hsspan _ => exact hrow s hs' hsid hsspan

lemma Ready.keeps_spans (h : b.Ready) (ho : b.OwnershipKept) : b.KeepsSpans := by
  intro pre edit post he d ht i k hd hk hsurv
  obtain ⟨hs, hf⟩ := h.followed he
  have hfits := h.fits
  rw [he, fitsFrom_append] at hfits
  obtain ⟨hlo, hle, hb, -⟩ := hfits.2
  have hready := hs.ready hlo hle hb
  obtain ⟨⟨st, hdrow⟩, hdw, -⟩ := firstSpan_spec ht.2.1
  obtain ⟨c, hc, hi⟩ : ∃ c ∈ b.state.changes, c.covers i := by
    by_contra hno
    exact hf.outside i k hk (fun c hc hi => hno ⟨c, hc, hi⟩) ⟨_, hdrow, hd⟩
  have hnext : ∃ r ∈ (b.after (pre ++ [edit])).changes, r.1.id = c.id ∧ r.1.emptied = true := by
    have hafter : b.after (pre ++ [edit]) = b.step (b.after pre) edit := by simp [Batch.after]
    rw [hafter]
    rcases hf.inside c hc i k hi hk with hheld | hem
    · have hstep : b.step (b.after pre) edit = b.next (b.after pre) edit := by
        rw [step_eq, if_neg]
        rintro ⟨heq, hins⟩
        rcases (recordsChange_iff.1 ht.1).2 with ⟨p, h1, h2, -⟩ | hlen
        · omega
        · simp [call, OneEdit.len, hins] at hlen
      rw [hstep]
      obtain ⟨x, hx, hxid, hxe⟩ := hready.taken_emptied ht
      cases hheld with
      | same r hr hrk hid _ _ =>
        have hrd := hready.valid.eq_of_covers hr hdrow hrk hd
        exact ⟨x, hx, by rw [hxid, ← hid, hrd], hxe⟩
      | copy r s hr hrk hsame _ hother _ _ _ _ _ =>
        have hrd := hready.valid.eq_of_covers hr hdrow hrk hd
        exact (hother ⟨(recordsChange_iff.1 ht.1).1, by rw [← hsame.1, hrd]; exact hdw⟩).elim
    · exact emptied_step hs hlo hle hb hem
  have he' : b.edits = (pre ++ [edit]) ++ post := by simpa using he
  obtain ⟨r, hr, hid, hem⟩ := h.emptied_after he' hnext
  obtain ⟨x, hx, hxr⟩ := h.live_row hr
  exact (ho.emptied x hx (hxr ▸ hem)).2 c hc (by rw [hxr, hid]) i hi hsurv

end Batch

/-- A batch keeps the owners of pending insertions exactly when none of its edits takes a
span that holds a surviving character. -/
theorem ownership_kept_iff (b : Batch) (hvalid : b.state.Valid b.before.length)
    (hfresh : Fresh b.fresh b.taken (keptRows b.state))
    (hfits : FitsFrom 0 b.before.length b.edits) : b.OwnershipKept ↔ b.KeepsSpans :=
  ⟨Batch.Ready.keeps_spans ⟨hvalid, hfresh, hfits⟩,
    Batch.Ready.ownership_kept ⟨hvalid, hfresh, hfits⟩⟩

/-- The author deletes the third character of a text. -/
def sampleBare : Batch where
  fresh := names
  before := "abcdefgh".toList
  state := noChanges
  edits := [⟨2, 3, []⟩]
  me := ⟨"u1", "Ann"⟩
  run := none
  now := 1
  untracked := false
  taken := 0

/-- The same author inserts text further on. -/
def sampleSpan : Batch where
  fresh := names
  before := "abdefgh".toList
  state := sampleBare.plan.storedAs "f"
  edits := [⟨5, 5, "XY".toList⟩]
  me := ⟨"u1", "Ann"⟩
  run := none
  now := 2
  untracked := false
  taken := 1

/-- The same author deletes the text between the two changes. -/
def sampleTake : Batch where
  fresh := names
  before := "abdefXYgh".toList
  state := sampleSpan.plan.storedAs "g"
  edits := [⟨2, 5, []⟩]
  me := ⟨"u1", "Ann"⟩
  run := none
  now := 3
  untracked := false
  taken := 2

lemma names_new {state : FileState} {n : ℕ} (l : List ℕ)
    (hids : (keptRows state).map (·.1.id) = l.map names) (hl : ∀ k ∈ l, k < n) :
    Fresh names n (keptRows state) := by
  refine ⟨names_injective, fun r hr k hk he => ?_⟩
  have hm : r.1.id ∈ l.map names := hids ▸ mem_map_of_mem hr
  obtain ⟨j, hj, hjr⟩ := mem_map.1 hm
  have := names_injective (hjr.trans he)
  have := hl j hj
  omega

lemma sampleSpan_valid : sampleSpan.state.Valid 7 :=
  (ReadBack.storedAs _ "f").valid
    (Batch.Ready.plan_valid (b := sampleBare) ⟨noChanges_valid 8, names_fresh 0, by decide⟩)

lemma sampleTake_valid : sampleTake.state.Valid 9 :=
  (ReadBack.storedAs _ "g").valid (Batch.Ready.plan_valid (b := sampleSpan)
    ⟨sampleSpan_valid, names_new [0] (by decide) (by decide), by decide⟩)

theorem ownership_not_kept :
    sampleTake.state.Valid 9 ∧ Fresh names 2 (keptRows sampleTake.state) ∧
      FitsFrom 0 9 sampleTake.edits ∧ ¬ sampleTake.OwnershipKept := by
  refine ⟨sampleTake_valid, names_new [0, 1] (by decide) (by decide), by decide, fun h => ?_⟩
  have hemptied : ∃ r ∈ sampleTake.plan.liveChanges, r.1.emptied = true ∧
      ∃ c ∈ sampleTake.state.changes, c.id = r.1.id ∧ c.covers 5 := by decide
  obtain ⟨r, hr, hem, c, hc, hid, hi⟩ := hemptied
  exact (h.emptied r hr hem).2 c hc hid 5 hi (by decide)

theorem ownership_kept_iff_take : sampleTake.OwnershipKept ↔ sampleTake.KeepsSpans :=
  ownership_kept_iff sampleTake sampleTake_valid (names_new [0, 1] (by decide) (by decide))
    (by decide)

end LibrePaper.Track
