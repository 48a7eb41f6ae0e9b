import LibrePaper.Track.Invariant

/-!
# Batches and runs of batches

The loop of `plan_edits` calls `planOne` on valid rows only, so what one edit keeps
a batch keeps. A run is a sequence of batches, each against the rows that the plan
before it left: its removed and emptied rows are gone, and every fragment is stored.
-/
namespace LibrePaper.Track
open Library

/-- The edits are ascending, do not overlap, start at `lo` or later and fit a text of
`n` characters. -/
def FitsFrom (lo n : ℕ) : List Edit → Prop
  | [] => True
  | e :: es => lo ≤ e.fromPos ∧ e.fromPos ≤ e.toPos ∧ e.toPos ≤ n ∧ FitsFrom e.toPos n es

instance decidableFitsFrom (lo n : ℕ) : (es : List Edit) → Decidable (FitsFrom lo n es)
  | [] => inferInstanceAs (Decidable True)
  | e :: es =>
    have := decidableFitsFrom e.toPos n es
    inferInstanceAs (Decidable (_ ∧ _ ∧ _ ∧ _))

def keptRows (state : FileState) : List Row := state.changes.map fun c => (c, .kept)
def keptGaps (state : FileState) : List GapRow := state.gaps.map fun g => (g, .kept)

/-- The state describes pending changes of a text of `n` characters. -/
structure FileState.Valid (n : ℕ) (state : FileState) : Prop where
  rows : Track.Valid n (keptRows state) (keptGaps state)
  live : ∀ c ∈ state.changes, c.emptied = false

/-- The arguments of one call of `plan_edits`. -/
structure Batch where
  fresh : ℕ → String
  before : List Char
  state : FileState
  edits : List Edit
  me : Author
  run : Option String
  now : ℤ
  untracked : Bool
  taken : ℕ

namespace Batch

def plan (b : Batch) : Plan :=
  planEdits b.fresh b.before b.state b.edits b.me b.run b.now b.untracked b.taken

/-- The text after the batch. -/
def text (b : Batch) : List Char :=
  planText b.fresh b.before b.state b.edits b.me b.run b.now b.untracked b.taken

def start (b : Batch) : Progress := startProgress b.before b.state b.taken

def step (b : Batch) (p : Progress) (edit : Edit) : Progress :=
  planStep b.fresh b.state b.me b.run b.now b.untracked p edit

/-- The progress after every edit of the batch. -/
def loop (b : Batch) : Progress := b.edits.foldl b.step b.start

lemma text_eq (b : Batch) : b.text = b.loop.cur := rfl

/-- The call of `planOne` that the loop makes for an edit. -/
def call (b : Batch) (p : Progress) (edit : Edit) : Call where
  fresh := b.fresh
  cur := p.cur
  changes := p.changes
  gaps := p.gaps
  edit := ⟨(edit.fromPos + p.adj).toNat, (edit.toPos + p.adj).toNat, edit.insert⟩
  me := b.me
  run := b.run
  now := b.now
  untracked := b.untracked
  taken := p.taken

/-- The progress after a call. -/
def next (b : Batch) (p : Progress) (edit : Edit) : Progress where
  cur := (b.call p edit).text
  changes := (b.call p edit).rows
  gaps := (b.call p edit).gapRows
  removedChanges := (p.changes.filter fun r => b.state.changes.any (fun c => c.id = r.1.id) &&
    !(b.call p edit).rows.any fun x => x.1.id = r.1.id).foldl
      (fun acc r => noteRemoved ChangeRecord.id acc r.1) p.removedChanges
  removedGaps := (p.gaps.filter fun g => b.state.gaps.any (fun c => c.id = g.1.id) &&
    !(b.call p edit).gapRows.any fun x => x.1.id = g.1.id).foldl
      (fun acc g => noteRemoved Gap.id acc g.1) p.removedGaps
  adj := p.adj + (b.call p edit).edit.len - ((b.call p edit).edit.et - (b.call p edit).edit.ef)
  taken := (b.call p edit).ids

lemma step_eq (b : Batch) (p : Progress) (edit : Edit) :
    b.step p edit = if (b.call p edit).edit.ef = (b.call p edit).edit.et ∧ edit.insert = [] then p
      else b.next p edit := rfl

/-- A batch the planner accepts: a valid state, fresh ids, and edits that fit the text. -/
structure Ready (b : Batch) : Prop where
  valid : b.state.Valid b.before.length
  fresh : Fresh b.fresh b.taken (keptRows b.state)
  fits : FitsFrom 0 b.before.length b.edits

/-- What holds between two edits of a batch, where the edits so far ended at `lo` in the
coordinates of the text before the batch. -/
structure Sound (b : Batch) (lo : ℕ) (p : Progress) : Prop where
  valid : Track.Valid p.cur.length p.changes p.gaps
  fresh : Fresh b.fresh p.taken p.changes
  length : (p.cur.length : ℤ) = b.before.length + p.adj
  reached : 0 ≤ lo + p.adj
  passed : ∀ r ∈ p.changes, r.1.emptied = true → (r.1.toPos : ℤ) ≤ lo + p.adj

variable {b : Batch}

lemma Ready.start (h : b.Ready) : b.Sound 0 b.start where
  valid := h.valid.rows
  fresh := h.fresh
  length := by simp [Batch.start, startProgress]
  reached := by simp [Batch.start, startProgress]
  passed r hr hem := by
    obtain ⟨c, hc, rfl⟩ := List.mem_map.1 hr
    simp [h.valid.live c hc] at hem

variable {lo : ℕ} {p : Progress} {edit : Edit}

lemma Sound.mono {lo' : ℕ} (h : b.Sound lo p) (hlo : lo ≤ lo') : b.Sound lo' p where
  valid := h.valid
  fresh := h.fresh
  length := h.length
  reached := by
    have := h.reached
    omega
  passed r hr hem := by
    have := h.passed r hr hem
    omega

lemma Sound.ready (h : b.Sound lo p) (hlo : lo ≤ edit.fromPos) (hle : edit.fromPos ≤ edit.toPos)
    (hb : edit.toPos ≤ b.before.length) : (b.call p edit).Ready where
  valid := h.valid
  fresh := h.fresh
  fits := by
    have h1 := h.length
    have h2 := h.reached
    constructor <;> simp only [call] <;> omega
  passed r hr hem := by
    have h1 := h.passed r hr hem
    simp only [call]
    omega

lemma Sound.next (h : b.Sound lo p) (hlo : lo ≤ edit.fromPos) (hle : edit.fromPos ≤ edit.toPos)
    (hb : edit.toPos ≤ b.before.length) : b.Sound edit.toPos (b.next p edit) := by
  have hr := h.ready hlo hle hb
  obtain ⟨hvalid, hfresh, hpassed⟩ := hr.step
  have hlen := Call.length_text hr.fits
  have h1 := hr.fits.le
  have h2 := hr.fits.bound
  have h3 := h.length
  have h4 := h.reached
  have het : ((b.call p edit).edit.et : ℤ) = edit.toPos + p.adj := by
    simp only [call]
    omega
  simp only [OneEdit.stop] at hlen hpassed
  refine ⟨hvalid, hfresh, ?_, ?_, fun r hr hem => ?_⟩
  · simp only [Batch.next, hlen]
    simp only [call] at h2 het ⊢
    omega
  · simp only [Batch.next]
    omega
  · have := hpassed r hr hem
    simp only [Batch.next]
    omega

/-- Where the edits end, when the edits before them ended at `lo`. -/
def reach (lo : ℕ) : List Edit → ℕ
  | [] => lo
  | e :: es => reach e.toPos es

lemma fitsFrom_append {n : ℕ} {es es' : List Edit} :
    FitsFrom lo n (es ++ es') ↔ FitsFrom lo n es ∧ FitsFrom (reach lo es) n es' := by
  induction es generalizing lo with
  | nil => simp [FitsFrom, reach]
  | cons e es ih =>
    simp only [List.cons_append, FitsFrom, reach, ih]
    tauto

/-- What one pass of the loop keeps, next to a value `g` that goes along, every sequence of
passes keeps. -/
lemma Sound.fold {γ : Type*} (along : γ → Edit → γ) {motive : ℕ → γ → Progress → Prop}
    (pass : ∀ lo g p edit, b.Sound lo p → lo ≤ edit.fromPos → edit.fromPos ≤ edit.toPos →
      edit.toPos ≤ b.before.length → motive lo g p →
        motive edit.toPos (along g edit) (b.step p edit)) {edits : List Edit} {g : γ}
    (hfits : FitsFrom lo b.before.length edits) (hs : b.Sound lo p) (hm : motive lo g p) :
    b.Sound (reach lo edits) (edits.foldl b.step p) ∧
      motive (reach lo edits) (edits.foldl along g) (edits.foldl b.step p) := by
  induction edits generalizing lo g p with
  | nil => exact ⟨hs, hm⟩
  | cons e edits ih =>
    obtain ⟨hlo, hle, hb, hrest⟩ := hfits
    have hnext : b.Sound e.toPos (b.step p e) := by
      rw [step_eq]
      split
      · exact hs.mono (hlo.trans hle)
      · exact hs.next hlo hle hb
    exact ih hrest hnext (pass lo g p e hs hlo hle hb hm)

/-- What every edit of a batch keeps, the batch keeps. -/
lemma Ready.induct (h : b.Ready) {motive : Progress → Prop} (start : motive b.start)
    (next : ∀ p edit, (b.call p edit).Ready → motive p → motive (b.next p edit)) :
    motive b.loop ∧ ∃ lo, b.Sound lo b.loop := by
  obtain ⟨hs, hm⟩ := Sound.fold (motive := fun _ (_ : Unit) p => motive p) (fun _ _ => ())
    (fun lo _ p edit hs hlo hle hb hm => by
      rw [step_eq]
      split
      · exact hm
      · exact next p edit (hs.ready hlo hle hb) hm)
    h.fits h.start (g := ()) start
  exact ⟨hm, _, hs⟩

end Batch

end LibrePaper.Track
