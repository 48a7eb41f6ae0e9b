import LibrePaper.Source.Session
import LibrePaper.Track.Untracked

/-!
# The text without its suggestions

The projection of a file leaves the pending insertions out and puts the deleted text back. It
keeps the stretches of it that are stored text, and the places of the suggestions. A range of
the projection that touches no suggestion lies in one stretch, and is a range of the stored
text.
-/
namespace LibrePaper.Track
open Library List

/-- The length of a text in bytes. -/
abbrev byteLen (text : List Char) : ℕ := width Char.utf8Size text

/-- A stretch of the projection that is stored text, in bytes. -/
structure Run where
  proj : ℕ
  stored : ℕ
  len : ℕ
deriving DecidableEq

/-- A suggestion in the projection: a deleted text that is put back, or the point of an
insertion that is left out. -/
structure Mark where
  start : ℕ
  stop : ℕ
  change : String
deriving DecidableEq

/-- The text of a file with every pending suggestion undone. -/
structure Unsuggested where
  text : List Char
  runs : List Run
  marks : List Mark
deriving DecidableEq

/-- The change that owns the character at `i` of a text of `n` characters. -/
def ownerAt (changes : List ChangeRecord) (n i : ℕ) : Option String :=
  (changes.find? fun c => !c.orphan && hasSpan c &&
    decide (min c.fromPos n ≤ i) && decide (i < min c.toPos n)).map ChangeRecord.id

/-- What the projection holds so far. `opened` is where the stretch under way begins, in it and
in the stored text. -/
structure Projecting where
  text : List Char
  runs : List Run
  marks : List Mark
  opened : Option (ℕ × ℕ)
deriving DecidableEq

namespace Projecting

def close (s : Projecting) : Projecting :=
  match s.opened with
  | some (proj, stored) => { s with
      opened := none
      runs := if byteLen s.text > proj then s.runs ++ [⟨proj, stored, byteLen s.text - proj⟩]
        else s.runs }
  | none => s

def putBack (s : Projecting) (f : Fragment) : Projecting := { s with
  text := s.text ++ f.text
  marks := s.marks ++ [⟨byteLen s.text, byteLen (s.text ++ f.text), f.change⟩] }

def putGap (s : Projecting) (g : Gap) : Projecting := g.fragments.foldl putBack s.close

/-- The last mark is the point of the same change. -/
def sameMark (s : Projecting) (id : String) : Bool :=
  match s.marks.getLast? with
  | some m => m.start = byteLen s.text && m.stop = byteLen s.text && m.change = id
  | none => false

/-- Leaves a character out. -/
def leaveOut (s : Projecting) (id : String) : Projecting :=
  let s := s.close
  if s.sameMark id then s
  else { s with marks := s.marks ++ [⟨byteLen s.text, byteLen s.text, id⟩] }

/-- Takes a character over, from a byte offset of the stored text. -/
def takeOver (s : Projecting) (byteAt : ℕ) (ch : List Char) : Projecting := { s with
  opened := some (s.opened.getD (byteLen s.text, byteAt))
  text := s.text ++ ch }

/-- One position: the gaps there, then the character. -/
def step (text : List Char) (state : FileState) (s : Projecting) (i : ℕ) : Projecting :=
  let s := (state.gaps.filter fun g => min g.point text.length = i).foldl putGap s
  if i = text.length then s
  else match ownerAt state.changes text.length i with
    | some id => s.leaveOut id
    | none => s.takeOver (byteLen (text.take i)) text[i]?.toList

end Projecting

/-- The text of a file without its pending suggestions. -/
def unsuggested (text : List Char) (state : FileState) : Unsuggested :=
  let s := ((List.range (text.length + 1)).foldl (Projecting.step text state)
    ⟨[], [], [], none⟩).close
  ⟨s.text, s.runs, s.marks⟩

/-- Maps a byte range of the projection to the stored text. Refuses a range that touches a
suggestion, under the id of its change. -/
def Unsuggested.toStored (u : Unsuggested) (start stop : ℕ) : Except String (ℕ × ℕ) :=
  if start > stop ∨ stop > byteLen u.text then .error "range is outside the file"
  else if (boundaryAt Char.utf8Size u.text start).isNone ∨
      (boundaryAt Char.utf8Size u.text stop).isNone then
    .error "range is not on character boundaries"
  else match u.marks.find? fun m => start ≤ m.stop ∧ m.start ≤ stop with
  | some m => .error m.change
  | none =>
    if u.marks.isEmpty then .ok (start, stop)
    else match u.runs.find? fun r => r.proj ≤ start ∧ stop ≤ r.proj + r.len with
    | none => .error "range is outside the file"
    | some r => .ok (r.stored + start - r.proj, r.stored + stop - r.proj)

/-- Edits a text and plans its records without tracking, in UTF-16 offsets. There is no plan
when there are no records to keep in step. -/
def untrackedEdits (fresh : ℕ → String) (taken : ℕ) (text : List Char) (state : FileState)
    (edits : List Anchors.Edit) : Option (List Char × Option Plan) := do
  let planned ← edits.mapM fun e => do
    let first ← boundaryAt Anchors.charLenUtf16 text e.pos
    let last ← boundaryAt Anchors.charLenUtf16 text (e.pos + e.delete)
    pure (Edit.mk first last e.insert)
  let edited ← Source.applyTextEdits text edits
  if state.changes.isEmpty && state.gaps.isEmpty then pure (edited, none)
  else pure (edited, some (planEdits fresh text state planned ⟨"", ""⟩ none 0 true taken))

/-- What reading the records of a file promises. -/
structure FileState.ReadsBack (n : ℕ) (state : FileState) : Prop where
  ordered : ∀ c ∈ state.changes, c.fromPos ≤ c.toPos
  inText : ∀ c ∈ state.changes, c.toPos ≤ n
  live : ∀ c ∈ state.changes, c.emptied = false
  bare : ∀ c ∈ state.changes, c.orphan = true → hasSpan c = false
  points : ∀ g ∈ state.gaps, g.point ≤ n
  filled : ∀ g ∈ state.gaps, g.fragments ≠ []

namespace Projecting

/-- Deleted text is put back at the end of what there is, under marks of its own. -/
structure Grown (s s' : Projecting) (fs : List Fragment) : Prop where
  text : s'.text = s.text ++ deletedText fs
  same : fs = [] → s' = s
  closed : fs ≠ [] → s'.runs = s.close.runs ∧ s'.opened = none
  marks : ∀ m ∈ s.marks, m ∈ s'.marks
  new : ∀ m ∈ s'.marks, m ∈ s.marks ∨ m.start ≤ m.stop
  first : fs ≠ [] → ∃ m ∈ s'.marks, m.start = byteLen s.text
  last : fs ≠ [] → ∃ m ∈ s'.marks, m.stop = byteLen s'.text

variable {s s' s'' : Projecting} {fs fs' : List Fragment}

@[simp] lemma close_text (s : Projecting) : s.close.text = s.text := by
  unfold close
  split <;> rfl

@[simp] lemma close_marks (s : Projecting) : s.close.marks = s.marks := by
  unfold close
  split <;> rfl

@[simp] lemma close_opened (s : Projecting) : s.close.opened = none := by
  unfold close
  split
  · rfl
  · assumption

lemma close_of_closed (h : s.opened = none) : s.close = s := by
  unfold close
  rw [h]

lemma Grown.refl (s : Projecting) : Grown s s [] where
  text := (append_nil _).symm
  same _ := rfl
  closed h := absurd rfl h
  marks _ hm := hm
  new _ hm := .inl hm
  first h := absurd rfl h
  last h := absurd rfl h

lemma Grown.trans (h : Grown s s' fs) (h' : Grown s' s'' fs') : Grown s s'' (fs ++ fs') := by
  by_cases hfs : fs = []
  · subst hfs
    rw [h.same rfl] at h'
    exact h'
  by_cases hfs' : fs' = []
  · subst hfs'
    rw [h'.same rfl, append_nil]
    exact h
  have hopened := (h.closed hfs).2
  exact {
    text := by rw [h'.text, h.text, append_assoc, deletedText_append]
    same := fun hnil => absurd (append_eq_nil_iff.1 hnil).1 hfs
    closed := fun _ => by
      rw [(h'.closed hfs').1, close_of_closed hopened]
      exact ⟨(h.closed hfs).1, (h'.closed hfs').2⟩
    marks := fun m hm => h'.marks m (h.marks m hm)
    new := fun m hm => (h'.new m hm).elim (h.new m) .inr
    first := fun _ => by
      obtain ⟨m, hm, hstart⟩ := h.first hfs
      exact ⟨m, h'.marks m hm, hstart⟩
    last := fun _ => h'.last hfs' }

lemma grown_putBack (h : s.opened = none) (f : Fragment) : Grown s (s.putBack f) [f] where
  text := by simp [putBack, deletedText]
  same := nofun
  closed _ := by
    rw [close_of_closed h]
    exact ⟨rfl, h⟩
  marks m hm := mem_append_left _ hm
  new m hm := by
    refine (mem_append.1 hm).imp_right fun hnew => ?_
    rw [mem_singleton.1 hnew]
    simp only [byteLen, width_append]
    omega
  first _ := ⟨_, mem_append_right _ mem_cons_self, rfl⟩
  last _ := ⟨_, mem_append_right _ mem_cons_self, rfl⟩

lemma grown_foldl_putBack (h : s.opened = none) (fs : List Fragment) :
    Grown s (fs.foldl putBack s) fs := by
  induction fs generalizing s with
  | nil => exact .refl s
  | cons f fs ih => exact (grown_putBack h f).trans (ih h)

lemma grown_putGap (s : Projecting) {g : Gap} (hg : g.fragments ≠ []) :
    Grown s (s.putGap g) g.fragments := by
  have h := grown_foldl_putBack s.close_opened g.fragments
  exact {
    text := by rw [putGap, h.text, close_text]
    same := fun hnil => absurd hnil hg
    closed := fun hne => by
      rw [putGap, (h.closed hne).1, close_of_closed s.close_opened]
      exact ⟨rfl, (h.closed hne).2⟩
    marks := fun m hm => h.marks m (s.close_marks ▸ hm)
    new := fun m hm => (h.new m hm).imp_left fun hm => s.close_marks ▸ hm
    first := fun hne => by
      obtain ⟨m, hm, hstart⟩ := h.first hne
      exact ⟨m, hm, by rw [hstart, close_text]⟩
    last := h.last }

lemma grown_foldl_putGap (s : Projecting) {gaps : List Gap}
    (hgaps : ∀ g ∈ gaps, g.fragments ≠ []) :
    Grown s (gaps.foldl putGap s) (gaps.flatMap Gap.fragments) := by
  induction gaps generalizing s with
  | nil => exact .refl s
  | cons g gaps ih =>
    exact (grown_putGap s (hgaps g mem_cons_self)).trans
      (ih (s.putGap g) fun g hg => hgaps g (mem_cons_of_mem _ hg))

end Projecting

section Projection

variable {text : List Char} {state : FileState} {s : Projecting} {i : ℕ}

/-- What the projection holds before the position `i`. -/
def projected (text : List Char) (state : FileState) (i : ℕ) : List Char :=
  joinRange (rejectedAt text (keptRows state) (keptGaps state)) 0 i

/-- The deleted text at the position `i`. -/
def putBackAt (state : FileState) (i : ℕ) : List Char :=
  deletedText (fragmentsAt (keptGaps state) i)

lemma projected_succ (text : List Char) (state : FileState) (i : ℕ) :
    projected text state (i + 1) = projected text state i ++ putBackAt state i ++
      originalAt text (keptRows state) i := by
  rw [projected, joinRange_succ_right _ (Nat.zero_le i), rejectedAt, ← append_assoc]
  rfl

/-- A stretch of the stored text without suggestions inside it. -/
structure Stretch (text : List Char) (state : FileState) (a b : ℕ) : Prop where
  lt : a < b
  le : b ≤ text.length
  free : ∀ j, a ≤ j → j < b → ¬ Covered (keptRows state) j
  closed : ∀ g ∈ state.gaps, ¬ (a < g.point ∧ g.point < b)

lemma putBackAt_eq_nil (h : ∀ g ∈ state.gaps, g.point ≠ i) : putBackAt state i = [] := by
  have hnil : fragmentsAt (keptGaps state) i = [] := by
    refine fragmentsAt_eq_nil fun hi => ?_
    obtain ⟨g, hg, hpoint⟩ := mem_points.1 hi
    obtain ⟨g', hg', rfl⟩ := mem_map.1 hg
    exact h g' hg' hpoint
  rw [putBackAt, hnil]
  rfl

variable {a b u : ℕ} {α : Type*} {w : α → ℕ} {l : List α} {p r t : List Char}

/-- The projection runs along a stretch. -/
lemma Stretch.along (h : Stretch text state a b) :
    projected text state b =
      projected text state a ++ putBackAt state a ++ (text.take b).drop a := by
  obtain ⟨hlt, hle, hfree, hclosed⟩ := h
  induction b with
  | zero => exact absurd hlt (Nat.not_lt_zero a)
  | succ b ih =>
    have horiginal : originalAt text (keptRows state) b = [text[b]] := by
      rw [originalAt, if_neg (hfree b (Nat.lt_succ_iff.1 hlt) (Nat.lt_succ_self b)),
        getElem?_eq_getElem hle]
      rfl
    have htake : text.take (b + 1) = text.take b ++ [text[b]] := by
      rw [take_add_one, getElem?_eq_getElem hle]
      rfl
    rcases (Nat.lt_succ_iff.1 hlt).eq_or_lt with rfl | hlt
    · rw [projected_succ, horiginal, htake, drop_left' (by simp; omega)]
    · have hnone : putBackAt state b = [] := putBackAt_eq_nil fun g hg hpoint =>
        hclosed g hg ⟨by omega, by omega⟩
      rw [projected_succ, ih hlt (Nat.le_of_succ_le hle) (fun j hj hjb => hfree j hj (by omega))
        (fun g hg hg' => hclosed g hg ⟨hg'.1, by omega⟩), hnone, horiginal, htake,
        drop_append_of_le_length (by simp; omega), append_nil, append_assoc]

/-- The run of a stretch. -/
def runOf (text : List Char) (state : FileState) (a b : ℕ) : Run where
  proj := byteLen (projected text state a ++ putBackAt state a)
  stored := byteLen (text.take a)
  len := byteLen ((text.take b).drop a)

/-- What marks, runs and an opened stretch say of the characters before `i` and of the gaps
before `k`. -/
structure Marking (text : List Char) (state : FileState) (i k : ℕ) (s : Projecting) : Prop where
  ordered : ∀ m ∈ s.marks, m.start ≤ m.stop
  first : ∀ g ∈ state.gaps, g.point < k →
    ∃ m ∈ s.marks, m.start = byteLen (projected text state g.point)
  last : ∀ g ∈ state.gaps, g.point < k → ∃ m ∈ s.marks,
    m.stop = byteLen (projected text state g.point ++ putBackAt state g.point)
  left : ∀ j, j < i → Covered (keptRows state) j → ∃ m ∈ s.marks,
    m.start = byteLen (projected text state (j + 1)) ∧
      m.stop = byteLen (projected text state (j + 1))
  runs : ∀ r ∈ s.runs, ∃ a b, Stretch text state a b ∧ r = runOf text state a b
  opened : ∀ o, s.opened = some o → ∃ a, Stretch text state a i ∧
    (k ≤ i ∨ ∀ g ∈ state.gaps, g.point ≠ i) ∧
    o = (byteLen (projected text state a ++ putBackAt state a), byteLen (text.take a))

/-- What the loop has at the beginning of a position. -/
structure Before (text : List Char) (state : FileState) (i : ℕ) (s : Projecting) : Prop where
  held : s.text = projected text state i
  marked : Marking text state i i s

/-- What the loop has after the gaps of a position. -/
structure Between (text : List Char) (state : FileState) (i : ℕ) (s : Projecting) : Prop where
  held : s.text = projected text state i ++ putBackAt state i
  marked : Marking text state i (i + 1) s

lemma Marking.close {k : ℕ} (h : Marking text state i k s)
    (htext : s.opened ≠ none → s.text = projected text state i) :
    Marking text state i k s.close where
  ordered m hm := h.ordered m (s.close_marks ▸ hm)
  first := by
    rw [s.close_marks]
    exact h.first
  last := by
    rw [s.close_marks]
    exact h.last
  left := by
    rw [s.close_marks]
    exact h.left
  runs r hr := by
    unfold Projecting.close at hr
    split at hr
    next proj stored hopened =>
      obtain ⟨a, hstretch, -, hat⟩ := h.opened _ hopened
      have hs := htext (by rw [hopened]; exact Option.some_ne_none _)
      rw [Prod.mk.injEq] at hat
      dsimp only at hr
      split at hr
      · rcases mem_append.1 hr with hr | hr
        · exact h.runs r hr
        · refine ⟨a, i, hstretch, ?_⟩
          rw [mem_singleton.1 hr, hat.1, hat.2, hs, hstretch.along, runOf]
          congr 1
          simp only [byteLen, width_append]
          omega
      · exact h.runs r hr
    · exact h.runs r hr
  opened o ho := by
    rw [s.close_opened] at ho
    exact absurd ho nofun

lemma gapFragments (state : FileState) (i : ℕ) :
    (state.gaps.filter fun g => g.point = i).flatMap Gap.fragments =
      fragmentsAt (keptGaps state) i := by
  simp only [fragmentsAt_records, keptGaps, map_map, Function.comp_def, map_id']

/-- The gaps of a position are put back before its character. -/
lemma Before.gaps (h : Before text state i s) (hstate : state.ReadsBack text.length) :
    Between text state i
      ((state.gaps.filter fun g => min g.point text.length = i).foldl Projecting.putGap s) := by
  have hfilter : (state.gaps.filter fun g => min g.point text.length = i) =
      state.gaps.filter fun g => g.point = i := by
    refine filter_congr fun g hg => ?_
    rw [min_eq_left (hstate.points g hg)]
  have hfilled : ∀ g ∈ state.gaps.filter (fun g => g.point = i), g.fragments ≠ [] :=
    fun g hg => hstate.filled g (mem_filter.1 hg).1
  have hgrown := Projecting.grown_foldl_putGap s hfilled
  rw [hfilter]
  rw [gapFragments] at hgrown
  generalize (state.gaps.filter fun g => g.point = i).foldl Projecting.putGap s = s' at hgrown
  have hat : ∀ g ∈ state.gaps, g.point = i → fragmentsAt (keptGaps state) i ≠ [] := by
    intro g hg hpoint hnil
    rw [← gapFragments] at hnil
    exact hstate.filled g hg (flatMap_eq_nil_iff.1 hnil g
      (mem_filter.2 ⟨hg, decide_eq_true hpoint⟩))
  have hbefore : ∀ g ∈ state.gaps, g.point < i + 1 → g.point < i ∨ g.point = i :=
    fun _ _ => Nat.lt_succ_iff_lt_or_eq.1
  by_cases hnone : fragmentsAt (keptGaps state) i = []
  · have hfree : ∀ g ∈ state.gaps, g.point ≠ i := fun g hg hpoint => hat g hg hpoint hnone
    have hlt : ∀ g ∈ state.gaps, g.point < i + 1 → g.point < i := fun g hg hgi =>
      (hbefore g hg hgi).resolve_right (hfree g hg)
    rw [hgrown.same hnone]
    exact {
      held := by rw [putBackAt_eq_nil hfree, append_nil, h.held]
      marked := {
        ordered := h.marked.ordered
        first := fun g hg hgi => h.marked.first g hg (hlt g hg hgi)
        last := fun g hg hgi => h.marked.last g hg (hlt g hg hgi)
        left := h.marked.left
        runs := h.marked.runs
        opened := fun o ho => by
          obtain ⟨a, hstretch, -, hat⟩ := h.marked.opened o ho
          exact ⟨a, hstretch, .inr hfree, hat⟩ } }
  · obtain ⟨hruns, hopened⟩ := hgrown.closed hnone
    have hclose := h.marked.close fun _ => h.held
    have hheld : s'.text = projected text state i ++ putBackAt state i := by
      rw [hgrown.text, h.held]
      rfl
    refine ⟨hheld, ?_⟩
    exact {
      ordered := fun m hm => (hgrown.new m hm).elim (h.marked.ordered m) id
      first := fun g hg hgi => by
        rcases hbefore g hg hgi with hlt | heq
        · obtain ⟨m, hm, hstart⟩ := h.marked.first g hg hlt
          exact ⟨m, hgrown.marks m hm, hstart⟩
        · rw [heq, ← h.held]
          exact hgrown.first hnone
      last := fun g hg hgi => by
        rcases hbefore g hg hgi with hlt | heq
        · obtain ⟨m, hm, hstop⟩ := h.marked.last g hg hlt
          exact ⟨m, hgrown.marks m hm, hstop⟩
        · rw [heq, ← hheld]
          exact hgrown.last hnone
      left := fun j hj hcov => by
        obtain ⟨m, hm, hpoint⟩ := h.marked.left j hj hcov
        exact ⟨m, hgrown.marks m hm, hpoint⟩
      runs := fun r hr => hclose.runs r (hruns ▸ hr)
      opened := fun o ho => absurd (hopened.symm.trans ho) nofun }

lemma covered_keptRows {j : ℕ} :
    Covered (keptRows state) j ↔ ∃ c ∈ state.changes, c.covers j := by
  simp [Covered, keptRows]

/-- A pending insertion owns the characters of its span. -/
lemma ownerAt_isSome (hstate : state.ReadsBack text.length) (hi : i < text.length) :
    (ownerAt state.changes text.length i).isSome ↔ Covered (keptRows state) i := by
  rw [covered_keptRows, ownerAt, Option.isSome_map, find?_isSome]
  refine exists_congr fun c => and_congr_right fun hc => ?_
  have hto := hstate.inText c hc
  simp only [Bool.and_eq_true, Bool.not_eq_true', decide_eq_true_eq, min_eq_left hto,
    ChangeRecord.covers]
  constructor
  · rintro ⟨⟨-, hfrom⟩, hlt⟩
    exact ⟨by omega, hlt⟩
  · rintro ⟨hfrom, hlt⟩
    have hspan : hasSpan c = true := (hasSpan_iff c).2 (by omega)
    refine ⟨⟨⟨?_, hspan⟩, by omega⟩, hlt⟩
    by_contra horphan
    rw [hstate.bare c hc (by simpa using horphan)] at hspan
    exact Bool.false_ne_true hspan

lemma Marking.more {k : ℕ} (h : Marking text state i k s) {m : Mark} (hm : m.start ≤ m.stop) :
    Marking text state i k { s with marks := s.marks ++ [m] } where
  ordered m' hm' := (mem_append.1 hm').elim (h.ordered m') fun hnew =>
    mem_singleton.1 hnew ▸ hm
  first g hg hgk := by
    obtain ⟨m', hm', hstart⟩ := h.first g hg hgk
    exact ⟨m', mem_append_left _ hm', hstart⟩
  last g hg hgk := by
    obtain ⟨m', hm', hstop⟩ := h.last g hg hgk
    exact ⟨m', mem_append_left _ hm', hstop⟩
  left j hj hcov := by
    obtain ⟨m', hm', hpoint⟩ := h.left j hj hcov
    exact ⟨m', mem_append_left _ hm', hpoint⟩
  runs := h.runs
  opened := h.opened

/-- A position whose character is left out has a mark. -/
lemma Marking.next (h : Marking text state i (i + 1) s) (hopened : s.opened = none)
    (hleft : ∃ m ∈ s.marks, m.start = byteLen (projected text state (i + 1)) ∧
      m.stop = byteLen (projected text state (i + 1))) : Marking text state (i + 1) (i + 1) s where
  ordered := h.ordered
  first := h.first
  last := h.last
  left j hj hcov := by
    rcases Nat.lt_succ_iff_lt_or_eq.1 hj with hlt | rfl
    · exact h.left j hlt hcov
    · exact hleft
  runs := h.runs
  opened o ho := absurd (hopened.symm.trans ho) nofun

lemma Between.held_of_opened (h : Between text state i s) (hopened : s.opened ≠ none) :
    s.text = projected text state i := by
  obtain ⟨o, ho⟩ := Option.ne_none_iff_exists'.1 hopened
  obtain ⟨a, -, hfree, -⟩ := h.marked.opened o ho
  rw [h.held, putBackAt_eq_nil (hfree.resolve_left (by omega)), append_nil]

/-- A character of a pending insertion is left out. -/
lemma Between.leaveOut (h : Between text state i s) (hcov : Covered (keptRows state) i)
    (id : String) : Before text state (i + 1) (s.leaveOut id) := by
  have hnext : s.close.text = projected text state (i + 1) := by
    rw [s.close_text, projected_succ, originalAt_covered hcov, append_nil, h.held]
  have hclose := h.marked.close h.held_of_opened
  unfold Projecting.leaveOut
  dsimp only
  split
  next hsame =>
    refine ⟨hnext, hclose.next s.close_opened ?_⟩
    unfold Projecting.sameMark at hsame
    split at hsame
    next m hlast =>
      simp only [Bool.and_eq_true, decide_eq_true_eq] at hsame
      rw [hnext] at hsame
      exact ⟨m, mem_of_getLast? hlast, hsame.1⟩
    · exact absurd hsame Bool.false_ne_true
  · refine ⟨hnext, (hclose.more le_rfl).next s.close_opened ?_⟩
    exact ⟨_, mem_append_right _ mem_cons_self, by rw [hnext], by rw [hnext]⟩

/-- An original character is taken over. -/
lemma Between.takeOver (h : Between text state i s) (hi : i < text.length)
    (hcov : ¬ Covered (keptRows state) i) :
    Before text state (i + 1) (s.takeOver (byteLen (text.take i)) text[i]?.toList) where
  held := by
    rw [projected_succ, originalAt, if_neg hcov, ← h.held]
    rfl
  marked := {
    ordered := h.marked.ordered
    first := h.marked.first
    last := h.marked.last
    left := fun j hj hcovj => by
      rcases Nat.lt_succ_iff_lt_or_eq.1 hj with hlt | rfl
      · exact h.marked.left j hlt hcovj
      · exact absurd hcovj hcov
    runs := h.marked.runs
    opened := fun o ho => by
      unfold Projecting.takeOver at ho
      cases ho
      cases hopened : s.opened with
      | none =>
        rw [Option.getD_none, h.held]
        refine ⟨i, ⟨Nat.lt_succ_self i, hi, fun j hij hji => ?_, fun g _ hg => ?_⟩,
          .inl le_rfl, rfl⟩
        · obtain rfl : j = i := by omega
          exact hcov
        · omega
      | some o =>
        obtain ⟨a, hstretch, hfree, hat⟩ := h.marked.opened o hopened
        have hfree := hfree.resolve_left (by omega)
        refine ⟨a, ⟨Nat.lt_succ_of_lt hstretch.lt, hi, fun j haj hji => ?_, fun g hg hgi => ?_⟩,
          .inl le_rfl, hat⟩
        · rcases Nat.lt_succ_iff_lt_or_eq.1 hji with hlt | rfl
          · exact hstretch.free j haj hlt
          · exact hcov
        · have hne := hfree g hg
          exact hstretch.closed g hg ⟨hgi.1, by omega⟩ }

lemma Before.step (h : Before text state i s) (hstate : state.ReadsBack text.length)
    (hi : i < text.length) : Before text state (i + 1) (s.step text state i) := by
  have hbetween := h.gaps hstate
  have howner := ownerAt_isSome hstate hi
  unfold Projecting.step
  dsimp only
  rw [if_neg (Nat.ne_of_lt hi)]
  split
  next id hid => exact hbetween.leaveOut (howner.1 (by rw [hid]; rfl)) id
  next hnone =>
    refine hbetween.takeOver hi fun hcov => ?_
    have hsome := howner.2 hcov
    rw [hnone] at hsome
    exact Bool.false_ne_true hsome

lemma before_foldl (hstate : state.ReadsBack text.length) (hi : i ≤ text.length) :
    Before text state i ((range i).foldl (Projecting.step text state) ⟨[], [], [], none⟩) := by
  induction i with
  | zero => exact ⟨rfl, nofun, fun g _ hg => absurd hg (Nat.not_lt_zero _),
      fun g _ hg => absurd hg (Nat.not_lt_zero _), fun j hj => absurd hj (Nat.not_lt_zero _),
      nofun, nofun⟩
  | succ i ih =>
    rw [range_succ, foldl_append]
    exact (ih (Nat.le_of_succ_le hi)).step hstate hi

lemma originalAt_end (text : List Char) (rows : List Row) :
    originalAt text rows text.length = [] := by
  rw [originalAt]
  split <;> simp

/-- The projection is the text with everything rejected, and its marks and runs are those of
the suggestions and of the stretches between them. -/
lemma unsuggested_spec (hstate : state.ReadsBack text.length) :
    (unsuggested text state).text = state.rejectAll text ∧
      Marking text state text.length (text.length + 1)
        ⟨(unsuggested text state).text, (unsuggested text state).runs,
          (unsuggested text state).marks, none⟩ := by
  have hbefore := before_foldl hstate le_rfl
  have hbetween := hbefore.gaps hstate
  have hlast : ((range (text.length + 1)).foldl (Projecting.step text state)
      ⟨[], [], [], none⟩) = (state.gaps.filter fun g => min g.point text.length =
        text.length).foldl Projecting.putGap ((range text.length).foldl
          (Projecting.step text state) ⟨[], [], [], none⟩) := by
    rw [range_succ, foldl_append, foldl_cons, foldl_nil, Projecting.step,
      if_pos rfl]
  have hclose := hbetween.marked.close hbetween.held_of_opened
  unfold unsuggested
  dsimp only
  rw [hlast]
  refine ⟨?_, ?_⟩
  · rw [Projecting.close_text, hbetween.held]
    refine (append_nil _).symm.trans ?_
    rw [← originalAt_end text (keptRows state), ← projected_succ]
    rfl
  · exact {
      ordered := hclose.ordered
      first := hclose.first
      last := hclose.last
      left := hclose.left
      runs := hclose.runs
      opened := nofun }

lemma two_boundaries (hw : ∀ a, 0 < w a) {v : ℕ} (hu : Boundary w l u) (hv : Boundary w l v)
    (hle : u ≤ v) : ∃ p r t, l = p ++ r ++ t ∧ width w p = u ∧ width w (p ++ r) = v := by
  obtain ⟨p, q, rfl, rfl⟩ := hu
  obtain ⟨p', t, hsplit, rfl⟩ := hv
  obtain ⟨r, rfl, rfl⟩ := append_split hw hsplit hle
  exact ⟨p, r, t, (append_assoc ..).symm, rfl, rfl⟩

lemma boundary_of_isSome (h : (boundaryAt w l u).isSome) : Boundary w l u := by
  obtain ⟨i, hi⟩ := Option.isSome_iff_exists.1 h
  exact ⟨l.take i, l.drop i, (take_append_drop i l).symm, boundaryAt_some hi⟩

/-- The range between two offsets of the stored text is apart from every suggestion. -/
structure Apart (text : List Char) (state : FileState) (a b : ℕ) : Prop where
  le : a ≤ b
  bound : b ≤ text.length
  gaps : ∀ g ∈ state.gaps, ¬ (a ≤ g.point ∧ g.point ≤ b)
  spans : ∀ c ∈ state.changes, hasSpan c = true → ¬ (c.fromPos ≤ b ∧ a ≤ c.toPos)

variable {start stop : ℕ}

/-- The stored text up to a place in a stretch. -/
lemma Stretch.take (h : Stretch text state a b) (hsplit : (text.take b).drop a = p ++ r ++ t) :
    text.take (a + p.length) = text.take a ++ p ∧
      text.take (a + (p ++ r).length) = text.take a ++ (p ++ r) := by
  have hlong : text = text.take a ++ (p ++ r ++ t ++ text.drop b) := by
    have hfront : text.take b = text.take a ++ (p ++ r ++ t) := by
      rw [← hsplit]
      have htake : (text.take b).take a = text.take a := by rw [List.take_take, min_eq_left h.lt.le]
      rw [← htake, List.take_append_drop]
    rw [← List.append_assoc, ← hfront, List.take_append_drop]
  have hlen : (text.take a).length = a := by
    have hlt := h.lt
    have hle := h.le
    rw [List.length_take]
    omega
  have hfront : ∀ q s : List Char, text = text.take a ++ (q ++ s) →
      text.take (a + q.length) = text.take a ++ q := by
    intro q s hq
    calc text.take (a + q.length)
        = (text.take a ++ q ++ s).take (a + q.length) :=
          congrArg (List.take _) (hq.trans (List.append_assoc ..).symm)
      _ = text.take a ++ q := List.take_left' (by rw [List.length_append, hlen])
  refine ⟨hfront p (r ++ t ++ text.drop b) ?_, hfront (p ++ r) (t ++ text.drop b) ?_⟩
  · conv_lhs => rw [hlong]
    simp
  · conv_lhs => rw [hlong]
    simp

/-- The projection up to a place in a stretch. -/
lemma Stretch.projected_take (h : Stretch text state a b)
    (hgaps : ∀ g ∈ state.gaps, ¬ (a + p.length ≤ g.point ∧ g.point ≤ a + (p ++ r).length))
    (hsplit : (text.take b).drop a = p ++ r ++ t) :
    projected text state (a + p.length) = projected text state a ++ putBackAt state a ++ p := by
  have hle := h.le
  have hlen : (text.take a).length = a := by
    have hlt := h.lt
    rw [length_take]
    omega
  rcases Nat.eq_zero_or_pos p.length with hzero | hpos
  · obtain rfl := length_eq_zero_iff.1 hzero
    have hnone : putBackAt state a = [] := putBackAt_eq_nil fun g hg hpoint =>
      hgaps g hg ⟨by simp [hpoint], by omega⟩
    rw [hnone, append_nil, append_nil, length_nil, Nat.add_zero]
  · have hlong := congrArg length hsplit
    simp only [length_drop, length_take, length_append] at hlong
    have hpart : Stretch text state a (a + p.length) := ⟨by omega, by omega,
      fun j hj hj' => h.free j hj (by omega), fun g hg hg' => h.closed g hg ⟨hg'.1, by omega⟩⟩
    rw [hpart.along, (h.take hsplit).1, drop_left' hlen]

/-- A range inside a stretch that touches no mark is apart from every suggestion. -/
lemma Stretch.apart {u : Projecting} (h : Stretch text state a b)
    (hstate : state.ReadsBack text.length)
    (hmarked : Marking text state text.length (text.length + 1) u) (hle : start ≤ stop)
    (hfree : ∀ m ∈ u.marks, ¬ (start ≤ m.stop ∧ m.start ≤ stop))
    (hsplit : (text.take b).drop a = p ++ r ++ t)
    (hstart : start = byteLen (projected text state a ++ putBackAt state a ++ p))
    (hstop : stop = byteLen (projected text state a ++ putBackAt state a ++ (p ++ r))) :
    Apart text state (a + p.length) (a + (p ++ r).length) := by
  have hlt := h.lt
  have hlen : b - a = (p ++ r).length + t.length := by
    have hlengths := congrArg length hsplit
    rw [length_append] at hlengths
    rw [← hlengths, length_drop, length_take, min_eq_left h.le]
  have hpr : p.length ≤ (p ++ r).length := by rw [length_append]; omega
  have hgaps : ∀ g ∈ state.gaps, ¬ (a + p.length ≤ g.point ∧ g.point ≤ a + (p ++ r).length) := by
    rintro g hg ⟨hfrom, hto⟩
    have hpoint := hstate.points g hg
    rcases (show a ≤ g.point by omega).eq_or_lt with heq | hlt
    · obtain ⟨m, hm, hm'⟩ := hmarked.last g hg (by omega)
      have hp : p = [] := length_eq_zero_iff.1 (by omega)
      rw [← heq] at hm'
      rw [hp, append_nil, ← hm'] at hstart
      have hordered := hmarked.ordered m hm
      exact hfree m hm ⟨hstart.le, by omega⟩
    · rcases (show g.point ≤ b by omega).eq_or_lt with heq' | hlt'
      · obtain ⟨m, hm, hm'⟩ := hmarked.first g hg (by omega)
        have ht : t = [] := length_eq_zero_iff.1 (by omega)
        rw [ht, append_nil] at hsplit
        rw [heq', h.along, hsplit, ← hstop] at hm'
        have hordered := hmarked.ordered m hm
        exact hfree m hm ⟨by omega, hm'.le⟩
      · exact h.closed g hg ⟨hlt, hlt'⟩
  refine ⟨by omega, by have := h.le; omega, hgaps, fun c hc hspan => ?_⟩
  rintro ⟨hfrom, hto⟩
  have hends := (hasSpan_iff c).1 hspan
  have hinText := hstate.inText c hc
  have hcovers : ∀ j, c.fromPos ≤ j → j < c.toPos → Covered (keptRows state) j :=
    fun j hj hj' => covered_keptRows.2 ⟨c, hc, hj, hj'⟩
  by_cases hbefore : c.toPos ≤ a
  · have hp : p = [] := length_eq_zero_iff.1 (by omega)
    have hnone : putBackAt state a = [] := putBackAt_eq_nil fun g hg hpoint =>
      hgaps g hg ⟨by omega, by omega⟩
    obtain ⟨m, hm, hm', hm''⟩ := hmarked.left (a - 1) (by omega) (hcovers _ (by omega) (by omega))
    rw [show a - 1 + 1 = a by omega] at hm' hm''
    rw [hp, hnone, append_nil, append_nil] at hstart
    exact hfree m hm ⟨by omega, by omega⟩
  · by_cases hafter : b ≤ c.fromPos
    · have ht : t = [] := length_eq_zero_iff.1 (by omega)
      have hb : c.fromPos = b := by omega
      have hnone : putBackAt state b = [] := putBackAt_eq_nil fun g hg hpoint =>
        hgaps g hg ⟨by omega, by omega⟩
      have hcov := hcovers b (by omega) (by omega)
      obtain ⟨m, hm, hm', hm''⟩ := hmarked.left b (by omega) hcov
      rw [projected_succ, originalAt_covered hcov, hnone, append_nil, append_nil,
        h.along, hsplit, ht, append_nil, ← hstop] at hm' hm''
      exact hfree m hm ⟨by omega, by omega⟩
    · exact h.free (max a c.fromPos) (by omega) (by omega)
        (hcovers _ (by omega) (by omega))

/-- Without suggestions the projection is the stored text. -/
lemma projected_plain (hgaps : ∀ g ∈ state.gaps, False)
    (hcov : ∀ j, j < text.length → ¬ Covered (keptRows state) j) (hi : i ≤ text.length) :
    projected text state i = text.take i := by
  have hnone : ∀ j, putBackAt state j = [] := fun j =>
    putBackAt_eq_nil fun g hg => (hgaps g hg).elim
  rcases Nat.eq_zero_or_pos i with rfl | hpos
  · rfl
  · have hstretch : Stretch text state 0 i := ⟨hpos, hi, fun j _ hj => hcov j (by omega),
      fun g hg => (hgaps g hg).elim⟩
    rw [hstretch.along, hnone, append_nil, drop_zero]
    rfl

lemma rejectAll_plain (hgaps : ∀ g ∈ state.gaps, False)
    (hcov : ∀ j, j < text.length → ¬ Covered (keptRows state) j) :
    state.rejectAll text = text := by
  have hlast : state.rejectAll text = projected text state (text.length + 1) := rfl
  rw [hlast, projected_succ, originalAt_end, putBackAt_eq_nil fun g hg => (hgaps g hg).elim,
    projected_plain hgaps hcov le_rfl, take_length, append_nil, append_nil]

/-- An accepted range of the projection is a range of the stored text, apart from every
suggestion. -/
lemma toStored_some (hstate : state.ReadsBack text.length) {stored : ℕ × ℕ}
    (h : (unsuggested text state).toStored start stop = .ok stored) :
    ∃ a b, Apart text state a b ∧ stored = (byteLen (text.take a), byteLen (text.take b)) ∧
      start = byteLen (projected text state a) ∧
      stop = byteLen (projected text state a ++ (text.take b).drop a) := by
  obtain ⟨htext, hmarked⟩ := unsuggested_spec hstate
  unfold Unsuggested.toStored at h
  split at h
  · exact absurd h nofun
  next hbounds =>
  split at h
  · exact absurd h nofun
  next hboundaries =>
  split at h
  · exact absurd h nofun
  next hfind =>
  have hle : start ≤ stop := by omega
  have hfree : ∀ m ∈ (unsuggested text state).marks, ¬ (start ≤ m.stop ∧ m.start ≤ stop) :=
    fun m hm => by simpa using find?_eq_none.1 hfind m hm
  have hstart : Boundary Char.utf8Size (unsuggested text state).text start :=
    boundary_of_isSome (Option.isSome_iff_ne_none.2 fun hnone =>
      hboundaries (.inl (by rw [hnone]; rfl)))
  have hstop : Boundary Char.utf8Size (unsuggested text state).text stop :=
    boundary_of_isSome (Option.isSome_iff_ne_none.2 fun hnone =>
      hboundaries (.inr (by rw [hnone]; rfl)))
  rw [htext] at hstart hstop
  split at h
  next hempty =>
    have hnil : (unsuggested text state).marks = [] := isEmpty_iff.1 hempty
    have hgaps : ∀ g ∈ state.gaps, False := fun g hg => by
      obtain ⟨m, hm, -⟩ := hmarked.first g hg (Nat.lt_succ_of_le (hstate.points g hg))
      exact absurd (hnil ▸ hm) not_mem_nil
    have hcov : ∀ j, j < text.length → ¬ Covered (keptRows state) j := fun j hj hcov => by
      obtain ⟨m, hm, -⟩ := hmarked.left j hj hcov
      exact absurd (hnil ▸ hm) not_mem_nil
    have hplain := fun i (hi : i ≤ text.length) => projected_plain hgaps hcov hi
    have hall : state.rejectAll text = text := rejectAll_plain hgaps hcov
    rw [hall] at hstart hstop
    obtain ⟨p, r, t, rfl, rfl, rfl⟩ := two_boundaries Char.utf8Size_pos hstart hstop hle
    refine ⟨p.length, (p ++ r).length, ⟨by simp, by simp, fun g hg => (hgaps g hg).elim,
      fun c hc hspan => ?_⟩, ?_, ?_, ?_⟩
    · have hends := (hasSpan_iff c).1 hspan
      have hinText := hstate.inText c hc
      exact (hcov c.fromPos (by omega) (covered_keptRows.2 ⟨c, hc, le_rfl, hends⟩)).elim
    · rw [← Except.ok.inj h, take_left, append_assoc, take_left]
    · rw [hplain _ (by simp), append_assoc, take_left]
    · rw [hplain _ (by simp), take_left, append_assoc, take_left, drop_left]
  · split at h
    · exact absurd h nofun
    next run hrun =>
      obtain ⟨a, b, hstretch, rfl⟩ := hmarked.runs run (mem_of_find?_eq_some hrun)
      have hwithin : (runOf text state a b).proj ≤ start ∧
          stop ≤ (runOf text state a b).proj + (runOf text state a b).len := by
        simpa using find?_some hrun
      have hlong : state.rejectAll text =
          projected text state a ++ putBackAt state a ++ ((text.take b).drop a ++
            joinRange (rejectedAt text (keptRows state) (keptGaps state)) b (text.length + 1)) := by
        rw [← append_assoc, ← hstretch.along]
        exact (joinRange_append _ (Nat.zero_le b) (Nat.le_succ_of_le hstretch.le)).symm
      rw [hlong] at hstart hstop
      have hlen : (runOf text state a b).len = width Char.utf8Size ((text.take b).drop a) := rfl
      obtain ⟨x, rfl⟩ := Nat.exists_eq_add_of_le hwithin.1
      obtain ⟨y, rfl⟩ := Nat.exists_eq_add_of_le (hwithin.1.trans hle)
      have hx := (hstart.of_ge Char.utf8Size_pos).of_le Char.utf8Size_pos (by omega)
      have hy := (hstop.of_ge Char.utf8Size_pos).of_le Char.utf8Size_pos (by omega)
      obtain ⟨p, r, t, hsplit, rfl, rfl⟩ := two_boundaries Char.utf8Size_pos hx hy (by omega)
      have hapart := hstretch.apart hstate hmarked hle hfree hsplit
        (width_append Char.utf8Size _ p).symm (width_append Char.utf8Size _ (p ++ r)).symm
      obtain ⟨hp, hpr⟩ := hstretch.take hsplit
      refine ⟨_, _, hapart, ?_, ?_, ?_⟩
      · rw [← Except.ok.inj h, hp, hpr]
        simp only [runOf, byteLen, width_append, Prod.mk.injEq]
        omega
      · rw [hstretch.projected_take hapart.gaps hsplit]
        exact (width_append Char.utf8Size _ p).symm
      · rw [hstretch.projected_take hapart.gaps hsplit, hpr, ← append_assoc, ← hp,
          drop_left' (by rw [length_take, min_eq_left (hapart.le.trans hapart.bound)]),
          append_assoc]
        exact (width_append Char.utf8Size _ (p ++ r)).symm

/-- The projection from the position `i` on. -/
def projectedFrom (text : List Char) (state : FileState) (i : ℕ) : List Char :=
  joinRange (rejectedAt text (keptRows state) (keptGaps state)) i (text.length + 1)

lemma projected_append (hi : i ≤ text.length) :
    projected text state i ++ projectedFrom text state i = state.rejectAll text :=
  joinRange_append _ (Nat.zero_le i) (Nat.le_succ_of_le hi)

lemma filterMap_layers (a b : ℕ) :
    (joinRange (layersAt text (keptRows state) (keptGaps state)) a b).filterMap Layer.rejected =
      joinRange (rejectedAt text (keptRows state) (keptGaps state)) a b := by
  unfold joinRange
  rw [filterMap_flatMap]
  refine flatMap_congr fun p _ => ?_
  rw [layersAt, filterMap_append, filterMap_restoredText, filterMap_standingAt]
  rfl

/-- The projection of a range that is apart from every suggestion is the stored text. -/
lemma Apart.projected_eq (h : Apart text state a b) :
    projected text state b = projected text state a ++ (text.take b).drop a := by
  rcases h.le.eq_or_lt with rfl | hlt
  · rw [drop_eq_nil_of_le (by simp), append_nil]
  · have hnone : putBackAt state a = [] := putBackAt_eq_nil fun g hg hpoint =>
      h.gaps g hg ⟨hpoint.ge, by omega⟩
    have hstretch : Stretch text state a b := ⟨hlt, h.bound, fun j hj hj' hcov => by
      obtain ⟨c, hc, hcovers⟩ := covered_keptRows.1 hcov
      have hspan := hcovers.hasSpan
      exact h.spans c hc hspan ⟨hcovers.1.trans (by omega), by have := hcovers.2; omega⟩,
      fun g hg hg' => h.gaps g hg ⟨by omega, by omega⟩⟩
    rw [hstretch.along, hnone, append_nil]

/-- The call of `plan_edits` for an untracked edit. -/
def untrackedBatch (fresh : ℕ → String) (taken : ℕ) (text : List Char) (state : FileState)
    (edit : Edit) : Batch where
  fresh := fresh
  before := text
  state := state
  edits := [edit]
  me := ⟨"", ""⟩
  run := none
  now := 0
  untracked := true
  taken := taken

/-- The one call of the planner that it makes. -/
def untrackedCall (fresh : ℕ → String) (taken : ℕ) (text : List Char) (state : FileState)
    (edit : Edit) : Call :=
  (untrackedBatch fresh taken text state edit).call
    (untrackedBatch fresh taken text state edit).start edit

section Edited

variable (fresh : ℕ → String) (taken : ℕ) (insert : List Char)

lemma untrackedCall_edit (edit : Edit) : (untrackedCall fresh taken text state edit).edit =
    ⟨edit.fromPos, edit.toPos, edit.insert⟩ := by
  simp [untrackedCall, Batch.call, Batch.start, startProgress]

lemma untrackedCall_untracked (hstate : state.ReadsBack text.length) (edit : Edit)
    (hle : edit.fromPos ≤ edit.toPos) (hto : edit.toPos ≤ text.length) :
    (untrackedCall fresh taken text state edit).Untracked where
  untracked := rfl
  fits := by
    rw [untrackedCall_edit]
    exact ⟨hle, hto⟩
  ordered r hr := by
    obtain ⟨c, hc, rfl⟩ := mem_map.1 hr
    exact hstate.ordered c hc

lemma untrackedBatch_loop (edit : Edit) :
    (untrackedBatch fresh taken text state edit).loop =
      if edit.fromPos = edit.toPos ∧ edit.insert = [] then
        (untrackedBatch fresh taken text state edit).start
      else (untrackedBatch fresh taken text state edit).next
        (untrackedBatch fresh taken text state edit).start edit := by
  have hstep := Batch.step_eq (untrackedBatch fresh taken text state edit)
    (untrackedBatch fresh taken text state edit).start edit
  rw [← untrackedCall, untrackedCall_edit] at hstep
  exact hstep

lemma layers_apart (h : Apart text state a b) (hstate : state.ReadsBack text.length) :
    layers (splice text a b insert) (untrackedCall fresh taken text state ⟨a, b, insert⟩).rows
        (untrackedCall fresh taken text state ⟨a, b, insert⟩).gapRows =
      joinRange (layersAt text (keptRows state) (keptGaps state)) 0 a ++
        insert.map Layer.original ++
        joinRange (layersAt text (keptRows state) (keptGaps state)) b (text.length + 1) := by
  have huntracked := untrackedCall_untracked fresh taken hstate ⟨a, b, insert⟩ h.le h.bound
  have hlayers := Call.layers_untracked huntracked
  have hnone : joinRange (fun p => restoredText (fragmentsAt (keptGaps state) p)) a b = [] :=
    joinRange_eq_nil fun p hp hp' => by
      rw [fragmentsAt_eq_nil fun hpoint => ?_]
      · rfl
      · obtain ⟨g, hg, rfl⟩ := mem_points.1 hpoint
        obtain ⟨g', hg', rfl⟩ := mem_map.1 hg
        exact h.gaps g' hg' ⟨hp, hp'.le⟩
  have hparts : ∀ l : List Layer, joinRange (layersAt text (keptRows state) (keptGaps state)) 0 a ++
      joinRange (fun p => restoredText (fragmentsAt (keptGaps state) p)) a b ++ l =
      joinRange (layersAt text (keptRows state) (keptGaps state)) 0 a ++ l := fun l => by
    rw [hnone, append_nil]
  rw [Call.strike_layers huntracked.fits, Call.text, untrackedCall_edit, append_assoc] at hlayers
  rw [append_assoc]
  exact hlayers.trans (hparts _)

/-- An untracked edit of a range that is apart from every suggestion replaces the range in the
projection. -/
lemma Apart.rejectAll (h : Apart text state a b) (hstate : state.ReadsBack text.length) :
    Track.rejectAll (splice text a b insert)
      (untrackedBatch fresh taken text state ⟨a, b, insert⟩).plan.liveChanges
      (untrackedBatch fresh taken text state ⟨a, b, insert⟩).plan.liveGaps =
      projected text state a ++ insert ++ projectedFrom text state b := by
  have hlive := (untrackedBatch fresh taken text state ⟨a, b, insert⟩).live
  rw [untrackedBatch_loop] at hlive
  split at hlive
  next hskip =>
    obtain ⟨rfl, rfl⟩ : a = b ∧ insert = [] := hskip
    have hsame : splice text a a [] = text := by simp [splice]
    rw [hsame, append_nil, projected_append h.bound]
    exact rejectAll_congr (covered_congr hlive.1) fun p => by
      rw [fragmentsAt_congr hlive.2]
      rfl
  · have hinsert : (insert.map Layer.original).filterMap Layer.rejected = insert := by
      rw [filterMap_map]
      exact filterMap_some
    rw [rejectAll_eq_layers, layers_congr hlive.1 hlive.2]
    refine (congrArg (filterMap Layer.rejected) (layers_apart fresh taken insert h hstate)).trans ?_
    rw [filterMap_append, filterMap_append, filterMap_layers, filterMap_layers, hinsert]
    rfl

lemma emptied_bare (hstate : state.ReadsBack text.length) {edit : Edit}
    (hle : edit.fromPos ≤ edit.toPos) (hto : edit.toPos ≤ text.length) {r : Row}
    (hr : r ∈ (untrackedBatch fresh taken text state edit).plan.liveChanges)
    (hem : r.1.emptied = true) : hasSpan r.1 = false := by
  have hlive := (untrackedBatch fresh taken text state edit).live.1
  rw [untrackedBatch_loop] at hlive
  have hmem : r.1 ∈ (untrackedBatch fresh taken text state edit).plan.liveChanges.map Prod.fst :=
    mem_map_of_mem hr
  have hkept : ∀ r' ∈ keptRows state, r'.1.emptied = false := fun r' hr' => by
    obtain ⟨c, hc, rfl⟩ := mem_map.1 hr'
    exact hstate.live c hc
  rw [hlive] at hmem
  obtain ⟨x, hx, hxr⟩ := mem_map.1 hmem
  rw [← hxr] at hem ⊢
  split at hx
  · exact absurd (hem.symm.trans (hkept x hx)) nofun
  · obtain ⟨y, hy, -, rfl⟩ := Call.mem_rows.1 hx
    have huntracked := untrackedCall_untracked fresh taken hstate edit hle hto
    have hy' : y.1.emptied = true := (Call.settled_emptied.1 hem).1
    have hbare : y.1.fromPos = y.1.toPos := by
      rcases Call.mem_out.1 hy with ⟨q, hq, hk⟩ | hhalf | ⟨m, hm, -⟩
      · rcases keepRow_emptied hk hy' with rfl | hq'
        · rfl
        · exact absurd (hq'.symm.trans (hkept q hq)) nofun
      · obtain ⟨q, hq, -, i, -, -, rfl⟩ := mem_splitRows hhalf
        exact absurd (hy'.symm.trans (hkept q hq)) nofun
      · exact absurd (hm.symm.trans (Call.mine_untracked huntracked.untracked)) nofun
    rw [← Bool.not_eq_true, hasSpan_iff, (Call.settled_bare hbare).1]
    exact lt_irrefl _

/-- What is read after a plan was stored. Without a plan it is what was read before. -/
def Stores (state : FileState) (plan : Option Plan) (state' : FileState) : Prop :=
  match plan with
  | some plan => ReadBack plan state'
  | none => state' = state

/-- Replacing a range whose ends are at characters. -/
lemma untrackedEdits_replace (state : FileState) (A B C : List Char) :
    untrackedEdits fresh taken (A ++ B ++ C) state
        [⟨Anchors.lenUtf16 A, Anchors.lenUtf16 B, insert⟩] =
      some (A ++ insert ++ C, if state.changes.isEmpty && state.gaps.isEmpty then none
        else some (untrackedBatch fresh taken (A ++ B ++ C) state
          ⟨A.length, (A ++ B).length, insert⟩).plan) := by
  have hfirst : boundaryAt Anchors.charLenUtf16 (A ++ B ++ C) (Anchors.lenUtf16 A) =
      some A.length := by
    rw [append_assoc]
    exact boundaryAt_width Anchors.charLenUtf16_pos A (B ++ C)
  have hlast : boundaryAt Anchors.charLenUtf16 (A ++ B ++ C)
      (Anchors.lenUtf16 A + Anchors.lenUtf16 B) = some (A ++ B).length := by
    rw [← width_append]
    exact boundaryAt_width Anchors.charLenUtf16_pos (A ++ B) C
  have hsplice : splice (A ++ B ++ C) A.length (A ++ B).length insert = A ++ insert ++ C := by
    rw [splice, drop_left, append_assoc A B C, take_left]
  have hbound : ¬ Anchors.lenUtf16 (A ++ B ++ C) < Anchors.lenUtf16 A + Anchors.lenUtf16 B := by
    simp only [Anchors.lenUtf16, width_append]
    omega
  have hone : ∀ r, Source.overlapping Source.applySorted [r] = false := fun r => by
    unfold Source.overlapping
    split
    · rfl
    · rfl
  have hedited : Source.applyTextEdits (A ++ B ++ C)
      [⟨Anchors.lenUtf16 A, Anchors.lenUtf16 B, insert⟩] = some (A ++ insert ++ C) := by
    simp only [Source.applyTextEdits, any_cons, any_nil, hbound, decide_false,
      Bool.or_false, map_cons, map_nil, hone, Bool.false_eq_true, if_false,
      foldr_cons, foldr_nil, Option.bind_some, Source.applyEdit, hfirst, hlast]
    exact congrArg some hsplice
  simp only [untrackedEdits, mapM_cons, mapM_nil, hfirst, hlast, hedited]
  split
  · simp
  · simp [untrackedBatch, Batch.plan]

/-- The text of a file, after an untracked edit of a range that is apart from every suggestion. -/
lemma Apart.unsuggested (h : Apart text state a b) (hstate : state.ReadsBack text.length)
    {plan : Option Plan} {state' : FileState}
    (hplan : plan = if state.changes.isEmpty && state.gaps.isEmpty then none
      else some (untrackedBatch fresh taken text state ⟨a, b, insert⟩).plan)
    (hstores : Stores state plan state')
    (hstate' : state'.ReadsBack (splice text a b insert).length) :
    (Track.unsuggested (splice text a b insert) state').text =
      projected text state a ++ insert ++ projectedFrom text state b := by
  rw [(unsuggested_spec hstate').1]
  split at hplan
  next hempty =>
    subst hplan
    obtain rfl : state' = state := hstores
    simp only [Bool.and_eq_true, List.isEmpty_iff] at hempty
    have hgaps : ∀ g ∈ state'.gaps, False := fun g hg => by simp [hempty.2] at hg
    have hcov : ∀ j, ¬ Covered (keptRows state') j := fun j hj => by
      obtain ⟨c, hc, -⟩ := covered_keptRows.1 hj
      simp [hempty.1] at hc
    have hwhole : projected text state' b ++ projectedFrom text state' b =
        state'.rejectAll text := projected_append h.bound
    rw [rejectAll_plain hgaps fun j _ => hcov j,
      projected_plain hgaps (fun j _ => hcov j) h.bound] at hwhole
    rw [rejectAll_plain hgaps fun j _ => hcov j,
      projected_plain hgaps (fun j _ => hcov j) (h.le.trans h.bound),
      List.append_cancel_left (hwhole.trans (List.take_append_drop b text).symm), splice]
  next hsome =>
    subst hplan
    have hback : ReadBack _ state' := hstores
    rw [hback.rejectAll_of_emptied fun r hr hem =>
      emptied_bare fresh taken hstate h.le h.bound hr hem]
    exact h.rejectAll fresh taken insert hstate

end Edited

end Projection

/-- An accepted range of the projection is the same text in the file. It contains no pending
character and no gap, and replacing it in the file replaces it in the projection. -/
theorem toStored_sound {text : List Char} {state : FileState} (hstate : state.ReadsBack text.length)
    {start stop : ℕ} {stored : ℕ × ℕ}
    (h : (unsuggested text state).toStored start stop = .ok stored) :
    ∃ A B C A' C' : List Char, text = A ++ B ++ C ∧
      (unsuggested text state).text = A' ++ B ++ C' ∧
      stored = (byteLen A, byteLen (A ++ B)) ∧ start = byteLen A' ∧ stop = byteLen (A' ++ B) ∧
      (∀ c ∈ state.changes, ∀ p, A.length ≤ p → p < (A ++ B).length → ¬ c.covers p) ∧
      (∀ g ∈ state.gaps, ¬ (A.length < g.point ∧ g.point < (A ++ B).length)) ∧
      ∀ fresh taken insert, ∃ plan,
        untrackedEdits fresh taken text state
            [⟨Anchors.lenUtf16 A, Anchors.lenUtf16 B, insert⟩] =
          some (A ++ insert ++ C, plan) ∧
        ∀ state', Stores state plan state' → state'.ReadsBack (A ++ insert ++ C).length →
          (unsuggested (A ++ insert ++ C) state').text = A' ++ insert ++ C' := by
  obtain ⟨a, b, hapart, hstored, hstart, hstop⟩ := toStored_some hstate h
  have hsplit : text.take a ++ (text.take b).drop a = text.take b := by
    have htake : (text.take b).take a = text.take a := by rw [take_take, min_eq_left hapart.le]
    rw [← htake, take_append_drop]
  have htext : text = text.take a ++ (text.take b).drop a ++ text.drop b := by
    rw [hsplit, take_append_drop]
  have ha : (text.take a).length = a := by
    rw [length_take, min_eq_left (hapart.le.trans hapart.bound)]
  have hb : (text.take a ++ (text.take b).drop a).length = b := by
    rw [hsplit, length_take, min_eq_left hapart.bound]
  refine ⟨text.take a, (text.take b).drop a, text.drop b, projected text state a,
    projectedFrom text state b, htext, ?_, ?_, hstart, hstop, ?_, ?_, ?_⟩
  · rw [(unsuggested_spec hstate).1, ← hapart.projected_eq, projected_append hapart.bound]
  · rw [hstored, hsplit]
  · intro c hc p hp hp' hcovers
    rw [ha] at hp
    rw [hb] at hp'
    exact hapart.spans c hc hcovers.hasSpan
      ⟨hcovers.1.trans (by omega), by have := hcovers.2; omega⟩
  · intro g hg hg'
    rw [ha, hb] at hg'
    exact hapart.gaps g hg ⟨hg'.1.le, hg'.2.le⟩
  · intro fresh taken insert
    have hedits := untrackedEdits_replace fresh taken insert state (text.take a)
      ((text.take b).drop a) (text.drop b)
    rw [← htext, ha, hb] at hedits
    exact ⟨_, hedits, fun state' hstores hstate' =>
      hapart.unsuggested fresh taken insert hstate rfl hstores hstate'⟩

/-- An author replaces a range of a longer text. -/
def sampleLonger : Batch := { sampleReplace with before := "abcdef".toList }

/-- The text that is stored then, with its records. -/
def sampleStored : FileState := sampleLonger.plan.storedAs "f"

/-- An untracked edit behind the replaced range. -/
def sampleBehind : Batch :=
  untrackedBatch names 1 "aXdef".toList sampleStored ⟨3, 5, "é".toList⟩

lemma sampleStored_resolved : sampleStored.ReadsBack 5 :=
  ⟨by decide, by decide, by decide, by decide, by decide, by decide⟩

lemma sampleBehind_resolved : (sampleBehind.plan.storedAs "g").ReadsBack 4 :=
  ⟨by decide, by decide, by decide, by decide, by decide, by decide⟩

theorem toStored_sound_behind : (unsuggested "aXdef".toList sampleStored).text = "abcdef".toList ∧
    untrackedEdits names 1 "aXdef".toList sampleStored [⟨3, 2, "é".toList⟩] =
      some ("aXdé".toList, some sampleBehind.plan) ∧
    (unsuggested "aXdé".toList (sampleBehind.plan.storedAs "g")).text = "abcdé".toList := by
  have hresolved : sampleStored.ReadsBack "aXdef".toList.length := sampleStored_resolved
  have haccepted : (unsuggested "aXdef".toList sampleStored).toStored 4 6 = .ok (3, 5) := by decide
  obtain ⟨A, B, C, A', C', htext, hproj, hstored, hstart, -, -, -, hreplace⟩ :=
    toStored_sound hresolved haccepted
  obtain ⟨hA, hAB⟩ := Prod.mk.inj hstored
  have hall : (unsuggested "aXdef".toList sampleStored).text = "abcdef".toList := by decide
  obtain ⟨rfl, hBC⟩ : A = "aXd".toList ∧ B ++ C = "ef".toList :=
    append_unique Char.utf8Size_pos (by rw [← append_assoc, ← htext]; rfl) hA.symm
  obtain ⟨rfl, rfl⟩ : B = "ef".toList ∧ C = [] :=
    append_unique Char.utf8Size_pos (by rw [hBC, append_nil]) (by
      rw [byteLen, width_append] at hAB
      exact (Nat.add_left_cancel (n := 3) hAB).symm)
  obtain ⟨rfl, hC'⟩ : A' = "abcd".toList ∧ "ef".toList ++ C' = "ef".toList :=
    append_unique Char.utf8Size_pos (by rw [← append_assoc, ← hproj, hall]; rfl) hstart.symm
  obtain rfl : C' = [] := append_right_eq_self.1 hC'
  obtain ⟨plan, hedits, hafter⟩ := hreplace names 1 "é".toList
  have hplanned : untrackedEdits names 1 "aXdef".toList sampleStored [⟨3, 2, "é".toList⟩] =
      some ("aXdé".toList, some sampleBehind.plan) := by decide
  obtain rfl : some sampleBehind.plan = plan :=
    congrArg Prod.snd (Option.some.inj (hplanned.symm.trans hedits))
  exact ⟨hall, hplanned, hafter _ (ReadBack.storedAs _ "g") sampleBehind_resolved⟩

end LibrePaper.Track
