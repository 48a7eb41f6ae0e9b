import LibrePaper.Library.Orders
import LibrePaper.Track.Browser

/-!
# Rejecting a change in the browser

A rejection puts the deleted text of a change back at its gaps, and takes its inserted text out. It
lists every edit that it makes, and where each fragment's text stands once it is done. The gaps
beyond the span come back first, from the last to the first, then the span goes, and then the gaps
at it and before it come back.
-/
namespace LibrePaper.Track.Browser
open Library List
open Anchors.Browser (Units)

/-- Where the text of a fragment stands. -/
structure Restored where
  file : String
  fragment : Option String
  point : ℕ
  text : Units
deriving DecidableEq

/-- What a rejection has done so far. `anchored` lists the fragments of others that were anchored
anew, each with its anchor and its rank. -/
structure Rejecting where
  text : Units
  restored : List Restored
  edits : List Edit
  anchored : List (Option String × ℕ × ℚ)
deriving DecidableEq

def Edit.apply (text : Units) (e : Edit) : Units := splice text e.fromPos e.toPos e.insert

/-- The span of a change, if it has one. -/
def spanOf (state : FileState) (id : String) : Option (ℕ × ℕ) :=
  (state.changes.find? fun c => c.id = id).bind fun c =>
    if c.fromPos < c.toPos then some (c.fromPos, c.toPos) else none

/-- The point that a gap comes back at. The gaps at a span come back at its start. -/
def pointOf (id : String) (span : Option (ℕ × ℕ)) (g : Gap) : Option ℕ :=
  match span.filter fun s => s.1 ≤ g.point ∧ g.point ≤ s.2 with
  | some s => some s.1
  | none => if g.fragments.any fun f => f.change = id then some g.point else none

/-- The gaps that come back at one point, in order. -/
def groupAt (state : FileState) (id : String) (span : Option (ℕ × ℕ)) (p : ℕ) : List Gap :=
  sortByKey Gap.point (state.gaps.filter fun g => pointOf id span g = some p)

/-- The points that gaps come back at, from the last to the first. -/
def pointsOf (state : FileState) (id : String) (span : Option (ℕ × ℕ)) : List ℕ :=
  (sortByKey (fun p => p) (state.gaps.filterMap (pointOf id span)).dedup).reverse

/-- Later gaps rank above earlier ones. -/
def raiseRanks : Option ℚ → List Gap → List Fragment
  | _, [] => []
  | floor, g :: gaps =>
    let ranks := g.fragments.map fun f => f.rank.getD 0
    let low := ranks.min?
    let shift := match low, floor with
      | some low, some floor => if low ≤ floor then floor - low + 1 else 0
      | _, _ => 0
    (g.fragments.map fun f => { f with rank := some (f.rank.getD 0 + shift) }) ++
      raiseRanks (ranks.max?.map fun r => r + shift) gaps

/-- The walk over the fragments of one point. `pending` holds those of others that are not anchored
yet. -/
structure Walk where
  pos : ℕ
  pending : List Fragment
  inserted : ℕ
  out : Rejecting

/-- Anchors the pending fragments. -/
def Walk.flush (w : Walk) (anchor : ℕ) : Walk :=
  let written := w.pending.map fun f => (f.id, anchor, f.rank.getD 0)
  { w with pending := [], out := { w.out with anchored := w.out.anchored ++ written } }

/-- The text of the change comes back, and the fragments before it are anchored on it. -/
def Walk.step (file id : String) (w : Walk) (f : Fragment) : Walk :=
  if f.change = id then
    let put := Walk.flush { w with out := { w.out with
      text := splice w.out.text w.pos w.pos f.text
      restored := w.out.restored ++ [⟨file, f.id, w.pos, f.text⟩]
      edits := w.out.edits ++ [⟨w.pos, w.pos, f.text⟩] } } w.pos
    { put with pos := w.pos + f.text.length, inserted := w.inserted + f.text.length }
  else { w with pending := w.pending ++ [f] }

/-- Puts the gaps of one point back. What was put back before stands behind it, and moves. -/
def restore (state : FileState) (file id : String) (span : Option (ℕ × ℕ)) (s : Rejecting)
    (p : ℕ) : Rejecting :=
  let w := (raiseRanks none (groupAt state id span p)).foldl (Walk.step file id) ⟨p, [], 0, s⟩
  let w := w.flush w.pos
  let first := s.restored.length
  let moved := (w.out.restored.take first).map fun r => { r with point := r.point + w.inserted }
  { w.out with restored := moved ++ w.out.restored.drop first }

/-- Takes the span out. What was put back stands behind it, and moves back. -/
def cutSpan (s : Rejecting) (span : ℕ × ℕ) : Rejecting where
  text := splice s.text span.1 span.2 []
  restored := s.restored.map fun r => { r with point := r.point - (span.2 - span.1) }
  edits := s.edits ++ [⟨span.1, span.2, []⟩]
  anchored := s.anchored

/-- Rejects one change of a file that has a text. -/
def rejectIn (file : String) (text : Units) (state : FileState) (id : String) : Rejecting :=
  let span := spanOf state id
  let points := pointsOf state id span
  match span with
  | none => points.foldl (restore state file id none) ⟨text, [], [], []⟩
  | some s =>
    let beyond := (points.filter fun p => s.2 < p).foldl (restore state file id (some s))
      ⟨text, [], [], []⟩
    (points.filter fun p => p ≤ s.2).foldl (restore state file id (some s)) (cutSpan beyond s)

/-- What a rejection reports. -/
structure Rejection where
  ok : Bool
  restored : List Restored
  edits : List Edit
deriving DecidableEq

/-- Rejects a change, and lists what it put back. `decidable` tells whether its record is one that a
decision applies to. The result has the text after it. -/
def rejectRestoring (decidable : Bool) (file : String) (text : Option Units) (state : FileState)
    (id : String) : Rejection × Option Units :=
  if decidable then
    match text with
    | some t =>
      let done := rejectIn file t state id
      (⟨true, done.restored, done.edits⟩, some done.text)
    | none => (⟨true, [], []⟩, none)
  else (⟨false, [], []⟩, text)

section Walks

variable {file id : String} {t : Units} {s : Rejecting} {p : ℕ}

/-- The text that the fragments of a change put back. -/
def putBack (id : String) (fragments : List Fragment) : Units :=
  (fragments.filter fun f => f.change = id).flatMap Fragment.text

/-- The entries of the fragments of a change that come back from `p` on. -/
def entriesFrom (file id : String) : ℕ → List Fragment → List Restored
  | _, [] => []
  | p, f :: fragments =>
    if f.change = id then
      ⟨file, f.id, p, f.text⟩ :: entriesFrom file id (p + f.text.length) fragments
    else entriesFrom file id p fragments

lemma putBack_cons (f : Fragment) (fragments : List Fragment) :
    putBack id (f :: fragments) =
      (if f.change = id then f.text else []) ++ putBack id fragments := by
  unfold putBack
  rw [filter_cons]
  split
  next h => rw [if_pos (by simpa using h), flatMap_cons]
  next h => rw [if_neg (by simpa using h), nil_append]

/-- Each entry is where its text is put. -/
lemma entriesFrom_stand {fragments : List Fragment} (before after : Units)
    (hp : before.length = p) {r : Restored} (hr : r ∈ entriesFrom file id p fragments) :
    p ≤ r.point ∧ ((before ++ putBack id fragments ++ after).drop r.point).take r.text.length =
      r.text := by
  induction fragments generalizing before p with
  | nil => exact absurd hr not_mem_nil
  | cons f fragments ih =>
    rw [entriesFrom] at hr
    rw [putBack_cons]
    split at hr
    next h =>
      rw [if_pos h]
      rcases mem_cons.1 hr with rfl | hr
      · refine ⟨le_rfl, ?_⟩
        rw [← hp, append_assoc, append_assoc, drop_left, take_left]
      · obtain ⟨hle, hstand⟩ := ih (before ++ f.text) (by simp [hp]) hr
        refine ⟨(Nat.le_add_right _ _).trans hle, ?_⟩
        rw [← append_assoc before]
        exact hstand
    next h =>
      rw [if_neg h, nil_append]
      exact ih before hp hr

/-- The edits make the text, and those that insert have the texts of the entries. -/
structure Replays (before : Units) (s : Rejecting) : Prop where
  text : s.edits.foldl Edit.apply before = s.text
  inserts : ((s.edits.filter fun e => e.fromPos = e.toPos).map Edit.insert).Perm
    (s.restored.map Restored.text)

/-- The text of every entry stands where the entry says. -/
def Stands (s : Rejecting) : Prop :=
  ∀ r ∈ s.restored, (s.text.drop r.point).take r.text.length = r.text

variable {w : Walk} {f : Fragment} {before : Units}

lemma Walk.step_mine (h : f.change = id) :
    Walk.step file id w f =
      ⟨w.pos + f.text.length, [], w.inserted + f.text.length,
        ⟨splice w.out.text w.pos w.pos f.text, w.out.restored ++ [⟨file, f.id, w.pos, f.text⟩],
          w.out.edits ++ [⟨w.pos, w.pos, f.text⟩],
          w.out.anchored ++ w.pending.map fun f => (f.id, w.pos, f.rank.getD 0)⟩⟩ := by
  rw [Walk.step, if_pos h]
  rfl

lemma Walk.step_other (h : ¬f.change = id) :
    Walk.step file id w f = { w with pending := w.pending ++ [f] } := by
  rw [Walk.step, if_neg h]

/-- The walk puts the texts back one after the other. -/
lemma walk_text (file id : String) (fragments : List Fragment) {pre post : Units}
    (htext : w.out.text = pre ++ post) (hpos : w.pos = pre.length) :
    (fragments.foldl (Walk.step file id) w).out.text = pre ++ putBack id fragments ++ post := by
  induction fragments generalizing w pre with
  | nil => simp [putBack, htext]
  | cons f fragments ih =>
    rw [foldl_cons, putBack_cons]
    by_cases h : f.change = id
    · have hsplice : splice w.out.text w.pos w.pos f.text = (pre ++ f.text) ++ post := by
        rw [splice, htext, hpos, take_left, drop_left]
      have htext' : (Walk.step file id w f).out.text = (pre ++ f.text) ++ post := by
        rw [Walk.step_mine h, hsplice]
      have hpos' : (Walk.step file id w f).pos = (pre ++ f.text).length := by
        rw [Walk.step_mine h, length_append, ← hpos]
      rw [ih htext' hpos', if_pos h, append_assoc pre]
    · have htext' : (Walk.step file id w f).out.text = pre ++ post := by
        rw [Walk.step_other h, htext]
      have hpos' : (Walk.step file id w f).pos = pre.length := by rw [Walk.step_other h, hpos]
      rw [ih htext' hpos', if_neg h, nil_append]

/-- The walk lists what it puts back. -/
lemma walk_entries (file id : String) (fragments : List Fragment) (w : Walk) :
    (fragments.foldl (Walk.step file id) w).inserted =
        w.inserted + (putBack id fragments).length ∧
      (fragments.foldl (Walk.step file id) w).out.restored =
        w.out.restored ++ entriesFrom file id w.pos fragments := by
  induction fragments generalizing w with
  | nil => simp [putBack, entriesFrom]
  | cons f fragments ih =>
    rw [foldl_cons, putBack_cons, entriesFrom]
    obtain ⟨hinserted, hrestored⟩ := ih (Walk.step file id w f)
    rw [hinserted, hrestored]
    by_cases h : f.change = id
    · rw [Walk.step_mine h, if_pos h, if_pos h, length_append]
      exact ⟨Nat.add_assoc _ _ _, append_assoc _ _ _⟩
    · rw [Walk.step_other h, if_neg h, if_neg h, nil_append]
      exact ⟨rfl, rfl⟩

/-- The walk lists its edits. -/
lemma walk_replays (file id : String) (fragments : List Fragment) (hw : Replays before w.out) :
    Replays before (fragments.foldl (Walk.step file id) w).out := by
  induction fragments generalizing w with
  | nil => exact hw
  | cons f fragments ih =>
    refine ih ?_
    by_cases h : f.change = id
    · rw [Walk.step_mine h]
      constructor
      · rw [foldl_concat, hw.text]
        rfl
      · rw [filter_append, map_append, map_append]
        refine hw.inserts.append ?_
        rw [filter_singleton, decide_eq_true rfl]
        rfl
    · rw [Walk.step_other h]
      exact hw

variable {state : FileState} {span : Option (ℕ × ℕ)}

/-- What comes back at a point. -/
def fragmentsAt (state : FileState) (id : String) (span : Option (ℕ × ℕ)) (p : ℕ) :
    List Fragment :=
  raiseRanks none (groupAt state id span p)

/-- The walk over what comes back at a point. -/
def walked (file id : String) (state : FileState) (span : Option (ℕ × ℕ)) (s : Rejecting)
    (p : ℕ) : Walk :=
  (fragmentsAt state id span p).foldl (Walk.step file id) ⟨p, [], 0, s⟩

lemma restore_text (file id : String) (state : FileState) (span : Option (ℕ × ℕ))
    (hp : p ≤ s.text.length) :
    (restore state file id span s p).text =
      s.text.take p ++ putBack id (fragmentsAt state id span p) ++ s.text.drop p := by
  have hlength : p = (s.text.take p).length := by rw [length_take, min_eq_left hp]
  exact walk_text file id (fragmentsAt state id span p) (w := ⟨p, [], 0, s⟩)
    (take_append_drop p s.text).symm hlength

lemma restore_entries (file id : String) (state : FileState) (span : Option (ℕ × ℕ))
    (s : Rejecting) (p : ℕ) :
    (restore state file id span s p).restored =
      s.restored.map (fun r => { r with point :=
          r.point + (putBack id (fragmentsAt state id span p)).length }) ++
        entriesFrom file id p (fragmentsAt state id span p) := by
  have hmoved : (restore state file id span s p).restored =
      ((walked file id state span s p).out.restored.take s.restored.length).map
          (fun r => { r with point := r.point + (walked file id state span s p).inserted }) ++
        (walked file id state span s p).out.restored.drop s.restored.length := rfl
  obtain ⟨hinserted, hrestored⟩ := walk_entries file id (fragmentsAt state id span p) ⟨p, [], 0, s⟩
  rw [hmoved]
  unfold walked
  rw [hrestored, hinserted, take_left, drop_left, Nat.zero_add]

lemma restore_replays (file id : String) (state : FileState) (span : Option (ℕ × ℕ))
    (h : Replays before s) (p : ℕ) : Replays before (restore state file id span s p) := by
  have hwalked := walk_replays file id (fragmentsAt state id span p) (w := ⟨p, [], 0, s⟩) h
  have hsame : (restore state file id span s p).restored.map Restored.text =
      (walked file id state span s p).out.restored.map Restored.text := by
    unfold walked
    rw [restore_entries, (walk_entries file id (fragmentsAt state id span p) ⟨p, [], 0, s⟩).2,
      map_append, map_append, map_map]
    rfl
  refine ⟨hwalked.text, ?_⟩
  rw [hsame]
  exact hwalked.inserts

/-- What was put back behind a point stands behind it still. -/
lemma restore_stands (hp : p ≤ s.text.length) (hstands : Stands s)
    (habove : ∀ r ∈ s.restored, p ≤ r.point) :
    Stands (restore state file id span s p) ∧
      ∀ r ∈ (restore state file id span s p).restored, p ≤ r.point := by
  have hlength : (s.text.take p).length = p := by rw [length_take, min_eq_left hp]
  unfold Stands
  rw [restore_text file id state span hp, restore_entries]
  constructor
  · intro r hr
    rcases mem_append.1 hr with hr | hr
    · obtain ⟨entry, hentry, rfl⟩ := mem_map.1 hr
      have hle := habove entry hentry
      have hdrop : (s.text.take p ++ putBack id (fragmentsAt state id span p) ++
          s.text.drop p).drop (entry.point + (putBack id (fragmentsAt state id span p)).length) =
            s.text.drop entry.point := by
        have hsum : entry.point + (putBack id (fragmentsAt state id span p)).length =
            (s.text.take p ++ putBack id (fragmentsAt state id span p)).length +
              (entry.point - p) := by
          rw [length_append, hlength]
          omega
        have hback : p + (entry.point - p) = entry.point := Nat.add_sub_cancel' hle
        rw [hsum, drop_length_add_append, drop_drop, hback]
      rw [hdrop]
      exact hstands entry hentry
    · exact (entriesFrom_stand _ _ hlength hr).2
  · intro r hr
    rcases mem_append.1 hr with hr | hr
    · obtain ⟨entry, hentry, rfl⟩ := mem_map.1 hr
      exact (habove entry hentry).trans (Nat.le_add_right _ _)
    · exact (entriesFrom_stand _ [] hlength hr).1

/-- A rejection that came down to the point `p`. -/
structure Sound (before : Units) (p : ℕ) (s : Rejecting) : Prop where
  replays : Replays before s
  stands : Stands s
  above : ∀ r ∈ s.restored, p ≤ r.point
  fits : p ≤ s.text.length

variable {before : Units} {q : ℕ}

lemma Sound.lower (h : Sound before p s) (hle : q ≤ p) : Sound before q s :=
  ⟨h.replays, h.stands, fun r hr => hle.trans (h.above r hr), hle.trans h.fits⟩

lemma Sound.restore (h : Sound before p s) :
    Sound before p (restore state file id span s p) := by
  obtain ⟨hstands, habove⟩ := restore_stands h.fits h.stands h.above
  refine ⟨restore_replays file id state span h.replays p, hstands, habove, ?_⟩
  rw [restore_text file id state span h.fits, append_assoc, length_append,
    length_take, min_eq_left h.fits]
  exact Nat.le_add_right _ _

/-- What was put back behind the span stands behind its start once it is gone. -/
lemma Sound.cutSpan {cut : ℕ × ℕ} (h : Sound before cut.2 s) (hlt : cut.1 < cut.2) :
    Sound before cut.1 (cutSpan s cut) := by
  have hfits := h.fits
  have hcut : splice s.text cut.1 cut.2 [] = s.text.take cut.1 ++ s.text.drop cut.2 := by
    rw [splice, append_nil]
  have hlength : (s.text.take cut.1).length = cut.1 := by
    rw [length_take, min_eq_left (hlt.le.trans hfits)]
  refine ⟨⟨?_, ?_⟩, fun r hr => ?_, fun r hr => ?_, ?_⟩
  · change (s.edits ++ [_]).foldl Edit.apply before = _
    rw [foldl_concat, h.replays.text]
    rfl
  · change (((s.edits ++ [_]).filter _).map _).Perm ((s.restored.map _).map _)
    rw [filter_append, filter_singleton, decide_eq_false hlt.ne, map_map]
    refine Perm.trans (Perm.of_eq ?_) h.replays.inserts
    exact congrArg _ (append_nil _)
  · obtain ⟨entry, hentry, rfl⟩ := mem_map.1 hr
    have hle := h.above entry hentry
    change ((splice s.text cut.1 cut.2 []).drop (entry.point - (cut.2 - cut.1))).take _ = _
    have hback : entry.point - (cut.2 - cut.1) =
        (s.text.take cut.1).length + (entry.point - cut.2) := by omega
    rw [hcut, hback, drop_length_add_append, drop_drop, Nat.add_sub_cancel' hle]
    exact h.stands entry hentry
  · obtain ⟨entry, hentry, rfl⟩ := mem_map.1 hr
    have hle := h.above entry hentry
    change cut.1 ≤ entry.point - (cut.2 - cut.1)
    omega
  · change cut.1 ≤ (splice s.text cut.1 cut.2 []).length
    rw [hcut, length_append, hlength]
    exact Nat.le_add_right _ _

end Walks

section Rejections

variable {file id : String} {text : Units} {state : FileState}

variable {span : Option (ℕ × ℕ)} {p : ℕ}

end Rejections

/-- One rejection of several. The state is that of its file as it is read then. -/
structure Call where
  decidable : Bool
  file : String
  state : FileState
  id : String

def Call.report (c : Call) (texts : String → Option Units) : Rejection :=
  (rejectRestoring c.decidable c.file (texts c.file) c.state c.id).1

def Call.after (c : Call) (texts : String → Option Units) : String → Option Units :=
  Function.update texts c.file
    (rejectRestoring c.decidable c.file (texts c.file) c.state c.id).2

/-- A change with a span, whose fragments are in gaps before it, at both of its ends and behind
it. -/
def spannedState : FileState where
  changes := [⟨"a", "w", "w", none, 0, 2, 4, false, false, false⟩]
  gaps :=
    [⟨"g", 0, [⟨some "f", "a", [7, 7], some 0, false⟩], false⟩,
      ⟨"h", 2, [⟨some "j", "b", [8], some 0, false⟩, ⟨some "k", "a", [9], some 1, false⟩], false⟩,
      ⟨"l", 4, [⟨some "m", "a", [5, 6], some 0, false⟩], false⟩,
      ⟨"n", 5, [⟨some "o", "a", [3], some 0, false⟩], false⟩]

def spanned : Call := ⟨true, "main", spannedState, "a"⟩

section Texts

variable {file id : String} {text : Units} {state : FileState} {span : Option (ℕ × ℕ)} {p : ℕ}

variable {cut : ℕ × ℕ}

end Texts

end LibrePaper.Track.Browser
