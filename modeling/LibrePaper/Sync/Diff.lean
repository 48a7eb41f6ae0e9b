import LibrePaper.Source.Overlap

/-!
# The edits between two texts

A diff of lines becomes patches of bytes: changed lines that touch are one run, and a run is cut
down to the characters in its middle that differ.
-/
namespace LibrePaper.Sync.Diff
open Library List
open Source.Overlap (checkOverlaps agentPatch checkOverlaps_ok)

abbrev Text := List Char

/-- The bytes of a text. -/
abbrev lenUtf8 (text : Text) : ℕ := width Char.utf8Size text

inductive DiffTag where
  | equal
  | delete
  | insert
  | replace
deriving DecidableEq

/-- A range of lines of the old text, and one of the new text. -/
structure Run where
  oldStart : ℕ
  oldStop : ℕ
  newStart : ℕ
  newStop : ℕ

structure DiffOp where
  tag : DiffTag
  lines : Run

/-- What the library answers: the lines of both texts, and how one becomes the other. -/
structure TextDiff where
  oldSlices : List Text
  newSlices : List Text
  ops : List DiffOp

/-- A range of bytes of the old text and what replaces it. -/
structure Patch where
  path : String
  start : ℕ
  stop : ℕ
  captured : Text
  replacement : Text
deriving DecidableEq

/-- The runs so far, and whether the last one may go on. -/
def addOp (s : List Run × Bool) (op : DiffOp) : List Run × Bool :=
  if op.tag = .equal then (s.1, false)
  else match s.1.getLast?, s.2 with
    | some run, true =>
      (s.1.dropLast ++ [{ run with oldStop := op.lines.oldStop, newStop := op.lines.newStop }], true)
    | _, _ => (s.1 ++ [op.lines], true)

def runs (ops : List DiffOp) : List Run := (ops.foldl addOp ([], false)).1

/-- The offset of the start of each piece, and of the end of the last. -/
def offsets (lengths : List ℕ) : List ℕ :=
  lengths.foldl (fun starts length => starts ++ [starts.getLastD 0 + length]) [0]

/-- A slice of a text; an offset inside a character is a panic. -/
def cut (text : Text) (start stop : ℕ) : Option Text := do
  let first ← boundaryAt Char.utf8Size text start
  let last ← boundaryAt Char.utf8Size text stop
  if first ≤ last then some ((text.take last).drop first) else none

/-- How many bytes two texts share at the start. -/
def commonHead (a b : Text) : ℕ :=
  lenUtf8 (((a.zip b).takeWhile fun p => decide (p.1 = p.2)).map Prod.fst)

/-- How many bytes two texts share at the start, and then at the end of what is left. -/
def commonEdges (a b : Text) : Option (ℕ × ℕ) := do
  let head := commonHead a b
  let a ← cut a head (lenUtf8 a)
  let b ← cut b head (lenUtf8 b)
  some (head, commonHead a.reverse b.reverse)

/-- The patch of a run, when its texts differ at all. -/
def patchOf (path : String) (before after : Text) (oldAt newAt : List ℕ) (run : Run) :
    Option (Option Patch) := do
  let start ← oldAt[run.oldStart]?
  let stop ← oldAt[run.oldStop]?
  let was ← cut before start stop
  let now ← cut after (← newAt[run.newStart]?) (← newAt[run.newStop]?)
  let (head, tail) ← commonEdges was now
  let captured ← cut was head (lenUtf8 was - tail)
  let replacement ← cut now head (lenUtf8 now - tail)
  if captured ≠ replacement then
    some (some ⟨path, start + head, stop - tail, captured, replacement⟩)
  else some none

/-- One patch for each run of changed lines; nothing where the code panics. -/
def patches (fromLines : Text → Text → TextDiff) (path : String) (before after : Text) :
    Option (List Patch) :=
  if before = after then some []
  else
    let diff := fromLines before after
    let oldAt := offsets (diff.oldSlices.map lenUtf8)
    let newAt := offsets (diff.newSlices.map lenUtf8)
    ((runs diff.ops).mapM (patchOf path before after oldAt newAt)).map List.reduceOption

/-- The operations lead from a line of each text to the ends of both, one after another, and
lines that are kept are the same. -/
def Script (old new : List Text) : ℕ → ℕ → List DiffOp → Prop
  | i, j, [] => i = old.length ∧ j = new.length
  | i, j, op :: ops =>
    (op.lines.oldStart = i ∧ op.lines.newStart = j) ∧
      (i ≤ op.lines.oldStop ∧ op.lines.oldStop ≤ old.length) ∧
      (j ≤ op.lines.newStop ∧ op.lines.newStop ≤ new.length) ∧
      (op.tag = .equal → i < op.lines.oldStop ∧
        (old.take op.lines.oldStop).drop i = (new.take op.lines.newStop).drop j) ∧
      Script old new op.lines.oldStop op.lines.newStop ops

/-- A valid edit script over the lines of two texts. -/
structure IsDiff (before after : Text) (diff : TextDiff) : Prop where
  old : diff.oldSlices.flatten = before
  new : diff.newSlices.flatten = after
  lines : ∀ line ∈ diff.oldSlices, line ≠ []
  script : Script diff.oldSlices diff.newSlices 0 0 diff.ops

/-- The runs of operations, behind a run that may go on. -/
def runsFrom : Option Run → List DiffOp → List Run
  | run, [] => run.toList
  | run, op :: ops =>
    if op.tag = .equal then run.toList ++ runsFrom none ops
    else match run with
      | some run =>
        runsFrom (some { run with oldStop := op.lines.oldStop, newStop := op.lines.newStop }) ops
      | none => runsFrom (some op.lines) ops

lemma foldl_addOp (ops : List DiffOp) :
    (∀ done, (ops.foldl addOp (done, false)).1 = done ++ runsFrom none ops) ∧
      ∀ done run, (ops.foldl addOp (done ++ [run], true)).1 = done ++ runsFrom (some run) ops := by
  induction ops with
  | nil => exact ⟨fun done => (append_nil done).symm, fun done run => rfl⟩
  | cons op ops ih =>
    by_cases htag : op.tag = .equal
    · constructor
      · intro done
        have hstep : addOp (done, false) op = (done, false) := if_pos htag
        rw [foldl_cons, hstep, ih.1, runsFrom, if_pos htag]
        rfl
      · intro done run
        have hstep : addOp (done ++ [run], true) op = (done ++ [run], false) := if_pos htag
        rw [foldl_cons, hstep, ih.1, runsFrom, if_pos htag, append_assoc]
        rfl
    · constructor
      · intro done
        have hstep : addOp (done, false) op = (done ++ [op.lines], true) := by
          unfold addOp
          rw [if_neg htag]
          cases done.getLast? <;> rfl
        rw [foldl_cons, hstep, ih.2, runsFrom, if_neg htag]
      · intro done run
        have hstep : addOp (done ++ [run], true) op = (done ++
            [{ run with oldStop := op.lines.oldStop, newStop := op.lines.newStop }], true) := by
          unfold addOp
          rw [if_neg htag, getLast?_concat, dropLast_concat]
        rw [foldl_cons, hstep, ih.2, runsFrom, if_neg htag]

lemma runs_eq (ops : List DiffOp) : runs ops = runsFrom none ops :=
  ((foldl_addOp ops).1 []).trans (nil_append _)

lemma cut_middle (p s q : Text) {start stop : ℕ} (hstart : start = lenUtf8 p)
    (hstop : stop = lenUtf8 p + lenUtf8 s) : cut (p ++ s ++ q) start stop = some s := by
  have hlast : boundaryAt Char.utf8Size (p ++ s ++ q) stop = some (p ++ s).length := by
    rw [hstop, ← width_append]
    exact boundaryAt_width Char.utf8Size_pos _ _
  have hfirst : boundaryAt Char.utf8Size (p ++ s ++ q) start = some p.length := by
    rw [hstart, append_assoc]
    exact boundaryAt_width Char.utf8Size_pos _ _
  unfold cut
  rw [hfirst, hlast]
  have hle : p.length ≤ (p ++ s).length := by
    rw [length_append]
    exact Nat.le_add_right _ _
  simp only [Option.bind_eq_bind, Option.bind_some]
  rw [if_pos hle, take_left, drop_left]

lemma offsets_append (lengths : List ℕ) (length : ℕ) :
    offsets (lengths ++ [length]) = offsets lengths ++ [(offsets lengths).getLastD 0 + length] :=
  foldl_append

lemma offsets_eq (lengths : List ℕ) :
    offsets lengths = (range (lengths.length + 1)).map fun k => (lengths.take k).sum := by
  induction lengths using reverseRecOn with
  | nil => rfl
  | append_singleton lengths length ih =>
    have hkeep : ∀ k ∈ range (lengths.length + 1),
        (lengths.take k).sum = ((lengths ++ [length]).take k).sum := by
      intro k hk
      rw [take_append_of_le_length (Nat.lt_succ_iff.1 (mem_range.1 hk))]
    have hall : ((lengths ++ [length]).take (lengths.length + 1)).sum = lengths.sum + length := by
      rw [take_of_length_le (by simp), sum_append, sum_singleton]
    have hlast : (offsets lengths).getLastD 0 = lengths.sum := by
      rw [ih, range_succ, map_append, map_singleton, getLastD_concat, take_length]
    rw [offsets_append, hlast, ih, length_append, length_singleton,
      range_succ (n := lengths.length + 1), map_append, map_singleton, hall,
      map_congr_left hkeep]

variable {k : ℕ}

/-- The text of the lines before a line, and its offset. -/
lemma offset_of_line (lines : List Text) (hk : k ≤ lines.length) :
    (offsets (lines.map lenUtf8))[k]? = some (lenUtf8 (lines.take k).flatten) := by
  have hlength : lenUtf8 (lines.take k).flatten = ((lines.map lenUtf8).take k).sum := by
    rw [← map_take]
    unfold lenUtf8 width
    rw [map_flatten, sum_flatten, map_map]
    rfl
  rw [offsets_eq, getElem?_map, length_map, getElem?_range (by omega), hlength]
  rfl

lemma commonHead_spec (a b : Text) :
    ∃ head a' b', a = head ++ a' ∧ b = head ++ b' ∧ commonHead a b = lenUtf8 head := by
  induction a generalizing b with
  | nil => exact ⟨[], [], b, rfl, rfl, rfl⟩
  | cons c a ih =>
    cases b with
    | nil => exact ⟨[], c :: a, [], rfl, rfl, rfl⟩
    | cons d b =>
      by_cases hcd : c = d
      · subst hcd
        obtain ⟨head, a', b', ha, hb, hlength⟩ := ih b
        refine ⟨c :: head, a', b', by rw [ha]; rfl, by rw [hb]; rfl, ?_⟩
        have hcons : commonHead (c :: a) (c :: b) = c.utf8Size + commonHead a b := by
          unfold commonHead
          rw [zip_cons_cons, takeWhile_cons_of_pos (by simp), map_cons]
          exact width_cons _ _ _
        rw [hcons, hlength]
        exact (width_cons _ _ _).symm
      · refine ⟨[], c :: a, d :: b, rfl, rfl, ?_⟩
        unfold commonHead
        rw [zip_cons_cons, takeWhile_cons_of_neg (by simpa using hcd)]
        rfl

lemma lenUtf8_reverse (text : Text) : lenUtf8 text.reverse = lenUtf8 text := by
  unfold lenUtf8 width
  rw [map_reverse, sum_reverse]

lemma commonEdges_spec (a b : Text) : ∃ head x y tail, a = head ++ x ++ tail ∧
    b = head ++ y ++ tail ∧ commonEdges a b = some (lenUtf8 head, lenUtf8 tail) := by
  obtain ⟨head, a', b', rfl, rfl, hhead⟩ := commonHead_spec a b
  obtain ⟨tail, x, y, ha, hb, htail⟩ := commonHead_spec a'.reverse b'.reverse
  refine ⟨head, x.reverse, y.reverse, tail.reverse, ?_, ?_, ?_⟩
  · rw [append_assoc, ← reverse_append, ← ha, reverse_reverse]
  · rw [append_assoc, ← reverse_append, ← hb, reverse_reverse]
  · have hcut : ∀ rest, cut (head ++ rest) (lenUtf8 head) (lenUtf8 (head ++ rest)) = some rest := by
      intro rest
      have hmiddle := cut_middle head rest [] rfl (width_append _ _ _)
      rwa [append_nil] at hmiddle
    unfold commonEdges
    rw [hhead]
    simp only [Option.bind_eq_bind, hcut, Option.bind_some, htail, lenUtf8_reverse]

/-- A run between two fronts becomes a patch of what differs in its middle. -/
lemma patchOf_spec (path : String) {before after p was q p' now q' : Text}
    {oldAt newAt : List ℕ} (run : Run) (hbefore : before = p ++ was ++ q)
    (hafter : after = p' ++ now ++ q') (hstart : oldAt[run.oldStart]? = some (lenUtf8 p))
    (hstop : oldAt[run.oldStop]? = some (lenUtf8 (p ++ was)))
    (hstart' : newAt[run.newStart]? = some (lenUtf8 p'))
    (hstop' : newAt[run.newStop]? = some (lenUtf8 (p' ++ now))) :
    ∃ head x y tail, was = head ++ x ++ tail ∧ now = head ++ y ++ tail ∧
      patchOf path before after oldAt newAt run = some (if x ≠ y then
        some ⟨path, lenUtf8 (p ++ head), lenUtf8 (p ++ head ++ x), x, y⟩ else none) := by
  obtain ⟨head, x, y, tail, hwas, hnow, hedges⟩ := commonEdges_spec was now
  refine ⟨head, x, y, tail, hwas, hnow, ?_⟩
  have hcutWas : cut before (lenUtf8 p) (lenUtf8 (p ++ was)) = some was := by
    rw [hbefore]
    exact cut_middle p was q rfl (width_append _ _ _)
  have hcutNow : cut after (lenUtf8 p') (lenUtf8 (p' ++ now)) = some now := by
    rw [hafter]
    exact cut_middle p' now q' rfl (width_append _ _ _)
  have hmiddle : ∀ z, cut (head ++ z ++ tail) (lenUtf8 head)
      (lenUtf8 (head ++ z ++ tail) - lenUtf8 tail) = some z := by
    intro z
    refine cut_middle head z tail rfl ?_
    rw [lenUtf8, width_append, width_append, Nat.add_sub_cancel]
  have hstartSum : lenUtf8 p + lenUtf8 head = lenUtf8 (p ++ head) := (width_append _ _ _).symm
  have hstopSum : lenUtf8 (p ++ was) - lenUtf8 tail = lenUtf8 (p ++ head ++ x) := by
    rw [hwas]
    simp only [lenUtf8, width_append]
    omega
  unfold patchOf
  simp only [Option.bind_eq_bind, hstart, hstop, hstart', hstop', Option.bind_some, hcutWas, hcutNow,
    hedges, hstartSum, hstopSum]
  rw [hwas, hnow]
  simp only [hmiddle, Option.bind_some]
  split_ifs <;> rfl

/-- Patches of what is behind a front of the old text; `apart` tells that the first patch may not
begin at once. -/
inductive Aligned (path : String) : Text → Bool → Text → Text → List Patch → Prop where
  | same (front : Text) (apart : Bool) (rest : Text) : Aligned path front apart rest rest []
  | patch (front : Text) (apart : Bool) (keep x y old new : Text) {patches : List Patch} :
      (apart = true → keep ≠ []) → x ≠ y → Aligned path (front ++ keep ++ x) true old new patches →
      Aligned path front apart (keep ++ (x ++ old)) (keep ++ (y ++ new))
        (⟨path, lenUtf8 (front ++ keep), lenUtf8 (front ++ keep ++ x), x, y⟩ :: patches)

section Aligned
variable {path : String} {front old new : Text} {apart : Bool} {patches : List Patch}

/-- A text that is kept may stand before the rest. -/
lemma Aligned.before {keep : Text} {b : Bool}
    (h : Aligned path (front ++ keep) apart old new patches)
    (hapart : b = true → keep ≠ [] ∨ apart = true) :
    Aligned path front b (keep ++ old) (keep ++ new) patches := by
  obtain ⟨whole, hwhole⟩ : ∃ whole, front ++ keep = whole := ⟨_, rfl⟩
  rw [hwhole] at h
  cases h with
  | same => exact .same _ _ _
  | patch _ _ keep' x y old new hkeep hxy hrest =>
    have hmore : b = true → keep ++ keep' ≠ [] := by
      intro happ hnil
      obtain ⟨hnil, hnil'⟩ := append_eq_nil_iff.1 hnil
      exact (hapart happ).elim (fun hne => hne hnil) fun hold => hkeep hold hnil'
    subst hwhole
    rw [append_assoc front] at hrest
    have hpatch := Aligned.patch front b (keep ++ keep') x y old new hmore hxy hrest
    simpa only [append_assoc] using hpatch

/-- What a patch says of the old text. -/
def Places (path : String) (old : Text) (p : Patch) : Prop :=
  p.path = path ∧ ∃ before behind, old = before ++ p.captured ++ behind ∧
    p.start = lenUtf8 before ∧ p.stop = lenUtf8 (before ++ p.captured)

lemma Places.le {p : Patch} (h : Places path old p) : p.start ≤ p.stop := by
  obtain ⟨_, before, behind, _, hstart, hstop⟩ := h
  rw [hstart, hstop, lenUtf8, lenUtf8, width_append]
  exact Nat.le_add_right _ _

lemma Aligned.places (h : Aligned path front apart old new patches) :
    (∀ p ∈ patches, Places path (front ++ old) p ∧ lenUtf8 front ≤ p.start ∧
      (apart = true → lenUtf8 front < p.start)) ∧
      patches.Pairwise fun p q => p.stop < q.start := by
  induction h with
  | same => exact ⟨fun p hp => absurd hp not_mem_nil, Pairwise.nil⟩
  | patch front apart keep x y old new hkeep _ _ ih =>
    obtain ⟨hplaces, hpairs⟩ := ih
    have hwhole : front ++ (keep ++ (x ++ old)) = front ++ keep ++ x ++ old := by simp
    have hlength : lenUtf8 (front ++ keep) = lenUtf8 front + lenUtf8 keep := width_append _ _ _
    have hlength' : lenUtf8 (front ++ keep ++ x) = lenUtf8 (front ++ keep) + lenUtf8 x :=
      width_append _ _ _
    have hpos : apart = true → 0 < lenUtf8 keep := by
      intro happ
      refine Nat.pos_of_ne_zero fun hzero => hkeep happ (width_eq_zero Char.utf8Size_pos hzero)
    rw [hwhole]
    refine ⟨?_, pairwise_cons.2 ⟨fun q hq => (hplaces q hq).2.2 rfl, hpairs⟩⟩
    intro p hp
    obtain rfl | hp := mem_cons.1 hp
    · refine ⟨⟨rfl, front ++ keep, old, rfl, rfl, rfl⟩, ?_, fun happ => ?_⟩
      · exact hlength ▸ Nat.le_add_right _ _
      · have hkeepPos := hpos happ
        dsimp only
        omega
    · obtain ⟨hplace, hle, hlt⟩ := hplaces p hp
      have hlater := hlt rfl
      exact ⟨hplace, by omega, fun _ => by omega⟩

/-- Patches are applied from the last to the first. -/
def applyPatches (bytes : Bytes) (patches : List Patch) : Bytes :=
  patches.foldr (fun p bytes => splice bytes p.start p.stop (utf8 p.replacement)) bytes

lemma utf8_append (a b : Text) : utf8 (a ++ b) = utf8 a ++ utf8 b := flatMap_append

lemma Aligned.applyPatches (h : Aligned path front apart old new patches) :
    applyPatches (utf8 (front ++ old)) patches = utf8 (front ++ new) := by
  induction h with
  | same => rfl
  | @patch front apart keep x y old new patches _ _ _ ih =>
    have hassoc : front ++ (keep ++ (x ++ old)) = front ++ keep ++ x ++ old := by simp
    have hassoc' : utf8 (front ++ (keep ++ (y ++ new))) =
        utf8 (front ++ keep) ++ utf8 y ++ utf8 new := by simp [utf8_append]
    rw [hassoc, hassoc']
    change splice (Diff.applyPatches (utf8 (front ++ keep ++ x ++ old)) patches)
      (lenUtf8 (front ++ keep)) (lenUtf8 (front ++ keep ++ x)) (utf8 y) = _
    have hfirst : utf8 (front ++ keep ++ x ++ new) =
        utf8 (front ++ keep) ++ (utf8 x ++ utf8 new) := by simp [utf8_append]
    have hlength : ∀ z : Text, lenUtf8 z = (utf8 z).length := fun z => (length_utf8 z).symm
    rw [ih, splice, hlength, hlength, hfirst, take_left, ← hfirst, utf8_append _ new, drop_left]

end Aligned

section Script
variable {diff : TextDiff} {path : String} {before after : Text}

variable {lines : List Text} {i j l : ℕ} {behind : List Run}

lemma take_flatten (hik : i ≤ k) :
    (lines.take k).flatten = (lines.take i).flatten ++ ((lines.take k).drop i).flatten := by
  have htake : (lines.take k).take i = lines.take i := by rw [take_take, min_eq_left hik]
  rw [← flatten_append, ← htake, take_append_drop]

lemma drop_flatten (hik : i ≤ k) :
    (lines.drop i).flatten = ((lines.take k).drop i).flatten ++ (lines.drop k).flatten := by
  rw [← flatten_append]
  congr 1
  conv_lhs => rw [← take_append_drop k lines]
  by_cases hk : k ≤ lines.length
  · rw [drop_append_of_le_length (by rw [length_take, min_eq_left hk]; exact hik)]
  · have hlong : lines.length ≤ k := (Nat.lt_of_not_le hk).le
    rw [drop_of_length_le hlong, append_nil, append_nil]

/-- What the patches of the runs behind a line are. -/
def Patched (path : String) (before after : Text) (diff : TextDiff) (i j : ℕ) (apart : Bool)
    (behind : List Run) : Prop :=
  ∃ found, behind.mapM (patchOf path before after (offsets (diff.oldSlices.map lenUtf8))
      (offsets (diff.newSlices.map lenUtf8))) = some found ∧
    Aligned path (diff.oldSlices.take i).flatten apart (diff.oldSlices.drop i).flatten
      (diff.newSlices.drop j).flatten found.reduceOption

/-- A run and the patches behind it. -/
lemma patched_run (hdiff : IsDiff before after diff) (hik : i ≤ k)
    (hk : k ≤ diff.oldSlices.length) (hjl : j ≤ l) (hl : l ≤ diff.newSlices.length)
    (h : Patched path before after diff k l true behind) :
    Patched path before after diff i j false (⟨i, k, j, l⟩ :: behind) := by
  obtain ⟨found, hfound, haligned⟩ := h
  have hold : (diff.oldSlices.take k).flatten = (diff.oldSlices.take i).flatten ++
      ((diff.oldSlices.take k).drop i).flatten := take_flatten hik
  have hnew : (diff.newSlices.take l).flatten = (diff.newSlices.take j).flatten ++
      ((diff.newSlices.take l).drop j).flatten := take_flatten hjl
  have hbefore : before = (diff.oldSlices.take i).flatten ++
      ((diff.oldSlices.take k).drop i).flatten ++ (diff.oldSlices.drop k).flatten := by
    rw [← hold, ← flatten_append, take_append_drop, hdiff.old]
  have hafter : after = (diff.newSlices.take j).flatten ++
      ((diff.newSlices.take l).drop j).flatten ++ (diff.newSlices.drop l).flatten := by
    rw [← hnew, ← flatten_append, take_append_drop, hdiff.new]
  obtain ⟨head, x, y, tail, hwas, hnow, hpatch⟩ := patchOf_spec path ⟨i, k, j, l⟩ hbefore hafter
    (offset_of_line _ (hik.trans hk)) (hold ▸ offset_of_line _ hk)
    (offset_of_line _ (hjl.trans hl)) (hnew ▸ offset_of_line _ hl)
  refine ⟨_ :: found, by rw [mapM_cons, hpatch, hfound]; rfl, ?_⟩
  rw [drop_flatten hik, drop_flatten hjl, hwas, hnow]
  rw [hold, hwas] at haligned
  by_cases hxy : x = y
  · subst hxy
    rw [if_neg (not_not_intro rfl)]
    exact haligned.before fun hfalse => absurd hfalse Bool.false_ne_true
  · rw [if_pos hxy, reduceOption_cons_of_some]
    rw [← append_assoc, ← append_assoc] at haligned
    have hpatched := Aligned.patch (diff.oldSlices.take i).flatten false head x y _ _
      (fun hfalse => absurd hfalse Bool.false_ne_true) hxy
      (haligned.before (b := true) fun _ => .inr rfl)
    simpa only [append_assoc] using hpatched

/-- Lines that are kept and the patches behind them. -/
lemma patched_kept (hdiff : IsDiff before after diff) (hik : i < k)
    (hk : k ≤ diff.oldSlices.length) (hjl : j ≤ l)
    (hkept : (diff.oldSlices.take k).drop i = (diff.newSlices.take l).drop j)
    (h : Patched path before after diff k l false behind) (apart : Bool) :
    Patched path before after diff i j apart behind := by
  obtain ⟨found, hfound, haligned⟩ := h
  refine ⟨found, hfound, ?_⟩
  rw [take_flatten hik.le] at haligned
  rw [drop_flatten hik.le, drop_flatten hjl, ← hkept]
  refine haligned.before fun _ => .inl fun hnil => ?_
  have hmem : diff.oldSlices[i] ∈ (diff.oldSlices.take k).drop i :=
    mem_drop_iff_getElem.2 ⟨0, by rw [length_take]; omega, by simp⟩
  exact hdiff.lines _ (getElem_mem (by omega)) (flatten_eq_nil_iff.1 hnil _ hmem)

/-- The patches behind a line of a script, and those from a run that may go on. -/
lemma script_patched (hdiff : IsDiff before after diff) {ops : List DiffOp} :
    (∀ i j, Script diff.oldSlices diff.newSlices i j ops →
      Patched path before after diff i j false (runsFrom none ops)) ∧
    ∀ i j k l, Script diff.oldSlices diff.newSlices k l ops → i ≤ k → j ≤ l →
      k ≤ diff.oldSlices.length → l ≤ diff.newSlices.length →
      Patched path before after diff i j false (runsFrom (some ⟨i, k, j, l⟩) ops) := by
  induction ops with
  | nil =>
    have hend : ∀ i j apart, Script diff.oldSlices diff.newSlices i j [] →
        Patched path before after diff i j apart [] := by
      rintro i j apart ⟨rfl, rfl⟩
      refine ⟨[], rfl, ?_⟩
      rw [drop_length, drop_length]
      exact .same _ _ _
    exact ⟨fun i j => hend i j false, fun i j k l hscript hik hjl hk hl =>
      patched_run hdiff hik hk hjl hl (hend k l true hscript)⟩
  | cons op ops ih =>
    obtain ⟨ihNone, ihSome⟩ := ih
    obtain ⟨tag, a, b, c, d⟩ := op
    by_cases htag : tag = .equal
    · have hkept : ∀ i j apart, Script diff.oldSlices diff.newSlices i j (⟨tag, a, b, c, d⟩ :: ops) →
          Patched path before after diff i j apart (runsFrom none ops) := by
        rintro i j apart ⟨⟨rfl, rfl⟩, ⟨hle, hb⟩, ⟨hle', hd⟩, hequal, hrest⟩
        obtain ⟨hlt, hsame⟩ := hequal htag
        exact patched_kept hdiff hlt hb hle' hsame (ihNone _ _ hrest) apart
      constructor
      · intro i j hscript
        rw [runsFrom, if_pos htag]
        exact hkept i j false hscript
      · intro i j k l hscript hik hjl hk hl
        rw [runsFrom, if_pos htag]
        exact patched_run hdiff hik hk hjl hl (hkept k l true hscript)
    · constructor
      · rintro i j ⟨⟨rfl, rfl⟩, ⟨hle, hb⟩, ⟨hle', hd⟩, _, hrest⟩
        rw [runsFrom, if_neg htag]
        exact ihSome a c b d hrest hle hle' hb hd
      · rintro i j k l ⟨⟨rfl, rfl⟩, ⟨hle, hb⟩, ⟨hle', hd⟩, _, hrest⟩ hik hjl _ _
        rw [runsFrom, if_neg htag]
        exact ihSome i j b d hrest (hik.trans hle) (hjl.trans hle') hb hd

end Script

/-- The patches are made, are in order with a character between any two, capture what the old text
has there and together make the new text, are none exactly when the texts are equal, and are
accepted by the check for an agent's patches. -/
theorem patches_exact (fromLines : Text → Text → TextDiff) (path : String) (before after : Text)
    (hdiff : IsDiff before after (fromLines before after)) :
    ∃ found, patches fromLines path before after = some found ∧
      (∀ p ∈ found, Places path before p) ∧ found.Pairwise (fun p q => p.stop < q.start) ∧
      applyPatches (utf8 before) found = utf8 after ∧ (found = [] ↔ before = after) ∧
      checkOverlaps (found.map fun p => (p.start, p.stop)) agentPatch = .ok () := by
  by_cases heq : before = after
  · subst heq
    refine ⟨[], if_pos rfl, fun p hp => absurd hp not_mem_nil, Pairwise.nil, rfl,
      ⟨fun _ => rfl, fun _ => rfl⟩, ?_⟩
    exact checkOverlaps_ok (fun a ha => absurd ha not_mem_nil) Pairwise.nil _
  · obtain ⟨found, hfound, haligned⟩ :
        Patched path before after (fromLines before after) 0 0 false
          (runsFrom none (fromLines before after).ops) :=
      (script_patched hdiff).1 0 0 hdiff.script
    rw [take_zero, drop_zero, drop_zero, hdiff.old, hdiff.new] at haligned
    obtain ⟨hplaces, hpairs⟩ := haligned.places
    have happly := haligned.applyPatches
    refine ⟨found.reduceOption, ?_, fun p hp => (hplaces p hp).1, hpairs, happly, ?_, ?_⟩
    · unfold patches
      rw [if_neg heq]
      dsimp only
      rw [runs_eq, hfound]
      rfl
    · refine ⟨fun hnil => ?_, fun h => absurd h heq⟩
      rw [hnil] at haligned
      cases haligned
      rfl
    · refine checkOverlaps_ok ?_ (pairwise_map.2 hpairs) _
      intro range hrange
      obtain ⟨p, hp, rfl⟩ := mem_map.1 hrange
      exact (hplaces p hp).1.le

/-- A line that is kept, and a line that is written in capitals. -/
def capitals : TextDiff where
  oldSlices := ["one\n".toList, "two\n".toList]
  newSlices := ["one\n".toList, "TWO\n".toList]
  ops := [⟨.equal, 0, 1, 0, 1⟩, ⟨.replace, 1, 2, 1, 2⟩]

theorem capitals_exact :
    patches (fun _ _ => capitals) "a.tex" "one\ntwo\n".toList "one\nTWO\n".toList =
      some [⟨"a.tex", 4, 7, "two".toList, "TWO".toList⟩] ∧
    ∃ found, patches (fun _ _ => capitals) "a.tex" "one\ntwo\n".toList "one\nTWO\n".toList =
      some found ∧ applyPatches (utf8 "one\ntwo\n".toList) found = utf8 "one\nTWO\n".toList := by
  have hdiff : IsDiff "one\ntwo\n".toList "one\nTWO\n".toList capitals :=
    ⟨by decide, by decide, by decide, by simp only [Script, capitals]; decide⟩
  obtain ⟨found, hfound, -, -, happly, -⟩ := patches_exact (fun _ _ => capitals) "a.tex" _ _ hdiff
  exact ⟨by decide, found, hfound, happly⟩

end LibrePaper.Sync.Diff
