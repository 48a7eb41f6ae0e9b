import LibrePaper.Track.Browser

/-!
# Offsets in code units

An offset of the planner, which counts characters, is the number of code units before it. The gaps of
the browser's planner are those of the planner in these offsets, piece by piece: a character that two
code units spell is pushed as two pieces, which join.
-/
namespace LibrePaper.Track
open Library List
open Anchors (lenUtf16 charLenUtf16 charLenUtf16_pos length_utf16 utf16_append utf16_eq_nil)
open Anchors.Browser (Units utf16 encodeUtf16)

/-- The code units before a character offset. Past the text every offset counts one. -/
def offset (text : List Char) (p : ℕ) : ℕ := lenUtf16 (text.take p) + (p - text.length)

lemma lenUtf16_append (a b : List Char) : lenUtf16 (a ++ b) = lenUtf16 a + lenUtf16 b :=
  width_append _ a b

variable {text : List Char} {p q : ℕ} {ch : Char} {e : OneEdit} {u : ℕ → ℕ} {l ps : List Fragment}
  {rows : List Row}

lemma offset_succ (h : text[p]? = some ch) :
    offset text (p + 1) = offset text p + charLenUtf16 ch := by
  obtain ⟨hp, hch⟩ := List.getElem?_eq_some_iff.1 h
  have hlen : lenUtf16 (text.take (p + 1)) = lenUtf16 (text.take p) + charLenUtf16 ch := by
    rw [List.take_succ_eq_append_getElem hp, lenUtf16_append, hch]
    rfl
  rw [offset, offset, hlen]
  omega

lemma offset_strictMono (text : List Char) : StrictMono (offset text) := by
  refine strictMono_nat_of_lt_succ fun p => ?_
  by_cases hp : p < text.length
  · have := charLenUtf16_pos text[p]
    rw [offset_succ (getElem?_eq_getElem hp)]
    omega
  · have hle : text.length ≤ p := Nat.le_of_not_lt hp
    rw [offset, offset, take_of_length_le hle, take_of_length_le (Nat.le_succ_of_le hle)]
    omega

lemma offset_length (a b : List Char) : offset (a ++ b) a.length = lenUtf16 a := by
  rw [offset, take_left, length_append]
  omega

lemma offset_before (a b b' : List Char) (hp : p ≤ a.length) :
    offset (a ++ b) p = offset (a ++ b') p := by
  rw [offset, offset, take_append_of_le_length hp, take_append_of_le_length hp,
    length_append, length_append]
  omega

lemma offset_after (a b : List Char) (k : ℕ) :
    offset (a ++ b) (a.length + k) = lenUtf16 a + offset b k := by
  rw [offset, offset, take_length_add_append, lenUtf16_append, length_append]
  omega

/-- An edit in characters and in code units, with the offsets before it and after it. -/
structure Carries (e : OneEdit) (e' : Browser.OneEdit) (u v : ℕ → ℕ) : Prop where
  le : e.ef ≤ e.et
  ef : e'.ef = u e.ef
  et : e'.et = u e.et
  len : e'.len = 0 ↔ e.len = 0
  mono : StrictMono u
  mono' : StrictMono v
  before : ∀ p ≤ e.ef, v p = u p
  stop : v e.stop = e'.stop
  after : ∀ p, e.et ≤ p → v (e.shift p) = e'.shift (u p)

lemma Carries.pos {e' : Browser.OneEdit} {v : ℕ → ℕ} (h : Carries e e' u v) :
    0 < e'.len ↔ 0 < e.len := by
  have := h.len
  omega

lemma carries {insert : List Char} (hfits : e.Fits text.length) (hinsert : e.insert = insert) :
    Carries e ⟨offset text e.ef, offset text e.et, utf16 insert⟩ (offset text)
      (offset (splice text e.ef e.et insert)) := by
  subst hinsert
  obtain ⟨hle, hbound⟩ := hfits
  obtain ⟨a, b, rfl, ha⟩ : ∃ a b, text = a ++ b ∧ a.length = e.ef :=
    ⟨text.take e.ef, text.drop e.ef, (take_append_drop ..).symm, by
      rw [length_take]
      omega⟩
  obtain ⟨d, b, rfl, hd⟩ : ∃ d b', b = d ++ b' ∧ d.length = e.et - e.ef :=
    ⟨b.take (e.et - e.ef), b.drop (e.et - e.ef), (take_append_drop ..).symm, by
      rw [length_append] at hbound
      rw [length_take]
      omega⟩
  have het : e.et = (a ++ d).length := by
    rw [length_append]
    omega
  have hsplice : splice (a ++ (d ++ b)) e.ef e.et e.insert = a ++ (e.insert ++ b) := by
    rw [splice, ← ha, take_left, ← append_assoc a d, het, drop_left, append_assoc]
  have hef : offset (a ++ (d ++ b)) e.ef = lenUtf16 a := by rw [← ha, offset_length]
  have hof : offset (a ++ (d ++ b)) e.et = lenUtf16 a + lenUtf16 d := by
    rw [← append_assoc, het, offset_length, lenUtf16_append]
  have hlen : (⟨offset (a ++ (d ++ b)) e.ef, offset (a ++ (d ++ b)) e.et, utf16 e.insert⟩ :
      Browser.OneEdit).len = lenUtf16 e.insert := length_utf16 _
  rw [hsplice]
  refine ⟨hle, rfl, rfl, ?_, offset_strictMono _, offset_strictMono _, fun p hp => ?_, ?_,
    fun p hp => ?_⟩
  · rw [hlen]
    refine ⟨fun h => ?_, fun h => ?_⟩
    · rw [OneEdit.len, width_eq_zero charLenUtf16_pos h]
      rfl
    · rw [length_eq_zero_iff.1 h]
      rfl
  · exact offset_before _ _ _ (ha ▸ hp)
  · rw [OneEdit.stop, Browser.OneEdit.stop, hlen, hef, OneEdit.len, ← ha, ← append_assoc,
      ← length_append, offset_length, lenUtf16_append]
  · obtain ⟨k, rfl⟩ := Nat.exists_eq_add_of_le hp
    have hold : offset (a ++ (d ++ b)) (e.et + k) = lenUtf16 a + lenUtf16 d + offset b k := by
      rw [← append_assoc, het, offset_after, lenUtf16_append]
    have hshift : e.shift (e.et + k) = (a ++ e.insert).length + k := by
      rw [OneEdit.shift, OneEdit.len, length_append]
      omega
    rw [hshift, ← append_assoc, offset_after, lenUtf16_append, Browser.OneEdit.shift, hlen,
      hold, hef, hof]
    show lenUtf16 a + lenUtf16 e.insert + offset b k = lenUtf16 a + lenUtf16 d + offset b k +
      lenUtf16 e.insert - (lenUtf16 a + lenUtf16 d - lenUtf16 a)
    omega

def ChangeRecord.inUnits (u : ℕ → ℕ) (c : ChangeRecord) : ChangeRecord :=
  { c with fromPos := u c.fromPos, toPos := u c.toPos }

def Fragment.inUnits (f : Fragment) : Browser.Fragment :=
  ⟨f.id, f.change, utf16 f.text, f.rank, f.stale⟩

def Gap.inUnits (u : ℕ → ℕ) (g : Gap) : Browser.Gap :=
  ⟨g.id, u g.point, g.fragments.map Fragment.inUnits, g.stale⟩

def gapInUnits (u : ℕ → ℕ) (g : GapRow) : Browser.GapRow := (g.1.inUnits u, g.2)

def FileState.inUnits (u : ℕ → ℕ) (state : FileState) : Browser.FileState :=
  ⟨state.changes.map (ChangeRecord.inUnits u), state.gaps.map (Gap.inUnits u)⟩

def Edit.inUnits (u : ℕ → ℕ) (e : Edit) : Browser.Edit :=
  ⟨u e.fromPos, u e.toPos, utf16 e.insert⟩

/-- Every stored fragment has an id. -/
def Named (l : List Fragment) : Prop := ∀ f ∈ l, f.id ≠ some ""

lemma present_eq {id : Option String} (h : id ≠ some "") : Browser.present id = id.isSome := by
  cases id with
  | none => rfl
  | some id => exact decide_eq_true fun hid => h (congrArg some hid)

lemma named_pushFragments (hl : Named l) (hp : Named ps) : Named (pushFragments l ps) :=
  pushFragments_forall (P := fun f => f.id ≠ some "") (fun _ _ _ ha _ => ha) (fun _ ha => ha) hl hp

lemma pushFragment_inUnits {f : Fragment} (hl : Named l) (hf : f.id ≠ some "") :
    Browser.pushFragment (l.map Fragment.inUnits) f.inUnits =
      (pushFragment l f).map Fragment.inUnits := by
  have hpiece : (if Browser.present f.inUnits.id = true then f.inUnits.id else none) = f.id := by
    have hp : Browser.present f.inUnits.id = f.id.isSome := present_eq hf
    rw [hp]
    cases hid : f.id with
    | none => rfl
    | some id => exact if_pos rfl |>.trans hid
  rw [Browser.pushFragment, pushFragment, getLast?_map, hpiece]
  cases hlast : l.getLast? with
  | none =>
    rw [map_append]
    rfl
  | some last =>
    have hmem : last ∈ l := mem_of_getLast? hlast
    have hcond : (last.inUnits.change = f.inUnits.change ∧
        Browser.present last.inUnits.id = false ∧ Browser.present f.inUnits.id = false) ↔
        last.change = f.change ∧ last.id = none ∧ f.id = none := by
      have h1 : Browser.present last.inUnits.id = last.id.isSome := present_eq (hl last hmem)
      have h2 : Browser.present f.inUnits.id = f.id.isSome := present_eq hf
      rw [h1, h2, Option.isSome_eq_false_iff, Option.isSome_eq_false_iff, Option.isNone_iff_eq_none,
        Option.isNone_iff_eq_none]
      exact Iff.rfl
    by_cases hjoin : last.change = f.change ∧ last.id = none ∧ f.id = none
    · simp only [Option.map_some, if_pos (hcond.2 hjoin), if_pos hjoin, map_append,
        map_dropLast, map_singleton]
      simp only [Fragment.inUnits, utf16_append]
    · simp only [Option.map_some, if_neg fun hno => hjoin (hcond.1 hno), if_neg hjoin,
        map_append, map_singleton]
      rfl

lemma pushFragments_inUnits (hl : Named l) (hp : Named ps) :
    Browser.pushFragments (l.map Fragment.inUnits) (ps.map Fragment.inUnits) =
      (pushFragments l ps).map Fragment.inUnits := by
  induction ps generalizing l with
  | nil => rfl
  | cons f ps ih =>
    have hf := hp f mem_cons_self
    have hps : Named ps := fun g hg => hp g (mem_cons_of_mem _ hg)
    have hnext : Named (pushFragments l [f]) :=
      named_pushFragments hl fun g hg => mem_singleton.1 hg ▸ hf
    have hstep : _ = (pushFragments (pushFragment l f) ps).map _ := ih hnext hps
    rw [← pushFragment_inUnits hl hf] at hstep
    exact hstep

lemma hasSpan_inUnits (hu : StrictMono u) (c : ChangeRecord) :
    hasSpan (c.inUnits u) = hasSpan c := by
  rw [Bool.eq_iff_iff, hasSpan_iff, hasSpan_iff]
  exact hu.lt_iff_lt

/-- A unit belongs to the character it spells. -/
lemma covers_inUnits (hu : StrictMono u) (h1 : u p ≤ q) (h2 : q < u (p + 1)) (c : ChangeRecord) :
    (c.inUnits u).covers q ↔ c.covers p := by
  refine and_congr ⟨fun h => ?_, fun h => ?_⟩ ⟨fun h => ?_, fun h => ?_⟩
  · exact Nat.lt_succ_iff.1 (hu.lt_iff_lt.1 (Nat.lt_of_le_of_lt h h2))
  · exact (hu.le_iff_le.2 h).trans h1
  · exact hu.lt_iff_lt.1 (Nat.lt_of_le_of_lt h1 h)
  · exact Nat.lt_of_lt_of_le h2 (hu.le_iff_le.2 h)

/-- The rows hold the same records, in some order. -/
def Same (u : ℕ → ℕ) (rows rows' : List Row) : Prop :=
  (rows'.map Prod.fst).Perm ((rows.map Prod.fst).map (ChangeRecord.inUnits u))

lemma Same.covered {rows' : List Row} (h : Same u rows rows') (hu : StrictMono u) (h1 : u p ≤ q)
    (h2 : q < u (p + 1)) : Covered rows' q ↔ Covered rows p := by
  have hrecords : ∀ (l : List Row) q, Covered l q ↔ ∃ c ∈ l.map Prod.fst, c.covers q := by
    intro l q
    refine ⟨fun ⟨r, hr, hc⟩ => ⟨r.1, mem_map_of_mem hr, hc⟩, fun ⟨c, hc, hcov⟩ => ?_⟩
    obtain ⟨r, hr, rfl⟩ := mem_map.1 hc
    exact ⟨r, hr, hcov⟩
  rw [hrecords, hrecords]
  refine ⟨fun ⟨c, hc, hcov⟩ => ?_, fun ⟨c, hc, hcov⟩ => ?_⟩
  · obtain ⟨d, hd, rfl⟩ := mem_map.1 (h.mem_iff.1 hc)
    exact ⟨d, hd, (covers_inUnits hu h1 h2 d).1 hcov⟩
  · exact ⟨_, h.mem_iff.2 (mem_map_of_mem hc), (covers_inUnits hu h1 h2 c).2 hcov⟩

lemma spanAt_eq_none : Browser.spanAt rows q = none ↔ ¬Covered rows q := by
  rw [← spanEndAt_eq_none, Browser.spanAt, spanEndAt, Option.map_eq_none_iff,
    Option.map_eq_none_iff]

section Walk
variable {u v : ℕ → ℕ} {cur : List Char} {rows rows' : List Row} {sw : List Gap}
  {mine : Option ChangeRecord} {owned : List String} {e : OneEdit} {e' : Browser.OneEdit}

lemma relabel_inUnits (f : Fragment) :
    Browser.relabel (mine.map (ChangeRecord.inUnits v)) owned f.inUnits =
      (relabel mine owned f).inUnits := by
  cases mine <;> rfl

lemma gapPieces_inUnits (hu : StrictMono u) (p : ℕ) :
    Browser.gapPieces (sw.map (Gap.inUnits u)) (mine.map (ChangeRecord.inUnits v)) owned (u p) =
      (gapPieces sw mine owned p).map Fragment.inUnits := by
  have hfilter : (sw.map (Gap.inUnits u)).filter (fun g => g.point = u p) =
      (sw.filter fun g => g.point = p).map (Gap.inUnits u) := by
    rw [filter_map]
    refine congrArg _ (filter_congr fun g _ => decide_eq_decide.2 ?_)
    exact hu.injective.eq_iff
  rw [Browser.gapPieces, gapPieces, hfilter, flatMap_map, map_map, map_flatMap, map_flatMap]
  refine flatMap_congr fun g _ => ?_
  rw [← map_map]
  show (g.fragments.map Fragment.inUnits).map _ = _
  rw [map_map, map_map]
  exact map_congr_left fun f _ => relabel_inUnits f

/-- No gap stands between two units of a character. -/
lemma gapPieces_between (hu : StrictMono u) (h1 : u p < q) (h2 : q < u (p + 1)) :
    Browser.gapPieces (sw.map (Gap.inUnits u)) (mine.map (ChangeRecord.inUnits v)) owned q = [] := by
  have hfilter : (sw.map (Gap.inUnits u)).filter (fun g => g.point = q) = [] := by
    refine filter_eq_nil_iff.2 fun g hg => ?_
    obtain ⟨g, -, rfl⟩ := mem_map.1 hg
    rw [decide_eq_true_eq]
    intro (heq : u g.point = q)
    have hlt : p < g.point := hu.lt_iff_lt.1 (heq ▸ h1)
    have hgt : g.point < p + 1 := hu.lt_iff_lt.1 (heq ▸ h2)
    omega
  rw [Browser.gapPieces, hfilter]
  rfl

/-- Two pieces that are not stored join into one. -/
lemma pushFragment_twice (l : List Browser.Fragment) (id : String) (a b : Units) :
    Browser.pushFragment (Browser.pushFragment l ⟨none, id, a, none, false⟩)
      ⟨none, id, b, none, false⟩ = Browser.pushFragment l ⟨none, id, a ++ b, none, false⟩ := by
  have hnew : ∀ t : Units, Browser.pushFragment (l ++ [⟨none, id, a, none, false⟩])
      ⟨none, id, t, none, false⟩ = l ++ [⟨none, id, a ++ t, none, false⟩] := by
    intro t
    simp only [Browser.pushFragment, getLast?_concat, dropLast_concat]
    rfl
  cases hlast : l.getLast? with
  | none =>
    have hpush : ∀ t : Units, Browser.pushFragment l ⟨none, id, t, none, false⟩ =
        l ++ [⟨none, id, t, none, false⟩] := by
      intro t
      simp only [Browser.pushFragment, hlast]
      rfl
    rw [hpush, hpush, hnew]
  | some last =>
    by_cases hjoin : last.change = id ∧ Browser.present last.id = false
    · have hpush : ∀ (l : List Browser.Fragment) (w t : Units), Browser.pushFragment
          (l ++ [{ last with text := w }]) ⟨none, id, t, none, false⟩ =
          l ++ [{ last with text := w ++ t }] := by
        intro l w t
        simp only [Browser.pushFragment, getLast?_concat, dropLast_concat]
        exact if_pos ⟨hjoin.1, hjoin.2, rfl⟩
      have hl : l = l.dropLast ++ [last] := by
        obtain ⟨ys, rfl⟩ := getLast?_eq_some_iff.1 hlast
        rw [dropLast_concat]
      rw [hl]
      have hself : ({ last with text := last.text } : Browser.Fragment) = last := rfl
      rw [← hself, hpush, hpush, hpush, append_assoc]
    · have hpush : ∀ t : Units, Browser.pushFragment l ⟨none, id, t, none, false⟩ =
          l ++ [⟨none, id, t, none, false⟩] := by
        intro t
        simp only [Browser.pushFragment, hlast]
        exact if_neg fun hno => hjoin ⟨hno.1, hno.2.1⟩
      rw [hpush, hpush, hnew]

lemma utf16_singleton (ch : Char) : utf16 [ch] = encodeUtf16 ch := append_nil _

variable {i : ℕ}

/-- The units of a character stand where its offset says. -/
lemma utf16_getElem? (hch : cur[p]? = some ch) (hi : i < (encodeUtf16 ch).length) :
    (utf16 cur)[offset cur p + i]? = (encodeUtf16 ch)[i]? := by
  obtain ⟨hp, rfl⟩ := List.getElem?_eq_some_iff.1 hch
  have hsplit : utf16 cur =
      utf16 (cur.take p) ++ (encodeUtf16 cur[p] ++ utf16 (cur.drop (p + 1))) := by
    rw [← utf16_singleton, ← utf16_append, ← utf16_append, List.singleton_append,
      ← List.drop_eq_getElem_cons hp, List.take_append_drop]
  have hoffset : offset cur p = (utf16 (cur.take p)).length := by
    rw [length_utf16, offset, Nat.sub_eq_zero_of_le hp.le, Nat.add_zero]
  rw [hsplit, hoffset, List.getElem?_append_right (Nat.le_add_right _ _), Nat.add_sub_cancel_left,
    List.getElem?_append_left hi]

variable (v mine owned)

/-- The original text at a character, unit by unit. -/
lemma originalPiece_unit (hsame : Same (offset cur) rows rows') (het : e'.et = offset cur e.et)
    (hp : p < e.et) (hch : cur[p]? = some ch) {a : UInt16} (ha : (encodeUtf16 ch)[i]? = some a) :
    Browser.originalPiece (utf16 cur) rows' (mine.map (ChangeRecord.inUnits v)) e'
        (offset cur p + i) =
      (originalPiece cur rows mine e p).map fun f => ⟨none, f.change, [a], none, false⟩ := by
  have hu := offset_strictMono cur
  have hi : i < (encodeUtf16 ch).length := (List.getElem?_eq_some_iff.1 ha).1
  have hnext : offset cur p + i < offset cur (p + 1) := by
    rw [offset_succ hch, ← Anchors.length_encodeUtf16]
    omega
  have hbefore : offset cur p + i < e'.et :=
    het ▸ Nat.lt_of_lt_of_le hnext (hu.monotone (Nat.succ_le_of_lt hp))
  have hspan : Browser.spanAt rows' (offset cur p + i) = none ↔ spanEndAt rows p = none := by
    rw [spanAt_eq_none, spanEndAt_eq_none, hsame.covered hu (Nat.le_add_right _ _) hnext]
  cases mine with
  | none => rfl
  | some m =>
    simp only [Browser.originalPiece, originalPiece, Option.map_some, utf16_getElem? hch hi, ha, hch]
    by_cases hcov : spanEndAt rows p = none
    · rw [if_pos ⟨hbefore, hspan.2 hcov⟩, if_pos ⟨hp, hcov⟩]
      rfl
    · rw [if_neg fun hno => hcov (hspan.1 hno.2), if_neg fun hno => hcov hno.2]
      rfl

lemma originalPiece_cases (rows : List Row) (e : OneEdit) (hch : cur[p]? = some ch) :
    originalPiece cur rows mine e p = [] ∨
      ∃ id, originalPiece cur rows mine e p = [⟨none, id, [ch], none, false⟩] := by
  cases mine with
  | none => exact .inl rfl
  | some m =>
    simp only [originalPiece, hch]
    split
    · exact .inr ⟨m.id, rfl⟩
    · exact .inl rfl

lemma encodeUtf16_one_or_two (ch : Char) :
    (∃ a, encodeUtf16 ch = [a] ∧ charLenUtf16 ch = 1) ∨
      ∃ a b, encodeUtf16 ch = [a, b] ∧ charLenUtf16 ch = 2 := by
  unfold encodeUtf16 charLenUtf16
  split
  · exact .inl ⟨_, rfl, rfl⟩
  · exact .inr ⟨_, _, rfl, rfl⟩

lemma pushFragments_append (l ps qs : List Fragment) :
    pushFragments l (ps ++ qs) = pushFragments (pushFragments l ps) qs := foldl_append

lemma browser_pushFragments_append (l ps qs : List Browser.Fragment) :
    Browser.pushFragments l (ps ++ qs) = Browser.pushFragments (Browser.pushFragments l ps) qs :=
  foldl_append

lemma named_gapPieces (hsw : Named (sw.flatMap Gap.fragments)) (p : ℕ) :
    Named (gapPieces sw mine owned p) := by
  intro f hf
  obtain ⟨g, hg, rfl⟩ := mem_map.1 hf
  obtain ⟨gap, hgap, hmem⟩ := mem_flatMap.1 hg
  exact hsw g (mem_flatMap.2 ⟨gap, mem_of_mem_filter hgap, hmem⟩)

/-- The units of one character are pushed as the character is. -/
lemma push_char (hl : Named l) (hsw : Named (sw.flatMap Gap.fragments))
    (hsame : Same (offset cur) rows rows') (het : e'.et = offset cur e.et) (hp : p < e.et)
    (hch : cur[p]? = some ch) (splitAtEnd : Bool) :
    Browser.pushFragments (l.map Fragment.inUnits)
      ((range' (offset cur p) (charLenUtf16 ch)).flatMap fun q =>
        (if splitAtEnd && q = e'.et then [] else Browser.gapPieces (sw.map (Gap.inUnits (offset cur)))
          (mine.map (ChangeRecord.inUnits v)) owned q) ++ Browser.originalPiece (utf16 cur) rows'
          (mine.map (ChangeRecord.inUnits v)) e' q) =
    (pushFragments l ((if splitAtEnd && p = e.et then [] else gapPieces sw mine owned p) ++
      originalPiece cur rows mine e p)).map Fragment.inUnits := by
  have hu := offset_strictMono cur
  have hlast : offset cur (p + 1) ≤ e'.et := het ▸ hu.monotone (Nat.succ_le_of_lt hp)
  have hnext := offset_succ hch
  have hnone : ∀ {q : ℕ}, q < e'.et → ¬(splitAtEnd && decide (q = e'.et)) = true := fun hq hno =>
    (Nat.ne_of_lt hq) (of_decide_eq_true (Bool.and_eq_true_iff.1 hno).2)
  have hnone' : ¬(splitAtEnd && decide (p = e.et)) = true := fun hno =>
    (Nat.ne_of_lt hp) (of_decide_eq_true (Bool.and_eq_true_iff.1 hno).2)
  have hpieces : Named (gapPieces sw mine owned p) := named_gapPieces mine owned hsw p
  have hwalked : Named (pushFragments l (gapPieces sw mine owned p)) :=
    named_pushFragments hl hpieces
  have hgaps : Browser.pushFragments (l.map Fragment.inUnits) (Browser.gapPieces
      (sw.map (Gap.inUnits (offset cur))) (mine.map (ChangeRecord.inUnits v)) owned
        (offset cur p)) = (pushFragments l (gapPieces sw mine owned p)).map Fragment.inUnits := by
    rw [gapPieces_inUnits hu, pushFragments_inUnits hl hpieces]
  have hpush : ∀ id, (pushFragments (pushFragments l (gapPieces sw mine owned p))
      [⟨none, id, [ch], none, false⟩]).map Fragment.inUnits = Browser.pushFragment
        ((pushFragments l (gapPieces sw mine owned p)).map Fragment.inUnits)
          ⟨none, id, encodeUtf16 ch, none, false⟩ := by
    intro id
    rw [← utf16_singleton]
    exact (pushFragment_inUnits hwalked (by rintro ⟨⟩)).symm
  rw [if_neg hnone', pushFragments_append]
  rcases encodeUtf16_one_or_two ch with ⟨a, hcode, hwidth⟩ | ⟨a, b, hcode, hwidth⟩
  · have ha := originalPiece_unit v mine hsame het hp hch (i := 0) (a := a)
      (by rw [hcode]; rfl)
    rw [Nat.add_zero] at ha
    rw [hwidth, range'_one, flatMap_singleton, if_neg (hnone (by omega)),
      browser_pushFragments_append, hgaps, ha]
    rcases originalPiece_cases mine rows e hch with ho | ⟨id, ho⟩
    · rw [ho]
      rfl
    · rw [ho, hpush, hcode]
      rfl
  · have ha := originalPiece_unit v mine hsame het hp hch (i := 0) (a := a)
      (by rw [hcode]; rfl)
    have hb := originalPiece_unit v mine hsame het hp hch (i := 1) (a := b) (by rw [hcode]; rfl)
    rw [Nat.add_zero] at ha
    rw [hwidth, show range' (offset cur p) 2 = [offset cur p, offset cur p + 1] from rfl,
      flatMap_cons, flatMap_singleton, if_neg (hnone (by omega)),
      if_neg (hnone (by omega)), gapPieces_between hu (Nat.lt_succ_self _) (by omega),
      nil_append, browser_pushFragments_append, browser_pushFragments_append, hgaps, ha, hb]
    rcases originalPiece_cases mine rows e hch with ho | ⟨id, ho⟩
    · rw [ho]
      rfl
    · rw [ho, hpush, hcode]
      exact pushFragment_twice _ id [a] [b]

/-- The walk over the units of some characters is the walk over the characters. -/
lemma push_chars (hsw : Named (sw.flatMap Gap.fragments)) (hsame : Same (offset cur) rows rows')
    (het : e'.et = offset cur e.et) (splitAtEnd : Bool) {k : ℕ} (hk : p + k ≤ e.et)
    (hbound : e.et ≤ cur.length) :
    Named (pushFragments [] ((range' p k).flatMap fun p =>
      (if splitAtEnd && p = e.et then [] else gapPieces sw mine owned p) ++
        originalPiece cur rows mine e p)) ∧
    Browser.pushFragments []
      ((range' (offset cur p) (offset cur (p + k) - offset cur p)).flatMap fun q =>
        (if splitAtEnd && q = e'.et then [] else Browser.gapPieces (sw.map (Gap.inUnits (offset cur)))
          (mine.map (ChangeRecord.inUnits v)) owned q) ++ Browser.originalPiece (utf16 cur) rows'
          (mine.map (ChangeRecord.inUnits v)) e' q) =
    (pushFragments [] ((range' p k).flatMap fun p =>
      (if splitAtEnd && p = e.et then [] else gapPieces sw mine owned p) ++
        originalPiece cur rows mine e p)).map Fragment.inUnits := by
  induction k with
  | zero =>
    rw [Nat.add_zero, Nat.sub_self]
    exact ⟨fun _ hf => absurd hf not_mem_nil, rfl⟩
  | succ k ih =>
    obtain ⟨hnamed, heq⟩ := ih (by omega)
    have hp : p + k < e.et := by omega
    obtain ⟨ch, hch⟩ : ∃ ch, cur[p + k]? = some ch := ⟨_, getElem?_eq_getElem (by omega)⟩
    have hle : offset cur p ≤ offset cur (p + k) :=
      (offset_strictMono cur).monotone (Nat.le_add_right _ _)
    have hnext := offset_succ hch
    have hpieces : Named ((if splitAtEnd && p + k = e.et then [] else
        gapPieces sw mine owned (p + k)) ++ originalPiece cur rows mine e (p + k)) := by
      refine forall_mem_append.2 ⟨?_, fun f hf => ?_⟩
      · split
        · exact fun _ hf => absurd hf not_mem_nil
        · exact named_gapPieces mine owned hsw _
      · rcases originalPiece_cases mine rows e hch with ho | ⟨id, ho⟩
        · rw [ho] at hf
          exact absurd hf not_mem_nil
        · rw [ho] at hf
          rw [mem_singleton.1 hf]
          rintro ⟨⟩
    have hrange : range' (offset cur p) (offset cur (p + (k + 1)) - offset cur p) =
        range' (offset cur p) (offset cur (p + k) - offset cur p) ++
          range' (offset cur (p + k)) (charLenUtf16 ch) := by
      have hsum : offset cur (p + (k + 1)) - offset cur p =
          (offset cur (p + k) - offset cur p) + charLenUtf16 ch := by
        rw [← Nat.add_assoc, hnext]
        omega
      rw [hsum, ← range'_append_1, Nat.add_sub_cancel' hle]
    have hrange' : range' p (k + 1) = range' p k ++ [p + k] := range'_1_concat ..
    rw [hrange, hrange', flatMap_append, flatMap_append, flatMap_singleton,
      pushFragments_append, browser_pushFragments_append, heq]
    exact ⟨named_pushFragments hnamed hpieces, push_char v mine owned hnamed hsw hsame het hp hch splitAtEnd⟩

lemma mergedFragments_inUnits (hsw : Named (sw.flatMap Gap.fragments))
    (hsame : Same (offset cur) rows rows') (hef : e'.ef = offset cur e.ef)
    (het : e'.et = offset cur e.et) (hfits : e.Fits cur.length) (splitAtEnd : Bool) :
    Named (mergedFragments cur rows sw mine owned e splitAtEnd) ∧
    Browser.mergedFragments (utf16 cur) rows' (sw.map (Gap.inUnits (offset cur)))
        (mine.map (ChangeRecord.inUnits v)) owned e' splitAtEnd =
      (mergedFragments cur rows sw mine owned e splitAtEnd).map Fragment.inUnits := by
  obtain ⟨hle, hbound⟩ := hfits
  have hu := offset_strictMono cur
  obtain ⟨hnamed, heq⟩ := push_chars v mine owned hsw hsame het splitAtEnd
    (p := e.ef) (k := e.et - e.ef) (by omega) hbound
  have hrange : range' e.ef (e.et + 1 - e.ef) = range' e.ef (e.et - e.ef) ++ [e.et] := by
    rw [Nat.succ_sub hle, range'_1_concat, Nat.add_sub_cancel' hle]
  have hrange' : range' e'.ef (e'.et + 1 - e'.ef) =
      range' (offset cur e.ef) (offset cur e.et - offset cur e.ef) ++ [e'.et] := by
    have hle' := hu.monotone hle
    rw [hef, het, Nat.succ_sub hle', range'_1_concat, Nat.add_sub_cancel' hle']
  have hlast : originalPiece cur rows mine e e.et = [] := by
    unfold originalPiece
    split
    · exact if_neg fun hno => absurd hno.1 (Nat.lt_irrefl _)
    · rfl
  have hlast' : Browser.originalPiece (utf16 cur) rows' (mine.map (ChangeRecord.inUnits v)) e'
      e'.et = [] := by
    unfold Browser.originalPiece
    split
    · exact if_neg fun hno => absurd hno.1 (Nat.lt_irrefl _)
    · rfl
  have hend : Named (if splitAtEnd && decide (e.et = e.et) then [] else
      gapPieces sw mine owned e.et) := by
    split
    · exact fun _ hf => absurd hf not_mem_nil
    · exact named_gapPieces mine owned hsw _
  rw [Nat.add_sub_cancel' hle] at heq
  rw [mergedFragments, Browser.mergedFragments, hrange, hrange', flatMap_append,
    flatMap_append, flatMap_singleton, flatMap_singleton, hlast, hlast',
    append_nil, append_nil, pushFragments_append, browser_pushFragments_append, heq]
  refine ⟨named_pushFragments hnamed hend, ?_⟩
  rw [← pushFragments_inUnits hnamed hend, het, gapPieces_inUnits hu, apply_ite (map _),
    decide_eq_true rfl, decide_eq_true rfl]
  rfl

lemma afterFragments_inUnits (hsw : Named (sw.flatMap Gap.fragments)) (hu : StrictMono u)
    (het : e'.et = u e.et) (splitAtEnd : Bool) :
    Named (afterFragments sw mine owned e splitAtEnd) ∧
    Browser.afterFragments (sw.map (Gap.inUnits u)) (mine.map (ChangeRecord.inUnits v)) owned e'
        splitAtEnd = (afterFragments sw mine owned e splitAtEnd).map Fragment.inUnits := by
  have hnil : Named [] := fun _ hf => absurd hf not_mem_nil
  cases splitAtEnd with
  | false => exact ⟨hnil, rfl⟩
  | true =>
    refine ⟨named_pushFragments hnil (named_gapPieces mine owned hsw _), ?_⟩
    rw [Browser.afterFragments, if_pos rfl, het, gapPieces_inUnits hu]
    exact pushFragments_inUnits hnil (named_gapPieces mine owned hsw _)

end Walk

end LibrePaper.Track
