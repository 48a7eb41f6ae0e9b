import LibrePaper.Library.Orders
import LibrePaper.Track.Gaps
import LibrePaper.Track.Legacy

/-!
# Reading the records of a file

The records of a file are resolved against its text. The fragments that resolve to one offset are a
gap, in the order of their ranks. A change without a span takes the place of its first fragment,
and one without either is left out. A fragment whose change is gone is a change of its own.
-/
namespace LibrePaper.Track
open Library List

/-- A cursor resolved to its offset. It is stale when its character is gone. -/
structure Pos where
  offset : ℕ
  stale : Bool
deriving DecidableEq

/-- The author fields of a fragment, for when its change is gone. -/
structure Authorship where
  id : String
  who : Option String
  author : Option String
  run : Option String
  stamp : Option ℤ
deriving DecidableEq

/-- A fragment as it is read, before its gap is known. -/
structure Stored where
  point : ℕ
  fragment : Fragment
  authorship : Authorship
deriving DecidableEq

/-- A document: the texts of its files, and the root of changes. -/
structure Document where
  texts : String → Option (List Char)
  changes : Root

/-- A pending change as it is shown. -/
structure ResolvedChange where
  id : String
  file : String
  who : String
  author : String
  run : Option String
  stamp : ℤ
  fromPos : ℕ
  toPos : ℕ
  deleted : List Char
deriving DecidableEq

/-- The exclusive end of a span. A live end sits on the last character. -/
def spanEnd (s e : Pos) : ℕ := max (if e.stale then e.offset else e.offset + 1) s.offset

section Cursors

variable (cursor : Bytes → Option Pos)

/-- Reads a fragment record. -/
def readFragment (id : String) (m : HeldRecord) : Option Stored :=
  m.start.bind fun start => m.change.bind fun change => m.text.bind fun body =>
    if body = [] then none
    else (cursor start).map fun pos =>
      { point := pos.offset
        fragment := { id := some id, change, text := body, rank := some (m.rank.getD 0),
                      stale := pos.stale }
        authorship := ⟨id, m.who, m.author, m.run, m.stamp.map cutOff⟩ }

/-- The span between two cursors, and whether one of them is stale. -/
def readSpan : Option Bytes → Option Bytes → Option (ℕ × ℕ × Bool)
  | none, _ => some (0, 0, false)
  | some start, none => (cursor start).map fun s => (s.offset, s.offset, s.stale)
  | some start, some stop => (cursor start).bind fun s => (cursor stop).map fun e =>
      (s.offset, spanEnd s e, s.stale || e.stale)

/-- Reads a change record. -/
def readChange (id : String) (m : HeldRecord) : Option ChangeRecord :=
  m.who.bind fun who => m.author.bind fun author =>
    (readSpan cursor m.start m.stop).map fun span =>
      ⟨id, who, author, m.run, (m.stamp.map cutOff).getD 0, span.1, span.2.1, false, span.2.2,
        false⟩

/-- Reads the change that a record of the earlier model stands for. -/
def readLegacyChange (c : LegacyChange) : Option ChangeRecord :=
  (readSpan cursor (c.stop.map fun _ => c.start) c.stop).map fun span =>
    ⟨c.id, c.who, c.author, c.run, c.stamp, span.1, span.2.1, false, span.2.2, false⟩

/-- Reads a fragment of a record of the earlier model. -/
def readLegacyFragment (f : Fragment × Bytes) : Option Stored :=
  (cursor f.2).map fun pos =>
    { point := pos.offset
      fragment := { f.1 with stale := pos.stale }
      authorship := ⟨f.1.id.getD "", none, none, none, none⟩ }

/-- The records of a file in containers of their own. -/
def heldRecords (root : Root) (file : String) : List (String × HeldRecord) :=
  root.entries.filterMap fun e =>
    match e.2 with
    | .held m => if m.file = some file then some (e.1, m) else none
    | _ => none

/-- The changes of a file: those of the earlier model first. -/
def readChanges (root : Root) (file : String) : List ChangeRecord :=
  (expandLegacy (legacyRecords root file)).filterMap (fun x => readLegacyChange cursor x.1) ++
    (heldRecords root file).filterMap fun e =>
      if e.2.kind = some .change then readChange cursor e.1 e.2 else none

/-- The fragments of a file: those of the earlier model first. -/
def readStored (root : Root) (file : String) : List Stored :=
  (expandLegacy (legacyRecords root file)).flatMap
      (fun x => x.2.filterMap (readLegacyFragment cursor)) ++
    (heldRecords root file).filterMap fun e =>
      if e.2.kind = some .fragment then readFragment cursor e.1 e.2 else none

end Cursors

/-- A fragment as a change of its own. -/
def orphanChange (who : String) (s : Stored) : ChangeRecord where
  id := s.authorship.id
  who := who
  author := s.authorship.author.getD who
  run := s.authorship.run
  stamp := s.authorship.stamp.getD 0
  fromPos := s.point
  toPos := s.point
  emptied := false
  stale := s.fragment.stale
  orphan := true

/-- Reads the fragments whose change is gone as changes of their own. -/
def adopt : List String → List Stored → List Stored × List ChangeRecord
  | _, [] => ([], [])
  | known, s :: l =>
    match s.authorship.who with
    | none => (s :: (adopt known l).1, (adopt known l).2)
    | some who =>
      if s.fragment.change ∈ known then (s :: (adopt known l).1, (adopt known l).2)
      else
        let id := s.authorship.id
        ({ s with fragment := { s.fragment with change := id } } :: (adopt (id :: known) l).1,
          orphanChange who s :: (adopt (id :: known) l).2)

/-- A fragment is not inside a span: it is placed at the start of the span. -/
def outside (changes : List ChangeRecord) (s : Stored) : Stored :=
  match changes.find? fun c => c.fromPos < s.point ∧ s.point < c.toPos with
  | some c => { s with point := c.fromPos }
  | none => s

/-- Fragments are ordered by their points, then by their ranks, then by their ids. -/
def liveKey (s : Stored) : ℕ ×ₗ ℚ ×ₗ Bool ×ₗ String :=
  toLex (s.point, toLex (s.fragment.rank.getD 0,
    toLex (s.fragment.id.isSome, s.fragment.id.getD "")))

/-- Puts a fragment into the last gap, or into a new one. -/
def joinGap (gaps : List Gap) (s : Stored) : List Gap :=
  let new : Gap := ⟨"gap@" ++ toString s.point, s.point, [s.fragment], s.fragment.stale⟩
  match gaps.getLast? with
  | some g =>
    if g.point = s.point then
      gaps.dropLast ++ [{ g with fragments := g.fragments ++ [s.fragment]
                                 stale := g.stale || s.fragment.stale }]
    else gaps ++ [new]
  | none => gaps ++ [new]

def holdsChange (id : String) (g : Gap) : Bool := g.fragments.any fun f => f.change = id

/-- A change without a span is at the gap of its first fragment. -/
def seatChange (gaps : List Gap) (c : ChangeRecord) : Option ChangeRecord :=
  if c.toPos = c.fromPos then
    (gaps.find? (holdsChange c.id)).map fun g => { c with fromPos := g.point, toPos := g.point }
  else some c

def changeKey (c : ChangeRecord) : ℕ ×ₗ ℕ ×ₗ String := toLex (c.fromPos, toLex (c.toPos, c.id))

/-- The changes with those that are read from fragments. -/
def allChanges (changes : List ChangeRecord) (stored : List Stored) : List ChangeRecord :=
  changes ++ (adopt (changes.map ChangeRecord.id) stored).2

/-- The fragments of the changes, in their order. -/
def liveFragments (changes : List ChangeRecord) (stored : List Stored) : List Stored :=
  sortByKey liveKey (((adopt (changes.map ChangeRecord.id) stored).1.filter fun s =>
    s.fragment.change ∈ (allChanges changes stored).map ChangeRecord.id).map
      (outside (allChanges changes stored)))

/-- The state of a file from what was read of its records. -/
def assemble (changes : List ChangeRecord) (stored : List Stored) : FileState where
  changes := sortByKey changeKey ((allChanges changes stored).filterMap
    (seatChange ((liveFragments changes stored).foldl joinGap [])))
  gaps := (liveFragments changes stored).foldl joinGap []

/-- Resolves the records of a file. `cursor` resolves cursors in its text. -/
def resolveFile (cursor : String → Bytes → Option Pos) (doc : Document) (file : String) :
    FileState :=
  match doc.texts file with
  | some _ => assemble (readChanges (cursor file) doc.changes file)
      (readStored (cursor file) doc.changes file)
  | none => ⟨[], []⟩

/-- The deleted text of a change: its fragments in the order of the gaps. -/
def deletedOf (gaps : List Gap) (id : String) : List Char :=
  deletedText ((gaps.flatMap Gap.fragments).filter fun f => f.change = id)

/-- The pending changes of a file, as they are shown. -/
def resolveChanges (cursor : String → Bytes → Option Pos) (doc : Document) (file : String) :
    List ResolvedChange :=
  let state := resolveFile cursor doc file
  state.changes.map fun c => ⟨c.id, file, c.who, c.author, c.run, c.stamp, c.fromPos, c.toPos,
    deletedOf state.gaps c.id⟩

lemma joinGap_fragments (gaps : List Gap) (s : Stored) :
    (joinGap gaps s).flatMap Gap.fragments = gaps.flatMap Gap.fragments ++ [s.fragment] := by
  unfold joinGap
  dsimp only
  split
  next g hlast =>
    split
    · have hsplit := dropLast_append_getLast? g hlast
      conv_rhs => rw [← hsplit]
      simp
    · simp
  · simp

/-- The gaps hold the fragments in their order. -/
lemma foldl_joinGap_fragments (live : List Stored) :
    (live.foldl joinGap []).flatMap Gap.fragments = live.map Stored.fragment := by
  induction live using reverseRecOn with
  | nil => rfl
  | append_singleton live s ih =>
    rw [foldl_concat, joinGap_fragments, ih, map_append]
    rfl

lemma find?_joinGap (gaps : List Gap) (s : Stored) (id : String) :
    ((joinGap gaps s).find? (holdsChange id)).map Gap.point =
      ((gaps.find? (holdsChange id)).map Gap.point).or
        (if s.fragment.change = id then some s.point else none) := by
  have hnew : ∀ stale, holdsChange id ⟨"gap@" ++ toString s.point, s.point, [s.fragment], stale⟩ =
      decide (s.fragment.change = id) := fun stale => by simp [holdsChange]
  unfold joinGap
  dsimp only
  split
  next g hlast =>
    split
    next hpoint =>
      have hsplit := dropLast_append_getLast? g hlast
      have hgrown : holdsChange id { g with fragments := g.fragments ++ [s.fragment]
                                            stale := g.stale || s.fragment.stale } =
          (holdsChange id g || decide (s.fragment.change = id)) := by simp [holdsChange]
      conv_rhs => rw [← hsplit]
      rw [find?_append, find?_append]
      cases gaps.dropLast.find? (holdsChange id) with
      | some g' => simp
      | none =>
        simp only [Option.none_or, find?_singleton, hgrown]
        by_cases hg : holdsChange id g = true <;> by_cases hs : s.fragment.change = id <;>
          simp [hg, hs, hpoint]
    · rw [find?_append]
      cases gaps.find? (holdsChange id) with
      | some g' => simp
      | none =>
        simp only [Option.none_or, find?_singleton, hnew]
        by_cases hs : s.fragment.change = id <;> simp [hs]
  next hlast =>
    rw [find?_append]
    cases gaps.find? (holdsChange id) with
    | some g' => simp
    | none =>
      simp only [Option.none_or, find?_singleton, hnew]
      by_cases hs : s.fragment.change = id <;> simp [hs]

/-- The first gap of a change is at its first fragment. -/
lemma find?_foldl_joinGap (live : List Stored) (id : String) :
    ((live.foldl joinGap []).find? (holdsChange id)).map Gap.point =
      (live.find? fun s => s.fragment.change = id).map Stored.point := by
  induction live using reverseRecOn with
  | nil => rfl
  | append_singleton live s ih =>
    rw [foldl_concat, find?_joinGap, ih, find?_append]
    cases live.find? fun s => s.fragment.change = id with
    | some s' => rfl
    | none =>
      simp only [Option.map_none, Option.none_or, find?_singleton]
      by_cases hs : s.fragment.change = id <;> simp [hs]

/-- The fragments of one change. -/
def fragmentsOf (id : String) (live : List Stored) : List Stored :=
  live.filter fun s => s.fragment.change = id

/-- Two lists of fragments begin at one point, and have one text. -/
structure ShownAlike (l l' : List Stored) : Prop where
  first : l'.head?.map Stored.point = l.head?.map Stored.point
  text : l'.flatMap (fun s => s.fragment.text) = l.flatMap fun s => s.fragment.text

lemma ShownAlike.refl (l : List Stored) : ShownAlike l l := ⟨rfl, rfl⟩

lemma deletedOf_foldl_joinGap (live : List Stored) (id : String) :
    deletedOf (live.foldl joinGap []) id =
      (fragmentsOf id live).flatMap fun s => s.fragment.text := by
  rw [deletedOf, foldl_joinGap_fragments, filter_map, deletedText, flatMap_map]
  rfl

lemma seatChange_eq (live : List Stored) (c : ChangeRecord) :
    seatChange (live.foldl joinGap []) c =
      if c.toPos = c.fromPos then ((fragmentsOf c.id live).head?.map Stored.point).map fun p =>
        { c with fromPos := p, toPos := p }
      else some c := by
  rw [seatChange, fragmentsOf, head?_filter, ← find?_foldl_joinGap, Option.map_map]
  rfl

lemma seatChange_id {gaps : List Gap} {c d : ChangeRecord} (h : seatChange gaps c = some d) :
    d.id = c.id := by
  unfold seatChange at h
  split at h
  · obtain ⟨g, -, rfl⟩ := Option.map_eq_some_iff.1 h
    rfl
  · rw [← Option.some.inj h]

lemma liveKey_lt {s t : Stored} (hpoint : s.point = t.point)
    (hrank : s.fragment.rank.getD 0 < t.fragment.rank.getD 0) : liveKey s < liveKey t := by
  rw [liveKey, liveKey, Prod.Lex.toLex_lt_toLex]
  exact .inr ⟨hpoint, Prod.Lex.toLex_lt_toLex.2 (.inl hrank)⟩

section Congruence

variable {changes changes' : List ChangeRecord} {stored stored' : List Stored}

/-- The rows are the same when the changes are, and the fragments of each change are shown
alike. -/
lemma assemble_congr
    (hall : (allChanges changes' stored').Perm (allChanges changes stored))
    (hnodup : ((allChanges changes stored).map ChangeRecord.id).Nodup)
    (halike : ∀ c ∈ allChanges changes stored,
      ShownAlike (fragmentsOf c.id (liveFragments changes stored))
        (fragmentsOf c.id (liveFragments changes' stored'))) :
    (assemble changes' stored').changes = (assemble changes stored).changes ∧
      ∀ c ∈ (assemble changes stored).changes,
        deletedOf (assemble changes' stored').gaps c.id =
          deletedOf (assemble changes stored).gaps c.id := by
  have hseat : ∀ c ∈ allChanges changes stored,
      seatChange ((liveFragments changes' stored').foldl joinGap []) c =
        seatChange ((liveFragments changes stored).foldl joinGap []) c := fun c hc => by
    rw [seatChange_eq, seatChange_eq, (halike c hc).first]
  have hout : ∀ d ∈ (assemble changes stored).changes, ∃ c ∈ allChanges changes stored,
      d.id = c.id := fun d hd => by
    obtain ⟨c, hc, hcd⟩ := mem_filterMap.1 ((mem_sortByKey _ _ d).1 hd)
    exact ⟨c, hc, seatChange_id hcd⟩
  constructor
  · have hsame : (allChanges changes' stored').filterMap
        (seatChange ((liveFragments changes' stored').foldl joinGap [])) =
        (allChanges changes' stored').filterMap
          (seatChange ((liveFragments changes stored).foldl joinGap [])) :=
      filterMap_congr fun c hc => hseat c (hall.mem_iff.1 hc)
    rw [assemble, assemble]
    dsimp only
    rw [hsame]
    refine (sortByKey_congr (hall.filterMap _).symm fun c hc d hd hcd => ?_).symm
    obtain ⟨c', hc', hc⟩ := mem_filterMap.1 hc
    obtain ⟨d', hd', hd⟩ := mem_filterMap.1 hd
    have hid : c.id = d.id := congrArg (fun k => (ofLex (ofLex k).2).2) hcd
    have heq : c' = d' := inj_on_of_nodup_map hnodup hc' hd' (by
      rw [← seatChange_id hc, ← seatChange_id hd, hid])
    exact Option.some.inj (hc.symm.trans ((heq ▸ rfl : _ = _).trans hd))
  · intro d hd
    obtain ⟨c, hc, hid⟩ := hout d hd
    rw [hid]
    exact (deletedOf_foldl_joinGap _ _).trans
      ((halike c hc).text.trans (deletedOf_foldl_joinGap _ _).symm)

end Congruence

end LibrePaper.Track
