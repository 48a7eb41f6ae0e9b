import LibrePaper.Log.Frame

/-!
# Storage quotas and durable reservations

A batch that is accepted reserves its bytes in the catalog, and the row that carries it
takes the place of the reservations of its batches. What an owner and the deployment use is
what their documents hold and what is reserved for them.
-/
namespace LibrePaper.Log
open List

def i64Max : ℕ := 2 ^ 63 - 1

/-- Adds up with saturation. -/
def saturatingSum (l : List ℕ) : ℕ := l.foldl (fun a b => min (a + b) i64Max) 0

/-- What a deployment lets one owner and all of them store. -/
structure StoragePolicy where
  ownerBytes : ℕ
  deploymentBytes : ℕ
  ownerBytes_lt : ownerBytes < i64Max
  deploymentBytes_lt : deploymentBytes < i64Max

/-- A document's row. `otherBytes` are its archives, assets, base and chat. -/
structure StoredDocument (U A : Type) where
  id : U
  ownerId : A
  active : Bool
  moderated : Bool
  updateSequence : ℕ
  uncompactedUpdateBytes : ℕ
  otherBytes : ℕ
deriving DecidableEq

structure PendingLogReservation (U K D : Type) where
  reservationId : K
  documentId : U
  writerEpoch : ℕ
  bytes : ℕ
  batchDigest : D
deriving DecidableEq

/-- The tables that usage is read from, with their primary keys. -/
structure Catalog (U A K D : Type) where
  writerEpoch : ℕ
  documents : List (StoredDocument U A)
  reservations : List (PendingLogReservation U K D)
  nodup : (documents.map StoredDocument.id).Nodup
  keys : (reservations.map PendingLogReservation.reservationId).Nodup

/-- Whose bytes are summed. -/
inductive UsageScope (A : Type) where
  | deployment
  | owner (account : A)
deriving DecidableEq

variable {U A K D : Type} [DecidableEq U] [DecidableEq A] [DecidableEq K] [DecidableEq D]

namespace StoredDocument

/-- What a row changes in its document. -/
def withRow (document : U) (rowBytes : ℕ) (d : StoredDocument U A) : StoredDocument U A :=
  if d.id = document then { d with
    updateSequence := d.updateSequence + 1
    uncompactedUpdateBytes := d.uncompactedUpdateBytes + rowBytes }
  else d

/-- What a document is charged for. -/
def bytes (d : StoredDocument U A) : ℕ := d.uncompactedUpdateBytes + d.otherBytes

omit [DecidableEq A] in
@[simp] lemma id_withRow (document : U) (rowBytes : ℕ) (d : StoredDocument U A) :
    (d.withRow document rowBytes).id = d.id := by
  unfold withRow
  split <;> rfl

omit [DecidableEq A] in
@[simp] lemma ownerId_withRow (document : U) (rowBytes : ℕ) (d : StoredDocument U A) :
    (d.withRow document rowBytes).ownerId = d.ownerId := by
  unfold withRow
  split <;> rfl

omit [DecidableEq A] in
lemma updateSequence_withRow {document : U} (rowBytes : ℕ) {d : StoredDocument U A}
    (h : d.id = document) :
    (d.withRow document rowBytes).updateSequence = d.updateSequence + 1 := by
  rw [withRow, if_pos h]

omit [DecidableEq A] in
lemma updateSequence_le_withRow (document : U) (rowBytes : ℕ) (d : StoredDocument U A) :
    d.updateSequence ≤ (d.withRow document rowBytes).updateSequence := by
  unfold withRow
  split
  · exact Nat.le_succ _
  · exact le_rfl

omit [DecidableEq A] in
lemma id_comp_withRow (document : U) (rowBytes : ℕ) :
    (id : StoredDocument U A → U) ∘ withRow document rowBytes = id :=
  funext fun d => d.id_withRow document rowBytes

omit [DecidableEq A] in
lemma withRow_of_ne {document : U} {d : StoredDocument U A} (rowBytes : ℕ)
    (h : d.id ≠ document) : d.withRow document rowBytes = d := if_neg h

omit [DecidableEq A] in
lemma bytes_withRow (rowBytes : ℕ) (d : StoredDocument U A) :
    (d.withRow d.id rowBytes).bytes = d.bytes + rowBytes := by
  rw [withRow, if_pos rfl]
  exact Nat.add_right_comm ..

end StoredDocument

namespace UsageScope

def document (scope : UsageScope A) (d : StoredDocument U A) : Bool :=
  match scope with
  | .deployment => true
  | .owner account => decide (d.ownerId = account)

/-- An owner's reservations are those of the documents that the owner has. -/
def reservation (scope : UsageScope A) (documents : List (StoredDocument U A))
    (r : PendingLogReservation U K D) : Bool :=
  match scope with
  | .deployment => true
  | .owner account => documents.any fun d => d.id = r.documentId ∧ d.ownerId = account

def quota (scope : UsageScope A) (policy : StoragePolicy) : ℕ :=
  match scope with
  | .deployment => policy.deploymentBytes
  | .owner _ => policy.ownerBytes

end UsageScope

/-- What a batch reserves: its part of a row, and a row header. -/
def durableCharge (b : Batch) : ℕ := b.weight + rowHeaderBytes

namespace Catalog

/-- What is stored. -/
def storedBytes (c : Catalog U A K D) (scope : UsageScope A) : ℕ :=
  ((c.documents.filter scope.document).map StoredDocument.bytes).sum

/-- What is reserved. -/
def reservedBytes (c : Catalog U A K D) (scope : UsageScope A) : ℕ :=
  ((c.reservations.filter (scope.reservation c.documents)).map PendingLogReservation.bytes).sum

def usageBytes (c : Catalog U A K D) (scope : UsageScope A) : ℕ :=
  c.storedBytes scope + c.reservedBytes scope

/-- Whether more bytes would pass a quota. -/
def wouldExceed (c : Catalog U A K D) (policy : StoragePolicy) (scope : UsageScope A)
    (bytes : ℕ) : Bool :=
  decide (min (c.usageBytes scope + bytes) i64Max > scope.quota policy)

/-- Inserts a reservation, unless its key is taken. -/
def insertReservation (c : Catalog U A K D) (r : PendingLogReservation U K D) :
    Option (Catalog U A K D) :=
  if h : r.reservationId ∈ c.reservations.map PendingLogReservation.reservationId then none
  else some { c with
    reservations := r :: c.reservations
    keys := List.nodup_cons.mpr ⟨h, c.keys⟩ }

/-- Keeps the reservations that a filter keeps. -/
def filterReservations (c : Catalog U A K D) (p : PendingLogReservation U K D → Bool) :
    Catalog U A K D :=
  { c with
    reservations := c.reservations.filter p
    keys := c.keys.sublist (List.filter_sublist.map _) }

/-- Reserves quota under a key. The same reservation again is no change. `lands` says whether
the transaction commits. -/
def reservePendingLogBytes (policy : StoragePolicy) (c : Catalog U A K D) (document : U) (key : K)
    (bytes : ℕ) (digest : D) (lands : Bool) : Option (Catalog U A K D) :=
  if bytes = 0 then none
  else match c.documents.find? fun d => d.id = document ∧ d.active ∧ !d.moderated with
  | none => none
  | some d =>
    match c.reservations.find? fun r => r.reservationId = key with
    | some r =>
      if r.documentId = document ∧ r.writerEpoch = c.writerEpoch ∧ r.bytes = bytes ∧
          r.batchDigest = digest then some c
      else none
    | none =>
      if c.wouldExceed policy (.owner d.ownerId) bytes then none
      else if c.wouldExceed policy .deployment bytes then none
      else if lands then c.insertReservation ⟨key, document, c.writerEpoch, bytes, digest⟩
      else none

/-- Whether a row's keys name a reservation. -/
def consumes (c : Catalog U A K D) (document : U) (keys : List K)
    (r : PendingLogReservation U K D) : Bool :=
  decide (r.documentId = document ∧ r.writerEpoch = c.writerEpoch ∧ r.reservationId ∈ keys)

/-- The reservations that a row takes the place of. -/
def consumed (c : Catalog U A K D) (document : U) (keys : List K) :
    List (PendingLogReservation U K D) := c.reservations.filter (c.consumes document keys)

/-- The catalog without the reservations that a row takes the place of. -/
def released (c : Catalog U A K D) (document : U) (keys : List K) : Catalog U A K D :=
  c.filterReservations fun r => !c.consumes document keys r

/-- The document with one row more. -/
def appendRow (c : Catalog U A K D) (document : U) (rowBytes : ℕ) : Catalog U A K D where
  writerEpoch := c.writerEpoch
  documents := c.documents.map (StoredDocument.withRow document rowBytes)
  reservations := c.reservations
  nodup := by
    rw [List.map_map, StoredDocument.id_comp_withRow]
    exact c.nodup
  keys := c.keys

/-- Inserts a row after the one it expects, in exchange for the reservations of its keys.
The charge of the row is checked again. -/
def insertLogRowReserved (policy : StoragePolicy) (c : Catalog U A K D) (document : U)
    (expected rowBytes : ℕ) (keys : List K) (reserved : ℕ) (lands : Bool) :
    Option (Catalog U A K D) :=
  match c.documents.find? fun d => d.id = document ∧ d.active with
  | none => none
  | some d =>
    if d.updateSequence ≠ expected then none
    else if keys.isEmpty != (reserved == 0) then none
    else
      let removed := c.consumed document keys
      if reserved > 0 ∧ (removed.length ≠ keys.length ∨
          saturatingSum (removed.map PendingLogReservation.bytes) ≠ reserved) then none
      else
        let left := if reserved > 0 then c.released document keys else c
        if left.wouldExceed policy (.owner d.ownerId) (min rowBytes i64Max) then none
        else if left.wouldExceed policy .deployment (min rowBytes i64Max) then none
        else if lands then some (left.appendRow document rowBytes)
        else none

/-- Writes buffered batches, and what a command adds to them, as one row. -/
def writeRow (policy : StoragePolicy) (keyOf : U → Batch → K) (c : Catalog U A K D) (document : U)
    (expected : ℕ) (batches added : List Batch) (lands : Bool) : Option (Catalog U A K D) :=
  if batches ++ added = [] then none
  else c.insertLogRowReserved policy document expected (encode (batches ++ added)).length
    (batches.map (keyOf document)) (saturatingSum (batches.map durableCharge)) lands

/-- A flush writes what is buffered, when there is anything. -/
def flush (policy : StoragePolicy) (keyOf : U → Batch → K) (c : Catalog U A K D) (document : U)
    (expected : ℕ) (batches : List Batch) (lands : Bool) : Option (Catalog U A K D) :=
  c.writeRow policy keyOf document expected batches [] lands

/-- One transaction. A new writer clears the reservations of the ones before it. -/
inductive Step (policy : StoragePolicy) (keyOf : U → Batch → K) :
    Catalog U A K D → Catalog U A K D → Prop
  | reserve {c c' : Catalog U A K D} (document : U) (key : K) (bytes : ℕ) (digest : D)
      (h : c.reservePendingLogBytes policy document key bytes digest true = some c') :
      Step policy keyOf c c'
  | write {c c' : Catalog U A K D} (document : U) (expected : ℕ) (batches added : List Batch)
      (h : c.writeRow policy keyOf document expected batches added true = some c') :
      Step policy keyOf c c'
  | claim (c : Catalog U A K D) : Step policy keyOf c { c with writerEpoch := c.writerEpoch + 1 }
  | clear (c : Catalog U A K D) :
      Step policy keyOf c (c.filterReservations fun r => r.writerEpoch = c.writerEpoch)

/-- A run of transactions. -/
abbrev Run (policy : StoragePolicy) (keyOf : U → Batch → K) :
    Catalog U A K D → Catalog U A K D → Prop := Relation.ReflTransGen (Step policy keyOf)

/-- No quota is passed. -/
def Within (policy : StoragePolicy) (c : Catalog U A K D) : Prop :=
  ∀ scope, c.usageBytes scope ≤ scope.quota policy

end Catalog

lemma saturatingSum_eq (l : List ℕ) : saturatingSum l = min l.sum i64Max := by
  have hrun : ∀ (l : List ℕ) (a : ℕ), a ≤ i64Max →
      l.foldl (fun a b => min (a + b) i64Max) a = min (a + l.sum) i64Max := by
    intro l
    induction l with
    | nil =>
      intro a ha
      rw [foldl_nil, sum_nil, Nat.add_zero, Nat.min_eq_left ha]
    | cons b l ih =>
      intro a ha
      rw [foldl_cons, ih _ (Nat.min_le_right _ _), sum_cons]
      omega
  rw [saturatingSum, hrun l 0 (Nat.zero_le _), Nat.zero_add]

lemma sum_filter_split {α : Type*} (l : List α) (p q : α → Bool) (f : α → ℕ) :
    ((l.filter q).map f).sum = (((l.filter p).filter q).map f).sum +
      (((l.filter fun a => !p a).filter q).map f).sum := by
  induction l with
  | nil => rfl
  | cons a l ih => cases hp : p a <;> cases hq : q a <;> simp [hp, hq, ih] <;> omega

variable {batches : List Batch}

/-- Rows of a document add up to more than the document's row. -/
lemma length_encode_le_charges (h : batches ≠ []) :
    (encode batches).length ≤ (batches.map durableCharge).sum := by
  induction batches with
  | nil => exact absurd rfl h
  | cons b rest ih =>
    rcases rest with _ | ⟨b', rest⟩
    · simp only [length_encode, map_cons, map_nil, sum_cons, sum_nil,
        durableCharge]
      omega
    · have hrest := ih (cons_ne_nil b' rest)
      simp only [length_encode, map_cons, sum_cons, durableCharge] at hrest ⊢
      omega

namespace Catalog

variable {policy : StoragePolicy} {keyOf : U → Batch → K} {c c' : Catalog U A K D}
  {document : U} {d : StoredDocument U A}

omit [DecidableEq K] [DecidableEq D] in
@[simp] lemma document_withRow (scope : UsageScope A) (document : U) (rowBytes : ℕ)
    (d : StoredDocument U A) : scope.document (d.withRow document rowBytes) = scope.document d := by
  cases scope <;> simp [UsageScope.document]

omit [DecidableEq K] [DecidableEq D] in
lemma reservation_appendRow (c : Catalog U A K D) (document : U) (rowBytes : ℕ)
    (scope : UsageScope A) (r : PendingLogReservation U K D) :
    scope.reservation (c.appendRow document rowBytes).documents r =
      scope.reservation c.documents r := by
  cases scope with
  | deployment => rfl
  | owner account => simp [UsageScope.reservation, appendRow, any_map, Function.comp_def]

omit [DecidableEq K] [DecidableEq D] in
lemma reservedBytes_appendRow (c : Catalog U A K D) (document : U) (rowBytes : ℕ)
    (scope : UsageScope A) :
    (c.appendRow document rowBytes).reservedBytes scope = c.reservedBytes scope := by
  unfold reservedBytes
  rw [funext (c.reservation_appendRow document rowBytes scope)]
  rfl

omit [DecidableEq U] [DecidableEq A] [DecidableEq K] [DecidableEq D] in
lemma eq_of_id {d' : StoredDocument U A} (hd : d ∈ c.documents) (hd' : d' ∈ c.documents)
    (hid : d.id = d'.id) : d = d' :=
  inj_on_of_nodup_map c.nodup hd hd' hid

/-- A row is summed up once, in the sums that its document is summed up in. -/
lemma sum_withRow {l : List (StoredDocument U A)} (rowBytes : ℕ) (scope : UsageScope A)
    (hnodup : (l.map StoredDocument.id).Nodup) (hd : d ∈ l) :
    (((l.map (StoredDocument.withRow d.id rowBytes)).filter scope.document).map
        StoredDocument.bytes).sum =
      ((l.filter scope.document).map StoredDocument.bytes).sum +
        if scope.document d then rowBytes else 0 := by
  induction l with
  | nil => exact absurd hd not_mem_nil
  | cons e l ih =>
    rw [map_cons, nodup_cons] at hnodup
    by_cases he : e.id = d.id
    · have hed : d = e := by
        rcases mem_cons.1 hd with hd | hd
        · exact hd
        · exact absurd (he ▸ mem_map_of_mem hd) hnodup.1
      subst hed
      have hrest : l.map (StoredDocument.withRow d.id rowBytes) = l := by
        have hother : ∀ e ∈ l, e.withRow d.id rowBytes = id e := fun e hel =>
          StoredDocument.withRow_of_ne rowBytes fun h =>
            hnodup.1 (h ▸ mem_map_of_mem hel)
        rw [map_congr_left hother, map_id]
      rw [map_cons, hrest, filter_cons, filter_cons, document_withRow]
      split
      · simp only [map_cons, sum_cons, StoredDocument.bytes_withRow]
        omega
      · rfl
    · have hdl : d ∈ l := (mem_cons.1 hd).resolve_left fun h => he (h ▸ rfl)
      have hl := ih hnodup.2 hdl
      rw [map_cons, StoredDocument.withRow_of_ne rowBytes he, filter_cons, filter_cons]
      split
      · simp only [map_cons, sum_cons]
        omega
      · exact hl

omit [DecidableEq K] [DecidableEq D] in
lemma storedBytes_appendRow (hd : d ∈ c.documents) (rowBytes : ℕ) (scope : UsageScope A) :
    (c.appendRow d.id rowBytes).storedBytes scope =
      c.storedBytes scope + if scope.document d then rowBytes else 0 :=
  sum_withRow rowBytes scope c.nodup hd

omit [DecidableEq K] [DecidableEq D] in
/-- A reservation for a document is charged to those whom the document is charged to. -/
lemma reservation_of_id {scope : UsageScope A} (hd : d ∈ c.documents)
    {r : PendingLogReservation U K D} (hr : r.documentId = d.id) :
    scope.reservation c.documents r = scope.document d := by
  cases scope with
  | deployment => rfl
  | owner account =>
    rw [UsageScope.reservation, UsageScope.document, Bool.eq_iff_iff, any_eq_true,
      decide_eq_true_iff]
    constructor
    · rintro ⟨e, he, howner⟩
      have hids := (of_decide_eq_true howner).1
      rw [eq_of_id hd he (hr.symm.trans hids.symm)]
      exact (of_decide_eq_true howner).2
    · exact fun howner => ⟨d, hd, decide_eq_true ⟨hr.symm, howner⟩⟩

omit [DecidableEq A] [DecidableEq D] in
lemma released_nil (c : Catalog U A K D) (document : U) : c.released document [] = c := by
  have hall : c.reservations.filter (fun r => !c.consumes document [] r) = c.reservations :=
    filter_eq_self.2 fun r _ => by simp [consumes]
  cases c
  unfold released filterReservations
  congr

omit [DecidableEq D] in
lemma filter_consumed (hd : d ∈ c.documents) (keys : List K) (scope : UsageScope A) :
    (c.consumed d.id keys).filter (scope.reservation c.documents) =
      if scope.document d then c.consumed d.id keys else [] := by
  have hscope : ∀ r ∈ c.consumed d.id keys, scope.reservation c.documents r = scope.document d :=
    fun r hr => reservation_of_id hd (of_decide_eq_true (mem_filter.1 hr).2).1
  split
  next h => exact filter_eq_self.2 fun r hr => (hscope r hr).trans h
  next h => exact filter_eq_nil_iff.2 fun r hr => by rw [hscope r hr]; exact h

omit [DecidableEq D] in
/-- What is released was reserved, in the sums that the document is summed up in. -/
lemma reservedBytes_released (hd : d ∈ c.documents) (keys : List K) (scope : UsageScope A) :
    c.reservedBytes scope = (c.released d.id keys).reservedBytes scope +
      if scope.document d then ((c.consumed d.id keys).map PendingLogReservation.bytes).sum
      else 0 := by
  have hsplit := sum_filter_split c.reservations (c.consumes d.id keys)
    (scope.reservation c.documents) PendingLogReservation.bytes
  have hconsumed := filter_consumed hd keys scope
  rw [← consumed, hconsumed, Nat.add_comm] at hsplit
  rw [reservedBytes, hsplit]
  congr 1
  split <;> rfl

/-- What is found by a row that is written. -/
structure Inserted (policy : StoragePolicy) (c : Catalog U A K D) (document : U)
    (expected rowBytes : ℕ) (keys : List K) (reserved : ℕ) (c' : Catalog U A K D)
    (d : StoredDocument U A) : Prop where
  mem : d ∈ c.documents
  id : d.id = document
  sequence : d.updateSequence = expected
  count : reserved > 0 → (c.consumed document keys).length = keys.length
  sum : reserved > 0 →
    saturatingSum ((c.consumed document keys).map PendingLogReservation.bytes) = reserved
  within : ∀ scope : UsageScope A, scope.document d →
    (c.released document keys).usageBytes scope + rowBytes ≤ scope.quota policy
  eq : c' = (c.released document keys).appendRow document rowBytes

omit [DecidableEq A] in
lemma quota_lt (policy : StoragePolicy) (scope : UsageScope A) :
    scope.quota policy < i64Max := by
  cases scope with
  | deployment => exact policy.deploymentBytes_lt
  | owner => exact policy.ownerBytes_lt

variable {bytes expected rowBytes reserved : ℕ} {lands : Bool}

omit [DecidableEq K] [DecidableEq D] in
lemma fits_of_not_wouldExceed {scope : UsageScope A}
    (h : ¬ c.wouldExceed policy scope bytes = true) :
    c.usageBytes scope + bytes ≤ scope.quota policy := by
  have hquota := quota_lt policy scope
  rw [wouldExceed, decide_eq_true_iff] at h
  omega

omit [DecidableEq K] [DecidableEq D] in
lemma fits_of_not_wouldExceed_min {scope : UsageScope A}
    (h : ¬ c.wouldExceed policy scope (min bytes i64Max) = true) :
    c.usageBytes scope + bytes ≤ scope.quota policy := by
  have hquota := quota_lt policy scope
  have hfits := fits_of_not_wouldExceed h
  omega

omit [DecidableEq D] in
lemma insertLogRowReserved_some {keys : List K}
    (h : c.insertLogRowReserved policy document expected rowBytes keys reserved lands = some c') :
    ∃ d, Inserted policy c document expected rowBytes keys reserved c' d := by
  unfold insertLogRowReserved at h
  split at h
  · exact absurd h nofun
  next d hfind =>
    have hd : d.id = document ∧ d.active = true := by simpa using List.find?_some hfind
    by_cases hsequence : d.updateSequence = expected
    · by_cases hkeys : keys.isEmpty = (reserved == 0)
      · have hleft : (if reserved > 0 then c.released document keys else c) =
            c.released document keys := by
          split
          · rfl
          next hnone =>
            rw [beq_iff_eq.2 (Nat.eq_zero_of_not_pos hnone), List.isEmpty_iff] at hkeys
            rw [hkeys, released_nil]
        rw [if_neg (not_not.2 hsequence), if_neg (by rw [hkeys, bne_self_eq_false]; decide)] at h
        dsimp only at h
        rw [hleft] at h
        split_ifs at h with hlost howner hdeployment hlands
        exact ⟨d, {
          mem := List.mem_of_find?_eq_some hfind
          id := hd.1
          sequence := hsequence
          count := fun hpos => by
            by_contra hcount
            exact hlost ⟨hpos, .inl hcount⟩
          sum := fun hpos => by
            by_contra hsum
            exact hlost ⟨hpos, .inr hsum⟩
          within := fun scope hscope => by
            cases scope with
            | deployment => exact fits_of_not_wouldExceed_min hdeployment
            | owner account =>
              rw [← of_decide_eq_true hscope]
              exact fits_of_not_wouldExceed_min howner
          eq := (Option.some.inj h).symm }⟩
      · rw [if_neg (not_not.2 hsequence), if_pos (bne_iff_ne.2 hkeys)] at h
        exact absurd h nofun
    · rw [if_pos hsequence] at h
      exact absurd h nofun

namespace Inserted

variable {expected rowBytes reserved : ℕ} {keys : List K}

omit [DecidableEq D] in
lemma reservedBytes (h : Inserted policy c document expected rowBytes keys reserved c' d)
    (scope : UsageScope A) :
    c.reservedBytes scope = c'.reservedBytes scope +
      if scope.document d then ((c.consumed document keys).map PendingLogReservation.bytes).sum
      else 0 := by
  obtain ⟨hd, rfl, -, -, -, -, rfl⟩ := h
  rw [reservedBytes_appendRow]
  exact reservedBytes_released hd keys scope

omit [DecidableEq D] in
lemma storedBytes (h : Inserted policy c document expected rowBytes keys reserved c' d)
    (scope : UsageScope A) :
    c'.storedBytes scope = c.storedBytes scope + if scope.document d then rowBytes else 0 := by
  obtain ⟨hd, rfl, -, -, -, -, rfl⟩ := h
  exact storedBytes_appendRow (c := c.released d.id keys) hd rowBytes scope

omit [DecidableEq D] in
/-- A row that is written passes no quota. -/
lemma keeps_within (h : Inserted policy c document expected rowBytes keys reserved c' d)
    (hc : c.Within policy) : c'.Within policy := by
  intro scope
  have hstored := h.storedBytes scope
  have hreserved := h.reservedBytes scope
  by_cases hscope : scope.document d = true
  · have hfits := h.within scope hscope
    rw [if_pos hscope] at hstored
    obtain ⟨hd, rfl, -, -, -, -, rfl⟩ := h
    rw [usageBytes, reservedBytes_appendRow, hstored]
    exact le_of_eq_of_le (by rw [usageBytes]; exact Nat.add_right_comm ..) hfits
  · have hbefore := hc scope
    rw [if_neg hscope] at hstored hreserved
    unfold usageBytes at hbefore ⊢
    omega

omit [DecidableEq D] in
/-- What a row takes the place of is not more than what it costs. -/
lemma sum_eq (h : Inserted policy c document expected rowBytes keys reserved c' d)
    (hc : c.Within policy) (hpos : reserved > 0) :
    ((c.consumed document keys).map PendingLogReservation.bytes).sum = reserved := by
  have hsum := h.sum hpos
  have hdeployment := h.reservedBytes .deployment
  have hquota := hc .deployment
  have hlt := policy.deploymentBytes_lt
  rw [if_pos (show UsageScope.deployment.document d = true from rfl)] at hdeployment
  rw [saturatingSum_eq] at hsum
  unfold usageBytes UsageScope.quota at hquota
  dsimp only at hquota
  omega

end Inserted

omit [DecidableEq D] in
lemma writeRow_some {added : List Batch}
    (h : c.writeRow policy keyOf document expected batches added lands = some c') :
    batches ++ added ≠ [] ∧
      c.insertLogRowReserved policy document expected (encode (batches ++ added)).length
        (batches.map (keyOf document)) (saturatingSum (batches.map durableCharge)) lands =
          some c' := by
  unfold writeRow at h
  split at h
  · exact absurd h nofun
  next hne => exact ⟨hne, h⟩

omit [DecidableEq D] in
/-- A row is written in exchange for all of its keys. -/
lemma Inserted.reserved_of_mem {keys : List K}
    (h : Inserted policy c document expected rowBytes keys reserved c' d) (hpos : reserved > 0)
    {key : K} (hkey : key ∈ keys) :
    key ∈ (c.consumed document keys).map PendingLogReservation.reservationId := by
  by_contra hnot
  have hsub : (c.consumed document keys).map PendingLogReservation.reservationId ⊆
      keys.filter fun k => k ≠ key := by
    intro k hk
    obtain ⟨r, hr, rfl⟩ := mem_map.1 hk
    refine mem_filter.2 ⟨(of_decide_eq_true (mem_filter.1 hr).2).2.2, ?_⟩
    exact decide_eq_true fun heq => hnot (heq ▸ hk)
  have hnodup : ((c.consumed document keys).map PendingLogReservation.reservationId).Nodup :=
    c.keys.sublist (filter_sublist.map _)
  have hle := (subperm_of_subset hnodup hsub).length_le
  have hlt : (keys.filter fun k => k ≠ key).length < keys.length :=
    length_filter_lt_length_iff_exists.2 ⟨key, hkey, by simp⟩
  have hcount := h.count hpos
  rw [length_map] at hle
  omega

omit [DecidableEq D] in
/-- None of a row's keys is reserved after it. -/
lemma Inserted.released_of_mem {keys : List K}
    (h : Inserted policy c document expected rowBytes keys reserved c' d) (hpos : reserved > 0)
    {r : PendingLogReservation U K D} (hr : r ∈ c'.reservations) : r.reservationId ∉ keys := by
  intro hkey
  obtain ⟨r', hr', hid⟩ := mem_map.1 (h.reserved_of_mem hpos hkey)
  obtain ⟨hmem', hconsumed⟩ := mem_filter.1 hr'
  rw [h.eq] at hr
  obtain ⟨hmem, hkept⟩ := mem_filter.1 hr
  rw [inj_on_of_nodup_map c.keys hmem hmem' hid.symm, hconsumed] at hkept
  exact Bool.false_ne_true hkept

omit [DecidableEq D] in
/-- A row that a flush writes, and what stays reserved, take what was reserved before. -/
lemma flush_some (hc : c.Within policy)
    (h : c.flush policy keyOf document expected batches lands = some c') :
    ∃ d ∈ c.documents, d.id = document ∧
      (∀ b ∈ batches, ∃ r ∈ c.reservations, r.reservationId = keyOf document b) ∧
      (∀ b ∈ batches, ∀ r ∈ c'.reservations, r.reservationId ≠ keyOf document b) ∧
      ∀ scope : UsageScope A,
        c'.storedBytes scope = c.storedBytes scope +
          (if scope.document d then (encode batches).length else 0) ∧
        (if scope.document d then (encode batches).length else 0) + c'.reservedBytes scope ≤
          c.reservedBytes scope := by
  obtain ⟨hne, hrow⟩ := writeRow_some h
  rw [append_nil] at hne hrow
  obtain ⟨d, hd⟩ := insertLogRowReserved_some hrow
  have hcharge := length_encode_le_charges hne
  have hheader : rowHeaderBytes = 1 := rfl
  have hlength := length_encode batches
  have hmax : i64Max = 9223372036854775807 := rfl
  have hpos : saturatingSum (batches.map durableCharge) > 0 := by
    rw [saturatingSum_eq]
    omega
  have hsum := hd.sum_eq hc hpos
  refine ⟨d, hd.mem, hd.id, fun b hb => ?_, fun b hb r hr heq => ?_,
    fun scope => ⟨hd.storedBytes scope, ?_⟩⟩
  · obtain ⟨r, hr, hid⟩ := mem_map.1 (hd.reserved_of_mem hpos (mem_map_of_mem hb))
    exact ⟨r, (mem_filter.1 hr).1, hid⟩
  · exact hd.released_of_mem hpos hr (heq ▸ mem_map_of_mem hb)
  have hreserved := hd.reservedBytes scope
  have hdeployment := hd.reservedBytes .deployment
  have hquota := hc .deployment
  have hlt := policy.deploymentBytes_lt
  rw [if_pos (show UsageScope.deployment.document d = true from rfl)] at hdeployment
  rw [saturatingSum_eq] at hsum
  unfold usageBytes UsageScope.quota at hquota
  dsimp only at hquota
  split at hreserved
  next hscope =>
    rw [if_pos hscope]
    omega
  next hscope =>
    rw [if_neg hscope]
    omega

/-- What a reservation that is new has found. -/
lemma reservePendingLogBytes_some {key : K} {digest : D}
    (h : c.reservePendingLogBytes policy document key bytes digest lands = some c') :
    c' = c ∨ ∃ d ∈ c.documents, d.id = document ∧
      (∀ scope : UsageScope A, scope.document d → c.usageBytes scope + bytes ≤ scope.quota policy) ∧
      c.insertReservation ⟨key, document, c.writerEpoch, bytes, digest⟩ = some c' := by
  unfold reservePendingLogBytes at h
  split at h
  · exact absurd h nofun
  split at h
  · exact absurd h nofun
  next d hfind =>
    have hd : d.id = document ∧ d.active = true ∧ d.moderated = false := by
      simpa using find?_some hfind
    split at h
    next r _ =>
      split at h
      · exact .inl (Option.some.inj h).symm
      · exact absurd h nofun
    · split_ifs at h with howner hdeployment hlands
      refine .inr ⟨d, mem_of_find?_eq_some hfind, hd.1, ?_, h⟩
      intro scope hscope
      cases scope with
      | deployment => exact fits_of_not_wouldExceed hdeployment
      | owner account =>
        rw [← of_decide_eq_true hscope]
        exact fits_of_not_wouldExceed howner

/-- A reservation under a key that stands is the one that stands, or refused. -/
lemma reservePendingLogBytes_standing {key : K} {r : PendingLogReservation U K D}
    (hr : r ∈ c.reservations) (hkey : r.reservationId = key) (bytes : ℕ) (digest : D)
    (lands : Bool) :
    c.reservePendingLogBytes policy document key bytes digest lands = none ∨
      c.reservePendingLogBytes policy document key bytes digest lands = some c := by
  unfold reservePendingLogBytes
  split
  · exact .inl rfl
  split
  · exact .inl rfl
  split
  · split
    · exact .inr rfl
    · exact .inl rfl
  next hnone =>
    have hother := find?_eq_none.1 hnone r hr
    exact absurd (decide_eq_true hkey) hother

omit [DecidableEq U] [DecidableEq A] [DecidableEq D] in
lemma insertReservation_some {r : PendingLogReservation U K D}
    (h : c.insertReservation r = some c') :
    c'.documents = c.documents ∧ c'.reservations = r :: c.reservations := by
  unfold insertReservation at h
  split at h
  · exact absurd h nofun
  · rw [← Option.some.inj h]
    exact ⟨rfl, rfl⟩

omit [DecidableEq D] in
/-- A reservation is charged once, to those whom its document is charged to. -/
lemma usageBytes_insertReservation {r : PendingLogReservation U K D}
    (h : c.insertReservation r = some c') (hd : d ∈ c.documents) (hr : r.documentId = d.id)
    (scope : UsageScope A) :
    c'.usageBytes scope = c.usageBytes scope + if scope.document d then r.bytes else 0 := by
  obtain ⟨hdocuments, hreservations⟩ := insertReservation_some h
  have hscope : scope.reservation c.documents r = scope.document d := reservation_of_id hd hr
  unfold usageBytes storedBytes reservedBytes
  rw [hdocuments, hreservations, filter_cons, hscope]
  split
  · rw [map_cons, sum_cons]
    omega
  · rfl

/-- A transaction passes no quota. -/
lemma Step.keeps_within (h : Step policy keyOf c c') (hc : c.Within policy) :
    c'.Within policy := by
  cases h with
  | reserve document key bytes digest h =>
    rcases reservePendingLogBytes_some h with heq | ⟨d, hd, hid, hfits, hinsert⟩
    · exact heq ▸ hc
    · intro scope
      rw [usageBytes_insertReservation hinsert hd hid.symm]
      split
      next hscope => exact hfits scope hscope
      · exact hc scope
  | write document expected batches added h =>
    obtain ⟨d, hinserted⟩ := insertLogRowReserved_some (writeRow_some h).2
    exact hinserted.keeps_within hc
  | claim => exact hc
  | clear =>
    intro scope
    refine Nat.le_trans (Nat.add_le_add_left ?_ (c.storedBytes scope)) (hc scope)
    exact ((filter_sublist.filter _).map _).sum_le_sum fun _ _ => Nat.zero_le _

lemma Run.keeps_within (h : Run policy keyOf c c') (hc : c.Within policy) :
    c'.Within policy := by
  induction h with
  | refl => exact hc
  | tail _ hstep ih => exact hstep.keeps_within ih

/-- Documents stay, and their rows are only added to. -/
def Grows (c c' : Catalog U A K D) : Prop :=
  ∀ d ∈ c.documents, ∃ d' ∈ c'.documents, d'.id = d.id ∧ d.updateSequence ≤ d'.updateSequence

omit [DecidableEq A] [DecidableEq K] [DecidableEq D] in
lemma grows_appendRow (c : Catalog U A K D) (document : U) (rowBytes : ℕ) :
    c.Grows (c.appendRow document rowBytes) := fun d hd =>
  ⟨_, mem_map_of_mem hd, d.id_withRow document rowBytes,
    d.updateSequence_le_withRow document rowBytes⟩

lemma Step.grows (h : Step policy keyOf c c') : c.Grows c' := by
  cases h with
  | reserve document key bytes digest h =>
    rcases reservePendingLogBytes_some h with heq | ⟨_, _, _, _, hinsert⟩
    · exact heq ▸ fun d hd => ⟨d, hd, rfl, le_rfl⟩
    · rw [Grows, (insertReservation_some hinsert).1]
      exact fun d hd => ⟨d, hd, rfl, le_rfl⟩
  | write document expected batches added h =>
    obtain ⟨_, hinserted⟩ := insertLogRowReserved_some (writeRow_some h).2
    rw [hinserted.eq]
    exact grows_appendRow (c.released document (batches.map (keyOf document))) document _
  | claim => exact fun d hd => ⟨d, hd, rfl, le_rfl⟩
  | clear => exact fun d hd => ⟨d, hd, rfl, le_rfl⟩

lemma Run.grows (h : Run policy keyOf c c') : c.Grows c' := by
  induction h with
  | refl => exact fun d hd => ⟨d, hd, rfl, le_rfl⟩
  | tail _ hstep ih =>
    intro d hd
    obtain ⟨d', hd', hid, hle⟩ := ih d hd
    obtain ⟨d'', hd'', hid', hle'⟩ := hstep.grows d' hd'
    exact ⟨d'', hd'', hid'.trans hid, hle.trans hle'⟩

/-- A flush that is written is not written again. -/
lemma flush_once {after later : Catalog U A K D}
    (hflush : c.flush policy keyOf document expected batches true = some after)
    (hrun : Run policy keyOf after later) (lands : Bool) :
    later.flush policy keyOf document expected batches lands = none := by
  by_contra hsome
  obtain ⟨again, hagain⟩ := Option.ne_none_iff_exists'.1 hsome
  obtain ⟨d, hd⟩ := insertLogRowReserved_some (writeRow_some hflush).2
  obtain ⟨d', hd'⟩ := insertLogRowReserved_some (writeRow_some hagain).2
  have hrow : d.withRow document (encode (batches ++ [])).length ∈ after.documents := by
    rw [hd.eq]
    exact mem_map_of_mem hd.mem
  obtain ⟨e, he, hid, hle⟩ := hrun.grows _ hrow
  have hsame : e = d' := eq_of_id he hd'.mem (by rw [hid, d.id_withRow, hd.id, hd'.id])
  rw [StoredDocument.updateSequence_withRow _ hd.id, hsame, hd.sequence, hd'.sequence] at hle
  omega

/-- In a run, no quota is passed. A row that a flush writes, and what stays reserved, take no
more than what was reserved before, and usage does not rise. The row takes the place of the
reservations of all its batches, and is not written again. A reservation under a key that
stands changes nothing. -/
theorem rows_within_reservations (hc : c.Within policy) (hrun : Run policy keyOf c c') :
    c'.Within policy ∧
    (∀ document expected batches after,
      c'.flush policy keyOf document expected batches true = some after →
      (∀ scope, after.usageBytes scope ≤ c'.usageBytes scope) ∧
      (∃ d ∈ c'.documents, d.id = document ∧ ∀ scope : UsageScope A, scope.document d →
        (encode batches).length + after.reservedBytes scope ≤ c'.reservedBytes scope) ∧
      (∀ b ∈ batches, ∃ r ∈ c'.reservations, r.reservationId = keyOf document b) ∧
      (∀ b ∈ batches, ∀ r ∈ after.reservations, r.reservationId ≠ keyOf document b) ∧
      ∀ later, Run policy keyOf after later → ∀ lands,
        later.flush policy keyOf document expected batches lands = none) ∧
    ∀ r ∈ c'.reservations, ∀ document bytes digest lands,
      c'.reservePendingLogBytes policy document r.reservationId bytes digest lands = none ∨
      c'.reservePendingLogBytes policy document r.reservationId bytes digest lands = some c' := by
  have hwithin := hrun.keeps_within hc
  refine ⟨hwithin, ?_, fun r hr document bytes digest lands =>
    reservePendingLogBytes_standing hr rfl bytes digest lands⟩
  intro document expected batches after hflush
  obtain ⟨d, hd, hid, hreserved, hreleased, hbytes⟩ := flush_some hwithin hflush
  refine ⟨fun scope => ?_, ⟨d, hd, hid, fun scope hscope => ?_⟩, hreserved, hreleased,
    fun _ hlater => flush_once hflush hlater⟩
  · obtain ⟨hstored, hheld⟩ := hbytes scope
    unfold usageBytes
    omega
  · have hheld := (hbytes scope).2
    rw [if_pos hscope] at hheld
    exact hheld

def noteBatch : Batch := ⟨"", 1, [0]⟩

def notePolicy : StoragePolicy where
  ownerBytes := 100
  deploymentBytes := 100
  ownerBytes_lt := by decide
  deploymentBytes_lt := by decide

/-- One empty document. -/
def noteCatalog : Catalog ℕ ℕ ℕ ℕ where
  writerEpoch := 1
  documents := [⟨0, 0, true, false, 0, 0, 0⟩]
  reservations := []
  nodup := by decide
  keys := by decide

def noteKey (_ : ℕ) (b : Batch) : ℕ := b.bytes.length

/-- The reservation of the batch. -/
def noteReserved : Catalog ℕ ℕ ℕ ℕ where
  writerEpoch := 1
  documents := [⟨0, 0, true, false, 0, 0, 0⟩]
  reservations := [⟨1, 0, 1, 16, 7⟩]
  nodup := by decide
  keys := by decide

/-- The row of the batch. -/
def noteFlushed : Catalog ℕ ℕ ℕ ℕ where
  writerEpoch := 1
  documents := [⟨0, 0, true, false, 1, 16, 0⟩]
  reservations := []
  nodup := by decide
  keys := by decide

/-- The batch reserved again. -/
def noteAgain : Catalog ℕ ℕ ℕ ℕ where
  writerEpoch := 1
  documents := [⟨0, 0, true, false, 1, 16, 0⟩]
  reservations := [⟨1, 0, 1, 16, 7⟩]
  nodup := by decide
  keys := by decide

lemma noteCatalog_within : noteCatalog.Within notePolicy := by
  intro scope
  cases scope with
  | deployment => decide
  | owner account =>
    by_cases haccount : account = 0
    · subst haccount
      decide
    · simp [usageBytes, storedBytes, reservedBytes, noteCatalog, UsageScope.document,
        Ne.symm haccount]

lemma noteCatalog_reserved :
    noteCatalog.reservePendingLogBytes notePolicy 0 1 16 7 true = some noteReserved := rfl

lemma noteReserved_flushed :
    noteReserved.flush notePolicy noteKey 0 0 [noteBatch] true = some noteFlushed := rfl

lemma noteFlushed_again :
    noteFlushed.reservePendingLogBytes notePolicy 0 1 16 7 true = some noteAgain := rfl

/-- A reservation that is repeated after its row is charged a second time. -/
theorem reservation_after_row :
    ¬ ∀ (policy : StoragePolicy) (keyOf : ℕ → Batch → ℕ) (c reserved later again :
        Catalog ℕ ℕ ℕ ℕ) (document key bytes digest : ℕ), c.Within policy →
      c.reservePendingLogBytes policy document key bytes digest true = some reserved →
      Run policy keyOf reserved later →
      later.reservePendingLogBytes policy document key bytes digest true = some again →
      again.usageBytes .deployment ≤ later.usageBytes .deployment := by
  intro h
  have hrow : Step notePolicy noteKey noteReserved noteFlushed :=
    .write 0 0 [noteBatch] [] noteReserved_flushed
  have hle := h notePolicy noteKey noteCatalog noteReserved noteFlushed noteAgain 0 1 16 7
    noteCatalog_within noteCatalog_reserved (.single hrow) noteFlushed_again
  exact absurd hle (by decide)

/-- The row of a batch that has been reserved. -/
theorem rows_within_reservations_note :
    noteReserved.flush notePolicy noteKey 0 0 [noteBatch] true = some noteFlushed ∧
      noteFlushed.usageBytes .deployment ≤ noteReserved.usageBytes .deployment := by
  have hreserve : Step notePolicy noteKey noteCatalog noteReserved :=
    .reserve 0 1 16 7 noteCatalog_reserved
  have hall := rows_within_reservations noteCatalog_within (.single hreserve)
  exact ⟨noteReserved_flushed, (hall.2.1 0 0 [noteBatch] noteFlushed noteReserved_flushed).1
    .deployment⟩

end Catalog

end LibrePaper.Log
