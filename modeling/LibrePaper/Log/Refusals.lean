import LibrePaper.Log.Budgets

/-!
# What a refused ingest leaves behind

Ingest takes a batch's charge from the deployment's pool before it reserves durable quota,
and gives it back when it answers anything but accepted. The lock of the document is held
all the while, so that what a refusal leaves is what the call found.
-/
namespace LibrePaper.Log
open Library Option

variable {V K D : Type} [SemilatticeSup V] [OrderBot V] {P : Platform V K D}

section Charged

variable [DecidableLE V] [DecidableEq K] [DecidableEq D]

/-- What ingest does with a batch whose header it has read, with the pool that the charge is
taken from. A charge that is not moved into the buffer is dropped when the call returns. -/
def admitCharged (c : Config) (o : Outside) (pool : Pool) (d : Durable V K D) (inner : Inner P)
    (socket : ℕ) (p : Pending P) (header : ImportBlobMetadata V) : IngestResult P × Pool :=
  let unchanged := fun answer => ((⟨answer, inner, d, [], none⟩ : IngestResult P), pool)
  let full := inner.retryable "this account's storage is full" "storage_quota" false
  if inner.fenced.isSome then
    unchanged (.refused "this server no longer holds this document; reconnect")
  else if (inner.buffer.find? fun q => q.durableKey = p.durableKey).any
      fun q => q.durableDigest = p.durableDigest then
    unchanged .accepted
  else if header.changeNum = 0 then
    let sent := acknowledgePeer o.full p.peerKey p.clientSeq inner
    (⟨.accepted, sent.1, d, sent.2, none⟩, pool)
  else match inner.refusal c { o with retained := true } header p.charge with
  | some answer => unchanged answer
  | none =>
    match pool.tryTake p.charge with
    | none => unchanged (inner.retryable
        "sync_delayed: this deployment is holding all the unsaved work it can"
        "pending_budget" true)
    | some taken =>
      match d.reservePendingLogBytes o.reserved p.durableKey p.durableCharge p.durableDigest with
      | none => (⟨full, inner, d, [], none⟩, taken.drop pool.held.length)
      | some reserved =>
        if o.reservationLost then
          (⟨full, inner, reserved, [], none⟩, taken.drop pool.held.length)
        else
          let sent := inner.appendPending o socket p
          (⟨.accepted, sent.1, reserved, sent.2, some p⟩, taken)

/-- Ingest with the pool. -/
def ingestCharged (c : Config) (o : Outside) (pool : Pool) (d : Durable V K D) (inner : Inner P)
    (socket : ℕ) (peerKey : String) (clientSeq : ℤ) (bytes : List UInt8) :
    IngestResult P × Pool :=
  let unchanged := fun answer => ((⟨answer, inner, d, [], none⟩ : IngestResult P), pool)
  if bytes = [] then unchanged (.invalid "an update with no bytes")
  else if bytes.length > maxUpdateBytes c.logQuotaBytes then
    unchanged (.refused "that update is larger than this deployment accepts")
  else if peerKey.utf8ByteSize > maxPeerKey then
    unchanged (.refused "that editor's identity is too long to record")
  else match h : P.decodeImportBlobMeta bytes with
  | .error why => unchanged (.invalid why)
  | .ok header =>
    admitCharged c o pool d inner socket (pendingOf P peerKey clientSeq bytes header h) header

end Charged

/-- A charge that is taken and dropped leaves the pool as it was. -/
lemma Pool.drop_taken {pool taken : Pool} {bytes : ℕ} (h : pool.tryTake bytes = some taken) :
    taken.drop pool.held.length = pool := by
  obtain ⟨-, rfl⟩ := Pool.tryTake_spec h
  unfold Pool.drop
  have hmine : (pool.held ++ [bytes])[pool.held.length]? = some bytes := by simp
  have hrest : (pool.held ++ [bytes]).eraseIdx pool.held.length = pool.held := by
    rw [List.eraseIdx_append_of_length_le le_rfl, Nat.sub_self]
    exact List.append_nil _
  dsimp only
  rw [hmine]
  dsimp only
  rw [hrest, Nat.add_sub_cancel]

section Refused

variable [DecidableLE V] [DecidableEq K] [DecidableEq D] {c : Config} {o : Outside} {pool : Pool}
  {d : Durable V K D} {inner : Inner P} {socket : ℕ} {peerKey : String} {clientSeq : ℤ}
  {bytes : List UInt8}

omit [DecidableEq K] [DecidableEq D] in
/-- The refusal of the checks before the pool, and that of the pool. -/
lemma Inner.refusal_retained (header : ImportBlobMetadata V) (charge : ℕ) (retained : Bool) :
    inner.refusal c { o with retained := retained } header charge =
      match inner.refusal c { o with retained := true } header charge with
      | some answer => some answer
      | none => if retained = false then some (inner.retryable
          "sync_delayed: this deployment is holding all the unsaved work it can"
          "pending_budget" true) else none := by
  unfold Inner.refusal
  dsimp only
  cases o.ledger <;> simp only <;> split_ifs <;> simp_all

lemma ingestCharged_undecoded (hempty : bytes ≠ [])
    (hlarge : ¬ bytes.length > maxUpdateBytes c.logQuotaBytes)
    (hkey : ¬ peerKey.utf8ByteSize > maxPeerKey) {why : String}
    (hwhy : P.decodeImportBlobMeta bytes = .error why) :
    ingestCharged c o pool d inner socket peerKey clientSeq bytes =
      (⟨.invalid why, inner, d, [], none⟩, pool) := by
  unfold ingestCharged
  dsimp only
  rw [if_neg hempty, if_neg hlarge, if_neg hkey]
  split
  · rename_i why' hwhy'
    obtain rfl := Except.error.inj (hwhy.symm.trans hwhy')
    rfl
  · rename_i header hdecode
    cases hwhy.symm.trans hdecode

lemma ingestCharged_decoded (hempty : bytes ≠ [])
    (hlarge : ¬ bytes.length > maxUpdateBytes c.logQuotaBytes)
    (hkey : ¬ peerKey.utf8ByteSize > maxPeerKey) {header : ImportBlobMetadata V}
    (hdecode : P.decodeImportBlobMeta bytes = .ok header) :
    ingestCharged c o pool d inner socket peerKey clientSeq bytes =
      admitCharged c o pool d inner socket (pendingOf P peerKey clientSeq bytes header hdecode)
        header := by
  unfold ingestCharged
  dsimp only
  rw [if_neg hempty, if_neg hlarge, if_neg hkey]
  split
  · rename_i why hwhy
    cases hdecode.symm.trans hwhy
  · rename_i header' hdecode'
    obtain rfl := Except.ok.inj (hdecode.symm.trans hdecode')
    rfl

/-- The pool answers what ingest asks of it. -/
lemma ingestCharged_eq : (ingestCharged c o pool d inner socket peerKey clientSeq bytes).1 =
    ingest c { o with retained := (pool.tryTake (bytes.length + overhead peerKey)).isSome } d inner
      socket peerKey clientSeq bytes := by
  by_cases hempty : bytes = []
  · rw [ingestCharged, ingest, if_pos hempty, if_pos hempty]
  by_cases hlarge : bytes.length > maxUpdateBytes c.logQuotaBytes
  · rw [ingestCharged, ingest, if_neg hempty, if_neg hempty, if_pos hlarge, if_pos hlarge]
  by_cases hkey : peerKey.utf8ByteSize > maxPeerKey
  · rw [ingestCharged, ingest, if_neg hempty, if_neg hempty, if_neg hlarge, if_neg hlarge,
      if_pos hkey, if_pos hkey]
  cases hdecode : P.decodeImportBlobMeta bytes with
  | error why =>
    rw [ingestCharged_undecoded hempty hlarge hkey hdecode]
    unfold ingest
    dsimp only
    rw [if_neg hempty, if_neg hlarge, if_neg hkey]
    split
    · rename_i why' hwhy'
      obtain rfl := Except.error.inj (hdecode.symm.trans hwhy')
      rfl
    · rename_i header hdecode'
      cases hdecode.symm.trans hdecode'
  | ok header =>
  rw [ingestCharged_decoded hempty hlarge hkey hdecode]
  unfold ingest
  dsimp only
  rw [if_neg hempty, if_neg hlarge, if_neg hkey]
  split
  · rename_i why hwhy
    cases hdecode.symm.trans hwhy
  rename_i header' hdecode'
  obtain rfl := Except.ok.inj (hdecode.symm.trans hdecode')
  have hcharge : (pendingOf P peerKey clientSeq bytes header hdecode).charge =
      bytes.length + overhead peerKey := rfl
  unfold admitCharged
  dsimp only
  by_cases hfenced : inner.fenced.isSome = true
  · rw [if_pos hfenced, if_pos hfenced]
  rw [if_neg hfenced, if_neg hfenced]
  split
  · rfl
  by_cases hnone : header.changeNum = 0
  · rw [if_pos hnone, if_pos hnone]
    rfl
  rw [if_neg hnone, if_neg hnone, Inner.refusal_retained header _
    (pool.tryTake (bytes.length + overhead peerKey)).isSome]
  cases hrefusal : inner.refusal c { o with retained := true } header
      (pendingOf P peerKey clientSeq bytes header hdecode).charge with
  | some answer => rfl
  | none =>
    dsimp only
    rw [hcharge]
    cases htake : pool.tryTake (bytes.length + overhead peerKey) with
    | none => rfl
    | some taken =>
      simp only [isSome_some, Bool.true_eq_false, if_false]
      cases hreserved : d.reservePendingLogBytes o.reserved
          (pendingOf P peerKey clientSeq bytes header hdecode).durableKey
          (pendingOf P peerKey clientSeq bytes header hdecode).durableCharge
          (pendingOf P peerKey clientSeq bytes header hdecode).durableDigest with
      | none => rfl
      | some reserved =>
        dsimp only
        by_cases hlost : o.reservationLost = true
        · rw [if_pos hlost, if_pos hlost]
        · rw [if_neg hlost, if_neg hlost]
          rfl

omit [SemilatticeSup V] [OrderBot V] [DecidableLE V] in
/-- A reservation that is made is new, or was there. -/
lemma Durable.reservePendingLogBytes_cases {d' : Durable V K D} {room : Bool} {key : K}
    {charge : ℕ} {digest : D} (h : d.reservePendingLogBytes room key charge digest = some d') :
    d' = d ∨ d' = { d with reservations := ⟨key, charge, digest⟩ :: d.reservations } := by
  unfold Durable.reservePendingLogBytes at h
  split at h
  · split_ifs at h
    exact .inl (some.inj h).symm
  · split_ifs at h
    exact .inr (some.inj h).symm

/-- A call left the sequencer and the pool as they were, and of the reservations at most one
more than there were, under a key that no buffered batch has. -/
structure Intact (pool : Pool) (d : Durable V K D) (inner : Inner P) (r : IngestResult P × Pool) :
    Prop where
  sequencer : r.1.inner = inner
  budget : r.2 = pool
  appended : r.1.appended = none
  events : r.1.events = []
  durable : r.1.durable = d ∨ ∃ x, (P.KeysSeparate → x.key ∉ inner.buffer.map Pending.durableKey) ∧
    r.1.durable = { d with reservations := x :: d.reservations }

omit [DecidableLE V] [DecidableEq K] [DecidableEq D] in
lemma Intact.unchanged (answer : Ingested V) :
    Intact pool d inner ((⟨answer, inner, d, [], none⟩ : IngestResult P), pool) :=
  ⟨rfl, rfl, rfl, rfl, .inl rfl⟩

lemma admitCharged_refused {p : Pending P} {header : ImportBlobMetadata V}
    (h : (admitCharged c o pool d inner socket p header).1.answer ≠ .accepted) :
    Intact pool d inner (admitCharged c o pool d inner socket p header) := by
  unfold admitCharged at h ⊢
  dsimp only at h ⊢
  by_cases hfenced : inner.fenced.isSome = true
  · rw [if_pos hfenced]
    exact .unchanged _
  rw [if_neg hfenced] at h ⊢
  by_cases hdup : ((inner.buffer.find? fun q => q.durableKey = p.durableKey).any
      fun q => q.durableDigest = p.durableDigest) = true
  · rw [if_pos hdup]
    exact .unchanged _
  rw [if_neg hdup] at h ⊢
  by_cases hempty : header.changeNum = 0
  · rw [if_pos hempty] at h
    exact absurd rfl h
  rw [if_neg hempty] at h ⊢
  cases hrefusal : inner.refusal c { o with retained := true } header p.charge with
  | some answer => exact .unchanged _
  | none =>
    rw [hrefusal] at h
    cases htake : pool.tryTake p.charge with
    | none => exact .unchanged _
    | some taken =>
      rw [htake] at h
      have hdropped := Pool.drop_taken htake
      cases hreserved : d.reservePendingLogBytes o.reserved p.durableKey p.durableCharge
          p.durableDigest with
      | none => exact ⟨rfl, hdropped, rfl, rfl, .inl rfl⟩
      | some reserved =>
        rw [hreserved] at h
        dsimp only at h ⊢
        by_cases hlost : o.reservationLost = true
        · rw [if_pos hlost]
          refine ⟨rfl, hdropped, rfl, rfl, ?_⟩
          refine (Durable.reservePendingLogBytes_cases hreserved).imp_right fun hnew =>
            ⟨_, fun hk => fresh_key hk fun q hq hsame => hdup ?_, hnew⟩
          rw [hq]
          exact decide_eq_true hsame
        · rw [if_neg hlost] at h
          exact absurd rfl h

lemma ingestCharged_refused
    (h : (ingestCharged c o pool d inner socket peerKey clientSeq bytes).1.answer ≠ .accepted) :
    Intact pool d inner (ingestCharged c o pool d inner socket peerKey clientSeq bytes) := by
  unfold ingestCharged at h ⊢
  dsimp only at h ⊢
  split
  · exact .unchanged _
  rename_i hempty
  rw [if_neg hempty] at h
  split
  · exact .unchanged _
  rename_i hlarge
  rw [if_neg hlarge] at h
  split
  · exact .unchanged _
  rename_i hkey
  rw [if_neg hkey] at h
  split
  · exact .unchanged _
  · rename_i header hdecode
    split at h
    · rename_i why hwhy
      cases hdecode.symm.trans hwhy
    · rename_i header' hdecode'
      obtain rfl := Except.ok.inj (hdecode.symm.trans hdecode')
      exact admitCharged_refused h

/-- Nothing but the gap check stands between a batch and the buffer. -/
structure Admitted (c : Config) (o : Outside) (pool : Pool) (d : Durable V K D) (inner : Inner P)
    (p : Pending P) (header : ImportBlobMetadata V) : Prop where
  nonempty : p.bytes ≠ []
  size : p.bytes.length ≤ maxUpdateBytes c.logQuotaBytes
  identity : p.peerKey.utf8ByteSize ≤ maxPeerKey
  writable : inner.fenced = none
  rate : o.rate = true
  logQuota : inner.logBytes < c.logQuotaBytes
  ledger : o.ledger = none
  documentBuffer : inner.buffer = [] ∨ inner.chargedBytes + p.charge ≤ bufferCeilingBytes
  retained : (pool.tryTake p.charge).isSome
  reserved : (d.reservePendingLogBytes o.reserved p.durableKey p.durableCharge
    p.durableDigest).isSome
  answered : o.reservationLost = false

/-- A batch that starts within the head is accepted when nothing else refuses it. -/
lemma Admitted.accepted {header : ImportBlobMetadata V}
    (hdecode : P.decodeImportBlobMeta bytes = .ok header)
    (h : Admitted c o pool d inner (pendingOf P peerKey clientSeq bytes header hdecode) header)
    (hstart : header.partialStartVv ≤ inner.headVector) :
    (ingestCharged c o pool d inner socket peerKey clientSeq bytes).1.answer = .accepted := by
  have hrefusal : inner.refusal c { o with retained := true } header
      (pendingOf P peerKey clientSeq bytes header hdecode).charge = none := by
    have hroom : ¬ (inner.buffer ≠ [] ∧ inner.chargedBytes +
        (pendingOf P peerKey clientSeq bytes header hdecode).charge > bufferCeilingBytes) := by
      rintro ⟨hne, hover⟩
      rcases h.documentBuffer with hnil | hfits
      · exact hne hnil
      · exact Nat.not_lt.2 hfits hover
    have hlog : ¬ inner.logBytes ≥ c.logQuotaBytes := Nat.not_le.2 h.logQuota
    have hrate : ¬ o.rate = false := by rw [h.rate]; decide
    unfold Inner.refusal
    dsimp only
    rw [if_neg hrate, if_neg hlog, h.ledger]
    dsimp only
    rw [if_neg hroom, if_neg (not_not.2 hstart), if_neg (by decide)]
  have hadmit : (admitCharged c o pool d inner socket
      (pendingOf P peerKey clientSeq bytes header hdecode) header).1.answer = .accepted := by
    obtain ⟨taken, htake⟩ := isSome_iff_exists.1 h.retained
    obtain ⟨reserved, hreserved⟩ := isSome_iff_exists.1 h.reserved
    unfold admitCharged
    dsimp only
    rw [if_neg (by rw [h.writable]; decide)]
    split
    · rfl
    split
    · rfl
    rw [hrefusal]
    dsimp only
    rw [htake]
    dsimp only
    rw [hreserved]
    dsimp only
    rw [if_neg (by rw [h.answered]; decide)]
  have hsize : ¬ bytes.length > maxUpdateBytes c.logQuotaBytes := Nat.not_lt.2 h.size
  have hidentity : ¬ peerKey.utf8ByteSize > maxPeerKey := Nat.not_lt.2 h.identity
  have hempty : ¬ bytes = [] := h.nonempty
  unfold ingestCharged
  dsimp only
  rw [if_neg hempty, if_neg hsize, if_neg hidentity]
  split
  · rename_i why hwhy
    cases hdecode.symm.trans hwhy
  · rename_i header' hdecode'
    obtain rfl := Except.ok.inj (hdecode.symm.trans hdecode')
    exact hadmit

omit [DecidableEq K] [DecidableEq D] in
lemma Inner.refusal_gap {header : ImportBlobMetadata V} {charge : ℕ} {v : V}
    (h : inner.refusal c o header charge = some (.gap v)) : v = inner.headVector := by
  unfold Inner.refusal Inner.retryable at h
  cases hledger : o.ledger <;> simp only [hledger] at h <;> split_ifs at h <;> cases h
  rfl

/-- A gap is answered with the head. -/
lemma ingestCharged_gap {v : V}
    (h : (ingestCharged c o pool d inner socket peerKey clientSeq bytes).1.answer = .gap v) :
    v = inner.headVector := by
  rw [ingestCharged_eq] at h
  unfold ingest at h
  dsimp only at h
  split at h
  · cases h
  split at h
  · cases h
  split at h
  · cases h
  split at h
  · cases h
  split at h
  · cases h
  split at h
  · cases h
  split at h
  · cases h
  split at h
  · rename_i answer hrefusal
    exact Inner.refusal_gap (hrefusal.trans (congrArg some h))
  split at h
  · cases h
  split at h
  · cases h
  · cases h

end Refused

section Runs

variable [DecidableEq V] [DecidableLE V] [DecidableEq K] [DecidableEq D] {c : Config} {s : Sys P}

/-- A call that is not accepted leaves the sequencer, the pool and the log as they were, and
the reservations of the buffered batches. The vector that a gap is answered with is what the
log through the sequencer's last row and the buffer cover, and a batch that starts within it
is accepted by the next call unless another limit refuses it. -/
theorem refused_ingest_intact (hk : P.KeysSeparate) (h : Reachable c s) (o : Outside)
    (pool : Pool) (socket : ℕ) (peerKey : String) (clientSeq : ℤ) (bytes : List UInt8) :
    let r := ingestCharged c o pool s.durable s.inner socket peerKey clientSeq bytes
    let mine := fun x : Reservation K D => decide (x.key ∈ s.inner.buffer.map Pending.durableKey)
    (r.1.answer ≠ .accepted → r.1.inner = s.inner ∧ r.2 = pool ∧
      r.1.durable = { s.durable with reservations := r.1.durable.reservations } ∧
      r.1.durable.reservations.filter mine = s.durable.reservations.filter mine) ∧
    ∀ v, r.1.answer = .gap v →
      v = s.inner.buffer.foldl (fun v p => v ⊔ p.stop) s.inner.logVector ∧
      s.inner.logVector = s.durable.vectorAt (s.inner.nextSequence - 1) ∧
      ∀ (o' : Outside) (socket' : ℕ) (peerKey' : String) (clientSeq' : ℤ) (update : List UInt8)
        (header : ImportBlobMetadata V) (hdecode : P.decodeImportBlobMeta update = .ok header),
        header.partialStartVv ≤ v →
        Admitted c o' r.2 r.1.durable r.1.inner
          (pendingOf P peerKey' clientSeq' update header hdecode) header →
        (ingestCharged c o' r.2 r.1.durable r.1.inner socket' peerKey' clientSeq'
          update).1.answer = .accepted := by
  intro r mine
  refine ⟨fun hrefused => ?_, fun v hgap => ?_⟩
  · have hintact := ingestCharged_refused hrefused
    refine ⟨hintact.sequencer, hintact.budget, ?_⟩
    rcases hintact.durable with hsame | ⟨x, hkey, hmore⟩
    · exact ⟨by rw [hsame], by rw [hsame]⟩
    · refine ⟨by rw [hmore], ?_⟩
      have hout : mine x = false := decide_eq_false (hkey hk)
      rw [hmore, List.filter_cons, hout]
      rfl
  · have hv := ingestCharged_gap hgap
    have hrefused : r.1.answer ≠ .accepted := by
      rw [hgap]
      exact nofun
    have hsame := (ingestCharged_refused hrefused).sequencer
    have hinv := h.inv
    refine ⟨hv.trans hinv.inner.headVector_foldl, hinv.tracks.logVector, ?_⟩
    intro o' socket' peerKey' clientSeq' update header hdecode hstart hadmitted
    refine hadmitted.accepted hdecode ?_
    rw [hsame, ← hv]
    exact hstart

/-- An update past a gap is refused, and the one exported from the answer is accepted. -/
theorem refused_ingest_intact_two :
    let s := (sampleAfter sampleTwo).get rfl
    let r := ingestCharged sampleConfig sampleOutside (.new 1000) s.durable s.inner 9 "9" 1 [5, 6]
    r.1.answer = .gap 3 ∧ r.1.inner.chargedBytes = s.inner.chargedBytes ∧
      (ingestCharged sampleConfig sampleOutside r.2 r.1.durable r.1.inner 9 "9" 2
        [3, 6]).1.answer = .accepted := by
  intro s r
  have hgap : r.1.answer = .gap 3 := by decide
  obtain ⟨hintact, hexport⟩ := refused_ingest_intact samplePlatform_keysSeparate
    (sampleAfter_reachable sampleTwo rfl) sampleOutside (.new 1000) 9 "9" 1 [5, 6]
  obtain ⟨hinner, -⟩ := hintact (by decide)
  obtain ⟨-, -, hnext⟩ := hexport 3 hgap
  refine ⟨hgap, congrArg Inner.chargedBytes hinner, hnext sampleOutside 9 "9" 2 [3, 6] ⟨3, 3, 6⟩ rfl
    (by decide) ?_⟩
  exact ⟨by decide, by decide, by decide, by decide, rfl, by decide, rfl, .inr (by decide),
    by decide, by decide, rfl⟩

end Runs

end LibrePaper.Log
