import LibrePaper.Library.Lists
import LibrePaper.Log.Delivery

/-!
# The budget of a flush

A deployment states how large a log may be, how much unsaved work it holds, and how much
scratch persistence may take. The configuration is refused unless the scratch pool holds
what the largest row takes to write. A flush reserves its scratch before it encodes the
row, and gives the driver its part of it.
-/
namespace LibrePaper.Log
open Library List

def u64Max : ℕ := 2 ^ 64 - 1

def saturatingAdd (a b : ℕ) : ℕ := min (a + b) u64Max

def saturatingMul (a b : ℕ) : ℕ := min (a * b) u64Max

/-- The plain addition of a release build. -/
def wrappingAdd (a b : ℕ) : ℕ := (a + b) % 2 ^ 64

def checkedAdd (a b : ℕ) : Option ℕ := if a + b ≤ u64Max then some (a + b) else none

/-- The limits of a deployment that saving depends on. -/
structure Configuration where
  logQuotaBytes : ℕ
  pendingBytes : ℕ
  pendingScratchBytes : ℕ
  memoryBudgetBytes : ℕ
  cacheExpansion : ℕ
deriving DecidableEq

namespace Configuration

/-- The most one document's pending charge can come to: the ceiling, or one update of the
largest size, which an empty buffer always takes. -/
def maxPendingCharge (logQuotaBytes : ℕ) : ℕ :=
  let ceiling := bufferCeilingBytes
  let single :=
    wrappingAdd (wrappingAdd (maxUpdateBytes logQuotaBytes) batchHeaderBytes) maxPeerKey
  if single > ceiling then single else ceiling

/-- The largest row that a flush can write. -/
def maxRowBytes (logQuotaBytes : ℕ) : ℕ :=
  wrappingAdd rowHeaderBytes (maxPendingCharge logQuotaBytes)

def scratchSlack : ℕ := 8 * 1024

/-- What the driver's two copies of a row take, each at most twice as large as it needs. -/
def driverScratchFor (rowBytes : ℕ) : ℕ := saturatingMul (saturatingAdd rowBytes scratchSlack) 4

/-- The row and the driver's copies. -/
def scratchFor (rowBytes : ℕ) : ℕ := saturatingAdd rowBytes (driverScratchFor rowBytes)

def buildTransientExpansion : ℕ := 8

/-- What one document is expected to cost in memory, from what its log weighs. -/
def estimate (encodedBytes expansion : ℕ) : ℕ :=
  max (saturatingMul encodedBytes expansion) (64 * 1024)

/-- Refuses a configuration that could not save the work that it takes. -/
def validatePending (b : Configuration) : Except String Unit :=
  if b.pendingBytes = 0 ∨ b.pendingScratchBytes = 0 then
    .error "the pending-source ceilings must be positive"
  else if b.pendingBytes < maxPendingCharge b.logQuotaBytes then
    .error (s!"the deployment pending-source ceiling ({b.pendingBytes >>> 20} MB) cannot hold " ++
      s!"one document's buffer, which this deployment allows to reach " ++
      s!"{bufferCeilingBytes >>> 20} MB")
  else
    let needed := scratchFor (maxRowBytes b.logQuotaBytes)
    if b.pendingScratchBytes < needed then
      .error (s!"the persistence scratch ceiling ({b.pendingScratchBytes >>> 20} MB) cannot " ++
        s!"write one maximum-size row, which needs {needed >>> 20} MB; accepted work would " ++
        "then have no way to reach storage")
    else .ok ()

/-- Refuses a log quota that is too small for a buffer, or that the memory budget cannot
build. -/
def validateBudgets (b : Configuration) : Except String Unit :=
  if b.logQuotaBytes < bufferCeilingBytes then
    .error (s!"the log quota ({b.logQuotaBytes >>> 20} MB) cannot be below the buffer " ++
      s!"ceiling of {bufferCeilingBytes} bytes")
  else match checkedAdd (estimate b.logQuotaBytes b.cacheExpansion)
      (estimate b.logQuotaBytes buildTransientExpansion) with
    | none => .error "the memory budget requirement overflows"
    | some needed =>
      if b.memoryBudgetBytes < needed then
        .error (s!"the memory budget ({b.memoryBudgetBytes >>> 20} MB) cannot build one " ++
          s!"document at the log quota this deployment allows ({b.logQuotaBytes >>> 20} MB): " ++
          s!"a cold build reserves {needed >>> 20} MB, resident plus transient, and a " ++
          "reservation past the budget is refused outright, so every document at the quota " ++
          "would be unreadable")
      else .ok ()

/-- What a server checks of its configuration before it starts. -/
structure Validated (b : Configuration) : Prop where
  pending : b.validatePending = .ok ()
  budgets : b.validateBudgets = .ok ()

section Formulas

variable {b : Configuration}

/-- A quota whose build can be accounted for is far from the end of the machine's numbers. -/
lemma Validated.quota_lt (h : b.Validated) : b.logQuotaBytes < 2 ^ 61 := by
  by_contra hlarge
  have hbudgets := h.budgets
  have hover : ¬ estimate b.logQuotaBytes b.cacheExpansion +
      estimate b.logQuotaBytes buildTransientExpansion ≤ u64Max := by
    have hresident : 64 * 1024 ≤ estimate b.logQuotaBytes b.cacheExpansion := le_max_right _ _
    have htransient : u64Max ≤ estimate b.logQuotaBytes buildTransientExpansion := by
      refine le_trans ?_ (le_max_left _ _)
      unfold saturatingMul buildTransientExpansion u64Max
      omega
    unfold u64Max at *
    omega
  unfold validateBudgets checkedAdd at hbudgets
  rw [if_neg hover] at hbudgets
  split_ifs at hbudgets

lemma Validated.maxPendingCharge_eq (h : b.Validated) :
    maxPendingCharge b.logQuotaBytes =
      max bufferCeilingBytes (b.logQuotaBytes + batchHeaderBytes + maxPeerKey) := by
  have hlt := h.quota_lt
  have hsingle : wrappingAdd (wrappingAdd (maxUpdateBytes b.logQuotaBytes) batchHeaderBytes)
      maxPeerKey = b.logQuotaBytes + batchHeaderBytes + maxPeerKey := by
    unfold wrappingAdd maxUpdateBytes batchHeaderBytes maxPeerKey
    omega
  unfold maxPendingCharge
  dsimp only
  rw [hsingle]
  split_ifs with hmax
  · exact (max_eq_right hmax.le).symm
  · exact (max_eq_left (Nat.le_of_not_lt hmax)).symm

lemma Validated.maxRowBytes_eq (h : b.Validated) :
    maxRowBytes b.logQuotaBytes = rowHeaderBytes + maxPendingCharge b.logQuotaBytes := by
  have hlt := h.quota_lt
  have hcharge := h.maxPendingCharge_eq
  unfold maxRowBytes wrappingAdd
  unfold batchHeaderBytes maxPeerKey at hcharge
  have hceiling : bufferCeilingBytes = 4194304 := rfl
  have hheader : rowHeaderBytes = 1 := rfl
  omega

lemma Validated.scratch_le (h : b.Validated) :
    scratchFor (maxRowBytes b.logQuotaBytes) ≤ b.pendingScratchBytes := by
  have hpending := h.pending
  unfold validatePending at hpending
  dsimp only at hpending
  split_ifs at hpending with _ _ hscratch
  exact Nat.le_of_not_lt hscratch

variable {m n : ℕ}

lemma driverScratchFor_mono (h : m ≤ n) : driverScratchFor m ≤ driverScratchFor n := by
  unfold driverScratchFor saturatingMul saturatingAdd
  omega

lemma scratchFor_mono (h : m ≤ n) : scratchFor m ≤ scratchFor n := by
  have hdriver := driverScratchFor_mono h
  unfold scratchFor saturatingAdd
  omega

lemma driverScratchFor_le (n : ℕ) : driverScratchFor n ≤ scratchFor n := by
  have hmax : driverScratchFor n ≤ u64Max := min_le_right _ _
  unfold scratchFor saturatingAdd
  omega

end Formulas

end Configuration

/-- A pool of bytes, with the reservations that are out. -/
structure Pool where
  limit : ℕ
  used : ℕ
  held : List ℕ
deriving DecidableEq

namespace Pool

def new (limit : ℕ) : Pool := ⟨max limit 1, 0, []⟩

/-- Takes bytes if they are there, and never partially. -/
def tryTake (pool : Pool) (bytes : ℕ) : Option Pool :=
  match checkedAdd pool.used bytes with
  | none => none
  | some wanted =>
    if wanted > pool.limit then none
    else some { pool with used := wanted, held := pool.held ++ [bytes] }

/-- Moves part of a reservation to another owner. Asking for more than it holds is a
panic. -/
def split (pool : Pool) (i bytes : ℕ) : Option Pool :=
  match pool.held[i]? with
  | none => none
  | some held =>
    if bytes ≤ held then some { pool with held := pool.held.set i (held - bytes) ++ [bytes] }
    else none

/-- Gives a reservation back. -/
def drop (pool : Pool) (i : ℕ) : Pool :=
  match pool.held[i]? with
  | none => pool
  | some held => { pool with used := pool.used - held, held := pool.held.eraseIdx i }

/-- The pools that takers, splits and drops make of a new one. -/
inductive Reachable (limit : ℕ) : Pool → Prop
  | new : Reachable limit (new limit)
  | take {pool pool' : Pool} (bytes : ℕ) :
      Reachable limit pool → pool.tryTake bytes = some pool' → Reachable limit pool'
  | split {pool pool' : Pool} (i bytes : ℕ) :
      Reachable limit pool → pool.split i bytes = some pool' → Reachable limit pool'
  | drop {pool : Pool} (i : ℕ) : Reachable limit pool → Reachable limit (pool.drop i)

/-- What is used is what is out. -/
structure Sound (limit : ℕ) (pool : Pool) : Prop where
  limit : pool.limit = max limit 1
  used : pool.used = pool.held.sum
  le : pool.used ≤ pool.limit

variable {limit : ℕ} {pool pool' : Pool}

variable {bytes i a : ℕ} {l : List ℕ}

lemma tryTake_spec (h : pool.tryTake bytes = some pool') :
    pool.used + bytes ≤ pool.limit ∧
      pool' = ⟨pool.limit, pool.used + bytes, pool.held ++ [bytes]⟩ := by
  unfold tryTake checkedAdd at h
  split at h
  · cases h
  · rename_i wanted hwanted
    split_ifs at hwanted h with _ hroom
    cases hwanted
    exact ⟨Nat.le_of_not_lt hroom, (Option.some.inj h).symm⟩

lemma split_spec (h : pool.split i bytes = some pool') :
    ∃ held, pool.held[i]? = some held ∧ bytes ≤ held ∧
      pool' = { pool with held := pool.held.set i (held - bytes) ++ [bytes] } := by
  unfold split at h
  split at h
  · cases h
  · rename_i held hheld
    split_ifs at h with hle
    exact ⟨held, hheld, hle, (Option.some.inj h).symm⟩

lemma Reachable.sound (h : Reachable limit pool) : Sound limit pool := by
  induction h with
  | new => exact ⟨rfl, rfl, Nat.zero_le _⟩
  | take bytes _ htake ih =>
    obtain ⟨hroom, rfl⟩ := tryTake_spec htake
    exact ⟨ih.limit, by simp [ih.used], hroom⟩
  | split i bytes _ hsplit ih =>
    obtain ⟨held, hheld, hle, rfl⟩ := split_spec hsplit
    have hsum := sum_set hheld (held - bytes)
    have hused := ih.used
    refine ⟨ih.limit, ?_, ih.le⟩
    simp only [sum_append, sum_singleton]
    omega
  | @drop pool i _ ih =>
    unfold Pool.drop
    split
    · exact ih
    · rename_i held hheld
      have hsum := sum_eraseIdx hheld
      have hused := ih.used
      have hle := ih.le
      exact ⟨ih.limit, by dsimp only; omega, by dsimp only; omega⟩

end Pool

/-- Why a flush was asked for. -/
inductive FlushReason where
  | maxAge
  | quiet
  | bytes
  | barrier
  | lastSubscriberLeft
  | shutdown
  | authorityRevoked
deriving DecidableEq

/-- A mandatory drain reserves before it looks at the buffer, and waits for its scratch. -/
def FlushReason.guaranteed : FlushReason → Bool
  | .shutdown | .barrier | .authorityRevoked => true
  | _ => false

/-- What a flush reserves: room for the largest row, or for the row that it will write. -/
def scratchNeed (logQuotaBytes : ℕ) (reason : FlushReason) (rowBytes : ℕ) : ℕ :=
  if reason.guaranteed then Configuration.scratchFor (Configuration.maxRowBytes logQuotaBytes)
  else Configuration.scratchFor rowBytes

/-- How a flush fares with its scratch: refused, waiting for others to give theirs back,
stopped by a failed assertion, or with the driver's part split off the rest. -/
inductive FlushScratch where
  | busy
  | waits
  | panicked
  | granted (pool : Pool)
deriving DecidableEq

/-- Takes a flush's scratch, and gives the driver its part for the encoded row. -/
def flushScratch (logQuotaBytes : ℕ) (pool : Pool) (reason : FlushReason)
    (rowBytes encoded : ℕ) : FlushScratch :=
  let need := scratchNeed logQuotaBytes reason rowBytes
  if reason.guaranteed = true ∧ need > pool.limit then .busy
  else match pool.tryTake need with
  | none => if reason.guaranteed then .waits else .busy
  | some taken =>
    match taken.split pool.held.length (Configuration.driverScratchFor encoded) with
    | none => .panicked
    | some pool => .granted pool

lemma scratchNeed_le_u64Max (logQuotaBytes : ℕ) (reason : FlushReason) (rowBytes : ℕ) :
    scratchNeed logQuotaBytes reason rowBytes ≤ u64Max := by
  unfold scratchNeed
  split <;> exact min_le_right _ _

/-- Scratch that the pool can hold, and that covers the driver's part, is had when nobody
else has any. -/
lemma flushScratch_spec {limit logQuotaBytes rowBytes encoded : ℕ} {pool : Pool}
    {reason : FlushReason} (hpool : pool.Sound limit)
    (hneed : scratchNeed logQuotaBytes reason rowBytes ≤ pool.limit)
    (hdriver : Configuration.driverScratchFor encoded ≤ scratchNeed logQuotaBytes reason rowBytes) :
    let outcome := flushScratch logQuotaBytes pool reason rowBytes encoded
    outcome ≠ .panicked ∧ (outcome = .busy ∨ outcome = .waits → pool.held ≠ []) ∧
      (reason.guaranteed = true → outcome ≠ .busy) := by
  intro outcome
  have hfits : ¬ (reason.guaranteed = true ∧
      scratchNeed logQuotaBytes reason rowBytes > pool.limit) :=
    fun h => Nat.not_lt.2 hneed h.2
  have hflow : outcome = match pool.tryTake (scratchNeed logQuotaBytes reason rowBytes) with
      | none => if reason.guaranteed then .waits else .busy
      | some taken =>
        match taken.split pool.held.length (Configuration.driverScratchFor encoded) with
        | none => .panicked
        | some pool => .granted pool := if_neg hfits
  rw [hflow]
  cases htake : pool.tryTake (scratchNeed logQuotaBytes reason rowBytes) with
  | none =>
    have hheld : pool.held ≠ [] := by
      intro hnone
      have hused := hpool.used
      rw [hnone, sum_nil] at hused
      have hmax := scratchNeed_le_u64Max logQuotaBytes reason rowBytes
      unfold Pool.tryTake checkedAdd at htake
      rw [hused, Nat.zero_add, if_pos hmax] at htake
      dsimp only at htake
      rw [if_neg (Nat.not_lt.2 hneed)] at htake
      cases htake
    cases hmust : reason.guaranteed <;> simp [hheld]
  | some taken =>
    obtain ⟨-, rfl⟩ := Pool.tryTake_spec htake
    have hmine : (pool.held ++ [scratchNeed logQuotaBytes reason rowBytes])[pool.held.length]? =
        some (scratchNeed logQuotaBytes reason rowBytes) := by simp
    unfold Pool.split
    dsimp only
    rw [hmine]
    dsimp only
    rw [if_pos hdriver]
    simp

variable {V K D : Type} [SemilatticeSup V] [OrderBot V] {P : Platform V K D}

/-- The most that admission lets a buffer be charged. -/
def chargeBound (logQuotaBytes : ℕ) : ℕ :=
  max bufferCeilingBytes (logQuotaBytes + batchHeaderBytes + maxPeerKey)

section Charges

variable [DecidableLE V] [DecidableEq K] [DecidableEq D]

variable {c : Config} {o : Outside} {inner : Inner P}

omit [DecidableEq K] [DecidableEq D] in
lemma Inner.refusal_room {header : ImportBlobMetadata V} {charge : ℕ}
    (h : inner.refusal c o header charge = none) :
    inner.buffer = [] ∨ inner.chargedBytes + charge ≤ bufferCeilingBytes := by
  by_contra hfull
  have hover : inner.buffer ≠ [] ∧ inner.chargedBytes + charge > bufferCeilingBytes := by
    rw [not_or, Nat.not_le] at hfull
    exact hfull
  unfold Inner.refusal at h
  cases hledger : o.ledger <;> simp only [hledger, if_pos hover] at h <;> split_ifs at h

/-- What admission knows of a batch that it appends. -/
lemma ingest_admits {d : Durable V K D} {socket : ℕ} {peerKey : String} {clientSeq : ℤ}
    {bytes : List UInt8} {p : Pending P}
    (h : (ingest c o d inner socket peerKey clientSeq bytes).appended = some p) :
    p.charge ≤ c.logQuotaBytes + batchHeaderBytes + maxPeerKey ∧
      (inner.buffer = [] ∨ inner.chargedBytes + p.charge ≤ bufferCeilingBytes) := by
  unfold ingest at h
  dsimp only at h
  split at h
  · cases h
  split at h
  · cases h
  rename_i hlarge
  split at h
  · cases h
  rename_i hkey
  split at h
  · cases h
  split at h
  · cases h
  split at h
  · cases h
  split at h
  · cases h
  split at h
  · cases h
  rename_i hroom
  split at h
  · cases h
  split at h
  · cases h
  cases h
  refine ⟨?_, Inner.refusal_room hroom⟩
  rw [Pending.charge_eq]
  unfold maxUpdateBytes at hlarge
  simp only [pendingOf, overhead]
  omega

lemma ingest_charged {d : Durable V K D} (hsound : inner.Sound)
    (hle : inner.chargedBytes ≤ chargeBound c.logQuotaBytes) (socket : ℕ) (peerKey : String)
    (clientSeq : ℤ) (bytes : List UInt8) :
    (ingest c o d inner socket peerKey clientSeq bytes).inner.chargedBytes ≤
      chargeBound c.logQuotaBytes := by
  have hadmits : ∀ p, (ingest c o d inner socket peerKey clientSeq bytes).appended = some p →
      p.charge ≤ c.logQuotaBytes + batchHeaderBytes + maxPeerKey ∧
        (inner.buffer = [] ∨ inner.chargedBytes + p.charge ≤ bufferCeilingBytes) :=
    fun _ => ingest_admits
  have hcases := ingest_cases c o d inner socket peerKey clientSeq bytes
  generalize ingest c o d inner socket peerKey clientSeq bytes = r at hadmits hcases
  cases hcases with
  | refused => exact hle
  | duplicate => exact hle
  | empty => exact hle
  | appended header hdecode =>
    obtain ⟨hcharge, hroom⟩ := hadmits _ rfl
    refine le_trans (Inner.appendPending_appends inner o socket _).chargedBytes.le ?_
    rcases hroom with hempty | hroom
    · have hzero := hsound.chargedBytes
      rw [hempty, map_nil, sum_nil] at hzero
      rw [hzero, Nat.zero_add]
      exact hcharge.trans (le_max_right _ _)
    · exact hroom.trans (le_max_left _ _)

end Charges

section Runs

variable [DecidableEq V] [DecidableLE V] [DecidableEq K] [DecidableEq D] {c : Config} {s t : Sys P}

/-- A step keeps the charge within what admission lets in. -/
lemma charged_step {op : Op V} {shown : List (Event V)} (hinv : Inv s)
    (hle : s.inner.chargedBytes ≤ chargeBound c.logQuotaBytes)
    (hs : step c s op = some (t, shown)) : t.inner.chargedBytes ≤ chargeBound c.logQuotaBytes := by
  have hinv' := hinv.step hs
  have hdropped : ∀ n, t.inner.buffer = s.inner.buffer.drop n →
      t.inner.chargedBytes ≤ chargeBound c.logQuotaBytes := by
    intro n hbuf
    have hsplit := congrArg (fun l => (l.map Pending.charge).sum)
      (take_append_drop n s.inner.buffer)
    simp only [map_append, sum_append] at hsplit
    rw [hinv.inner.chargedBytes] at hle
    rw [hinv'.inner.chargedBytes, hbuf]
    omega
  obtain ⟨hshows, -⟩ := step_does hs
  cases hshows with
  | closing hacc hsends => exact hdropped 0 hsends.buffer
  | registered socket subscriber j hacc hinner => exact hdropped 0 (hinner ▸ rfl)
  | joined r hgate hacc hinner => exact hdropped 0 (hinner ▸ rfl)
  | ingested o socket peerKey clientSeq bytes r hop hcases hacc hinner =>
    subst hop
    cases hs
    exact ingest_charged hinv.inner hle socket peerKey clientSeq bytes
  | retired full f n hgate hacc hinner => exact hdropped f.take (hinner ▸ rfl)
  | committed full imported prepared n hacks hacc hinner =>
    exact hdropped s.inner.buffer.length (by
      rw [hinner, Inner.finishCommand_buffer hacks, drop_length])

lemma Reachable.charged_le (h : Reachable c s) :
    s.inner.chargedBytes ≤ chargeBound c.logQuotaBytes := by
  induction h with
  | first => exact Nat.zero_le _
  | admitted _ _ => exact Nat.zero_le _
  | step op hreach hs ih => exact charged_step hreach.inv ih hs

/-- When a flush begins under a validated configuration, its buffer is charged no more than
the largest pending charge, the row it encodes is as long as it reserved for and no longer
than the largest row, and the driver's part is within what it reserves, which the pool can
hold. It never panics, it is refused or made to wait only while others hold scratch, and a
mandatory one is never refused. -/
theorem flush_budget_suffices {b : Configuration} (hb : b.Validated) {deployment : String}
    (h : Reachable ⟨b.logQuotaBytes, deployment⟩ s) {f : Flight P}
    (hf : s.inner.snapshotBuffer = some f) :
    let encoded := (encode f.attempt.row.batches).length
    let rowBytes := rowHeaderBytes + s.inner.chargeOf f.take
    s.inner.chargedBytes ≤ Configuration.maxPendingCharge b.logQuotaBytes ∧
      encoded = rowBytes ∧ encoded ≤ Configuration.maxRowBytes b.logQuotaBytes ∧
      ∀ reason pool, Pool.Reachable b.pendingScratchBytes pool →
        let need := scratchNeed b.logQuotaBytes reason rowBytes
        let outcome := flushScratch b.logQuotaBytes pool reason rowBytes encoded
        Configuration.driverScratchFor encoded ≤ need ∧ need ≤ pool.limit ∧ outcome ≠ .panicked ∧
          (outcome = .busy ∨ outcome = .waits → pool.held ≠ []) ∧
          (reason.guaranteed = true → outcome ≠ .busy) := by
  intro encoded rowBytes
  have hsound := h.inv.inner
  unfold Inner.snapshotBuffer at hf
  split_ifs at hf
  cases hf
  have hcharge : s.inner.chargeOf s.inner.buffer.length = s.inner.chargedBytes := by
    rw [Inner.chargeOf, take_length, hsound.chargedBytes]
  have hbatches : (s.inner.attemptOf s.inner.buffer.length).row.batches =
      s.inner.buffer.map Pending.batch := by
    simp [Inner.attemptOf, Attempt.row]
  have hencoded : encoded = rowBytes := by
    simp only [encoded, rowBytes, hbatches, hcharge]
    exact hsound.encode_buffer
  have hbound : s.inner.chargedBytes ≤ Configuration.maxPendingCharge b.logQuotaBytes := by
    rw [hb.maxPendingCharge_eq]
    exact h.charged_le
  have hrow : rowBytes ≤ Configuration.maxRowBytes b.logQuotaBytes := by
    rw [hb.maxRowBytes_eq]
    exact Nat.add_le_add_left (hcharge.le.trans hbound) _
  refine ⟨hbound, hencoded, hencoded.le.trans hrow, fun reason pool hpool => ?_⟩
  have hsize : Configuration.scratchFor rowBytes ≤ scratchNeed b.logQuotaBytes reason rowBytes := by
    unfold scratchNeed
    split
    · exact Configuration.scratchFor_mono hrow
    · exact le_rfl
  have hlargest : scratchNeed b.logQuotaBytes reason rowBytes ≤
      Configuration.scratchFor (Configuration.maxRowBytes b.logQuotaBytes) := by
    unfold scratchNeed
    split
    · exact le_rfl
    · exact Configuration.scratchFor_mono hrow
  have hdriver : Configuration.driverScratchFor encoded ≤
      scratchNeed b.logQuotaBytes reason rowBytes := by
    rw [hencoded]
    exact (Configuration.driverScratchFor_le rowBytes).trans hsize
  have hneed : scratchNeed b.logQuotaBytes reason rowBytes ≤ pool.limit := by
    rw [hpool.sound.limit]
    exact (hlargest.trans hb.scratch_le).trans (le_max_left _ _)
  exact ⟨hdriver, hneed, flushScratch_spec hpool.sound hneed hdriver⟩

/-- The limits that a server starts with when none is set. -/
def defaultConfiguration : Configuration where
  logQuotaBytes := 32 * 1024 * 1024
  pendingBytes := 64 * 1024 * 1024
  pendingScratchBytes := Configuration.scratchFor (Configuration.maxRowBytes (32 * 1024 * 1024))
  memoryBudgetBytes := 512 * 1024 * 1024
  cacheExpansion := 6

lemma defaultConfiguration_validated : defaultConfiguration.Validated := ⟨by decide, by decide⟩

/-- One update is buffered. -/
def sampleDue : Sys samplePlatform × List (Event ℕ) :=
  (runOps ⟨defaultConfiguration.logQuotaBytes, "deployment"⟩ sampleStart
    [.ingest sampleOutside 7 "7" 1 [0, 1]]).get rfl

/-- The flush of that update has the whole pool to itself. -/
theorem flush_budget_suffices_due :
    ∃ f pool, sampleDue.1.inner.snapshotBuffer = some f ∧
      flushScratch defaultConfiguration.logQuotaBytes
        (.new defaultConfiguration.pendingScratchBytes) .barrier
        (rowHeaderBytes + sampleDue.1.inner.chargeOf f.take)
        (encode f.attempt.row.batches).length = .granted pool := by
  have hrun : runOps ⟨defaultConfiguration.logQuotaBytes, "deployment"⟩
      (Sys.start samplePlatform .empty) [.ingest sampleOutside 7 "7" 1 [0, 1]] =
        some (sampleDue.1, sampleDue.2) := rfl
  have hreach := Reachable.first.runOps hrun
  obtain ⟨f, hf⟩ : ∃ f, sampleDue.1.inner.snapshotBuffer = some f := ⟨_, rfl⟩
  obtain ⟨-, -, -, hpools⟩ := flush_budget_suffices defaultConfiguration_validated hreach hf
  obtain ⟨-, -, hcalm, halone, -⟩ := hpools .barrier _ .new
  refine ⟨f, ?_⟩
  cases hout : flushScratch defaultConfiguration.logQuotaBytes
      (.new defaultConfiguration.pendingScratchBytes) .barrier
      (rowHeaderBytes + sampleDue.1.inner.chargeOf f.take)
      (encode f.attempt.row.batches).length with
  | busy => exact absurd rfl (halone (.inl hout))
  | waits => exact absurd rfl (halone (.inr hout))
  | panicked => exact absurd hout hcalm
  | granted pool => exact ⟨pool, hf, rfl⟩

end Runs

end LibrePaper.Log
