import LibrePaper.Library.Reading
import LibrePaper.Log.Frame

/-!
# Reading a row back

A row is decoded batch after batch, and every length is checked before it is used. A row of
batches within the limits is read back as it was written, and one that is cut short inside a
batch is refused.
-/
namespace LibrePaper.Log
open Library List

/-- The longest update that a frame may claim. -/
def maxBatchBytes : ℕ := 64 * 1024 * 1024

inductive FrameError where
  | empty
  | unknownVersion (version : UInt8)
  | truncated
  | oversized
deriving DecidableEq

/-- The number that bytes stand for, most significant first. -/
def fromBeBytes (bytes : List UInt8) : ℕ := bytes.foldl (fun n b => n * 256 + b.toNat) 0

/-- A number below `2 ^ 64` in two's complement. -/
def toSigned (n : ℕ) : ℤ := if n < 2 ^ 63 then n else n - 2 ^ 64

abbrev FrameReader := Reader FrameError UInt8

def takeBytes (count : ℕ) : FrameReader (List UInt8) := Reader.take .truncated count

def takeU16 : FrameReader ℕ := (takeBytes 2).andThen fun bytes => Reader.done (fromBeBytes bytes)

def takeU32 : FrameReader ℕ := (takeBytes 4).andThen fun bytes => Reader.done (fromBeBytes bytes)

def takeI64 : FrameReader ℤ :=
  (takeBytes 8).andThen fun bytes => Reader.done (toSigned (fromBeBytes bytes))

/-- Takes one batch. A peer key that is no UTF-8 is replaced. -/
def takeBatch : FrameReader Batch :=
  takeU16.andThen fun keyLen =>
  (Reader.refuseIf (maxPeerKey < keyLen) .oversized).andThen fun _ =>
  (takeBytes keyLen).andThen fun key =>
  takeI64.andThen fun clientSeq =>
  takeU32.andThen fun batchLen =>
  (Reader.refuseIf (maxBatchBytes < batchLen) .oversized).andThen fun _ =>
  (takeBytes batchLen).andThen fun payload =>
  Reader.done ⟨fromUtf8Lossy key, clientSeq, payload⟩

/-- Reads a row back. -/
def decode : List UInt8 → Except FrameError (List Batch)
  | [] => .error .empty
  | v :: rest =>
    if v ≠ version then .error (.unknownVersion v)
    else Reader.many .truncated takeBatch rest.length rest

lemma fromBeBytes_append (bytes : List UInt8) (b : UInt8) :
    fromBeBytes (bytes ++ [b]) = fromBeBytes bytes * 256 + b.toNat := by
  rw [fromBeBytes, foldl_append]
  rfl

lemma fromBeBytes_toBeBytes (width n : ℕ) (h : n < 256 ^ width) :
    fromBeBytes (toBeBytes width n) = n := by
  induction width generalizing n with
  | zero =>
    rw [Nat.pow_zero, Nat.lt_one_iff] at h
    rw [h]
    rfl
  | succ width ih =>
    have hdiv : n / 256 < 256 ^ width := by
      rw [Nat.pow_succ] at h
      omega
    have hlast : (UInt8.ofNat n).toNat = n % 256 := UInt8.toNat_ofNat'
    rw [toBeBytes, fromBeBytes_append, ih (n / 256) hdiv, hlast]
    omega

/-- A sequence number that fits its field. -/
def FitsI64 (n : ℤ) : Prop := -2 ^ 63 ≤ n ∧ n < 2 ^ 63

lemma toSigned_emod {n : ℤ} (h : FitsI64 n) : toSigned (n % 2 ^ 64).toNat = n := by
  unfold FitsI64 at h
  unfold toSigned
  omega

/-- A batch within the limits of a frame. -/
structure Legible (b : Batch) : Prop where
  peerKey : b.peerKey.utf8ByteSize ≤ maxPeerKey
  clientSeq : FitsI64 b.clientSeq
  bytes : b.bytes.length ≤ maxBatchBytes

/-- One batch in a row. -/
def framed (b : Batch) : List UInt8 := append [] b

lemma append_eq (out : List UInt8) (b : Batch) : append out b = out ++ framed b := by
  simp [framed, append]

lemma encode_eq (batches : List Batch) : encode batches = version :: batches.flatMap framed := by
  have hfold : ∀ out : List UInt8, batches.foldl append out = out ++ batches.flatMap framed := by
    induction batches with
    | nil => exact fun out => (append_nil out).symm
    | cons b batches ih =>
      intro out
      rw [foldl_cons, ih, append_eq, flatMap_cons, append_assoc]
  exact hfold [version]

lemma framed_ne_nil (b : Batch) : framed b ≠ [] := by
  intro hnil
  have hlength := congrArg length hnil
  rw [framed, length_append, length_nil, Batch.weight, overhead, batchHeaderBytes] at hlength
  omega

section Takes
variable {n : ℕ}

lemma reads_takeU16 (h : n < 2 ^ 16) : takeU16.Reads (toBeBytes 2 n) n := by
  have hreads := (Reader.reads_take FrameError.truncated (length_toBeBytes 2 n)).andThen
    (f := fun bytes => Reader.done (fromBeBytes bytes)) (Reader.reads_done _)
  rwa [append_nil, fromBeBytes_toBeBytes 2 n h] at hreads

lemma reads_takeU32 (h : n < 2 ^ 32) : takeU32.Reads (toBeBytes 4 n) n := by
  have hreads := (Reader.reads_take FrameError.truncated (length_toBeBytes 4 n)).andThen
    (f := fun bytes => Reader.done (fromBeBytes bytes)) (Reader.reads_done _)
  rwa [append_nil, fromBeBytes_toBeBytes 4 n h] at hreads

lemma reads_takeI64 {seq : ℤ} (h : FitsI64 seq) :
    takeI64.Reads (toBeBytes 8 (seq % 2 ^ 64).toNat) seq := by
  have hlt : (seq % 2 ^ 64).toNat < 256 ^ 8 := by omega
  have hreads := (Reader.reads_take FrameError.truncated
    (length_toBeBytes 8 (seq % 2 ^ 64).toNat)).andThen
    (f := fun bytes => Reader.done (toSigned (fromBeBytes bytes))) (Reader.reads_done _)
  rwa [append_nil, fromBeBytes_toBeBytes 8 _ hlt, toSigned_emod h] at hreads

end Takes

variable {b : Batch} {batches : List Batch}

/-- A batch within the limits is taken from where it was written. -/
lemma reads_takeBatch (h : Legible b) : takeBatch.Reads (framed b) b := by
  have hkey : b.peerKey.toUTF8.data.toList = utf8 b.peerKey.toList := by
    have hbytes : b.peerKey.toUTF8 = b.peerKey.toList.utf8Encode := String.utf8Encode_toList.symm
    rw [hbytes, utf8Encode, data_toByteArray, toList_toArray]
    rfl
  have hlength : (utf8 b.peerKey.toList).length = b.peerKey.utf8ByteSize := by
    rw [← hkey]
    rfl
  have hpeer := h.peerKey
  have hbytes := h.bytes
  unfold maxPeerKey at hpeer
  unfold maxBatchBytes at hbytes
  have hframed : framed b = toBeBytes 2 b.peerKey.utf8ByteSize ++ ([] ++
      (utf8 b.peerKey.toList ++ (toBeBytes 8 (b.clientSeq % 2 ^ 64).toNat ++
        (toBeBytes 4 b.bytes.length ++ ([] ++ (b.bytes ++ [])))))) := by
    simp only [framed, append, hkey, nil_append, append_nil, append_assoc]
  rw [hframed]
  unfold takeBatch
  refine (reads_takeU16 (by omega)).andThen ?_
  refine (Reader.reads_refuseIf (not_lt.2 h.peerKey)).andThen ?_
  refine (Reader.reads_take _ hlength).andThen ?_
  refine (reads_takeI64 h.clientSeq).andThen ?_
  refine (reads_takeU32 (by omega)).andThen ?_
  refine (Reader.reads_refuseIf (not_lt.2 h.bytes)).andThen ?_
  refine (Reader.reads_take _ rfl).andThen ?_
  rw [fromUtf8Lossy_utf8]
  exact Reader.reads_done b

lemma local_takeBytes (count : ℕ) : (takeBytes count).Local := Reader.local_take _ count

lemma local_takeBatch : takeBatch.Local := by
  have hnumber : ∀ {α : Type} (width : ℕ) (f : List UInt8 → α),
      ((takeBytes width).andThen fun bytes => Reader.done (f bytes)).Local :=
    fun width f => (local_takeBytes width).andThen fun _ => Reader.local_done _
  refine (hnumber 2 _).andThen fun keyLen => Reader.local_refuseIf.andThen fun _ => ?_
  refine (local_takeBytes keyLen).andThen fun key => (hnumber 8 _).andThen fun clientSeq => ?_
  refine (hnumber 4 _).andThen fun batchLen => Reader.local_refuseIf.andThen fun _ => ?_
  exact (local_takeBytes batchLen).andThen fun payload => Reader.local_done _

/-- No batch that is taken is longer than a frame may claim. -/
lemma takeBatch_bytes {s rest : List UInt8} (h : takeBatch s = .ok (b, rest)) :
    b.bytes.length ≤ maxBatchBytes := by
  obtain ⟨⟨keyLen, s₁⟩, -, h⟩ := bind_eq_ok.1 h
  obtain ⟨⟨_, s₂⟩, -, h⟩ := bind_eq_ok.1 h
  obtain ⟨⟨key, s₃⟩, -, h⟩ := bind_eq_ok.1 h
  obtain ⟨⟨clientSeq, s₄⟩, -, h⟩ := bind_eq_ok.1 h
  obtain ⟨⟨batchLen, s₅⟩, -, h⟩ := bind_eq_ok.1 h
  obtain ⟨⟨_, s₆⟩, hlimit, h⟩ := bind_eq_ok.1 h
  obtain ⟨⟨payload, s₇⟩, hpayload, h⟩ := bind_eq_ok.1 h
  cases h
  obtain ⟨hle, -⟩ := else_of_ok hlimit
  obtain ⟨-, htake⟩ := else_of_ok hpayload
  cases htake
  exact (length_take_le _ _).trans (not_lt.1 hle)

lemma decode_encode (h : ∀ b ∈ batches, Legible b) : decode (encode batches) = .ok batches := by
  rw [encode_eq, decode, if_neg (not_not.2 rfl)]
  exact Reader.many_of_reads (fun b hb => reads_takeBatch (h b hb)) (fun b _ => framed_ne_nil b) le_rfl

lemma decode_bytes {row : List UInt8} (h : decode row = .ok batches) :
    ∀ b ∈ batches, b.bytes.length ≤ maxBatchBytes := by
  cases row with
  | nil => cases h
  | cons v rest =>
    obtain ⟨-, hmany⟩ := else_of_ok h
    exact Reader.forall_many (fun _ _ _ => takeBatch_bytes) hmany

lemma decode_encode_iff
    (h : ∀ b ∈ batches, b.peerKey.utf8ByteSize ≤ maxPeerKey ∧ FitsI64 b.clientSeq) :
    decode (encode batches) = .ok batches ↔ ∀ b ∈ batches, b.bytes.length ≤ maxBatchBytes :=
  ⟨decode_bytes, fun hbytes => decode_encode fun b hb => ⟨(h b hb).1, (h b hb).2, hbytes b hb⟩⟩

/-- A row that is cut short is cut after a batch, or refused. -/
lemma decode_take {read : List Batch} (h : ∀ b ∈ batches, Legible b) {n : ℕ}
    (hn : n ≤ (encode batches).length) (hok : decode ((encode batches).take n) = .ok read) :
    ∃ k, n = (encode (batches.take k)).length := by
  rw [encode_eq] at hn hok
  cases n with
  | zero => cases hok
  | succ n =>
    rw [take_succ_cons, decode, if_neg (not_not.2 rfl)] at hok
    obtain ⟨k, hk⟩ := Reader.many_take local_takeBatch (fun b hb => reads_takeBatch (h b hb))
      (Nat.le_of_succ_le_succ hn) hok
    refine ⟨k, ?_⟩
    rw [encode_eq, length_cons, ← hk]

end LibrePaper.Log
