import Mathlib

/-!
# How a flushed row carries its batches

A row is a version byte and then, for every batch, the peer key with its length, the
peer's own sequence number, and the update with its length. A batch is charged what it
adds to the row.
-/
namespace LibrePaper.Log

/-- The only version marker there is. -/
def version : UInt8 := 0x01

/-- What the version byte costs. -/
def rowHeaderBytes : ℕ := 1

def batchHeaderBytes : ℕ := 2 + 8 + 4

/-- The longest peer key a frame may claim. -/
def maxPeerKey : ℕ := 256

/-- What framing one batch from `peerKey` adds to the row. -/
def overhead (peerKey : String) : ℕ := batchHeaderBytes + peerKey.utf8ByteSize

/-- One batch as a client sent it, with that client's session sequence. -/
structure Batch where
  peerKey : String
  clientSeq : ℤ
  bytes : List UInt8
deriving DecidableEq

/-- What a batch adds to a row: its payload and its framing. -/
def Batch.weight (b : Batch) : ℕ := b.bytes.length + overhead b.peerKey

/-- The low `width` bytes of a number, most significant first. -/
def toBeBytes : ℕ → ℕ → List UInt8
  | 0, _ => []
  | width + 1, n => toBeBytes width (n / 256) ++ [UInt8.ofNat n]

@[simp] lemma length_toBeBytes (width n : ℕ) : (toBeBytes width n).length = width := by
  induction width generalizing n with
  | zero => rfl
  | succ width ih => simp [toBeBytes, ih]

/-- Writes one batch into a row. A sequence number is written in two's complement. -/
def append (out : List UInt8) (b : Batch) : List UInt8 :=
  out ++ toBeBytes 2 b.peerKey.utf8ByteSize ++ b.peerKey.toUTF8.data.toList ++
    toBeBytes 8 (b.clientSeq % 2 ^ 64).toNat ++ toBeBytes 4 b.bytes.length ++ b.bytes

/-- Frames a flush, in the order the batches were accepted in. -/
def encode (batches : List Batch) : List UInt8 := batches.foldl append [version]

@[simp] lemma length_append (out : List UInt8) (b : Batch) :
    (append out b).length = out.length + b.weight := by
  have hkey : b.peerKey.toByteArray.data.size = b.peerKey.utf8ByteSize := rfl
  simp [append, Batch.weight, overhead, batchHeaderBytes, hkey]
  omega

lemma length_foldl_append (batches : List Batch) (out : List UInt8) :
    (batches.foldl append out).length = out.length + (batches.map Batch.weight).sum := by
  induction batches generalizing out with
  | nil => simp
  | cons b rest ih => simp [ih, Nat.add_assoc]

lemma length_encode (batches : List Batch) :
    (encode batches).length = rowHeaderBytes + (batches.map Batch.weight).sum :=
  length_foldl_append batches _

end LibrePaper.Log
