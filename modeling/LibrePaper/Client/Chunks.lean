import LibrePaper.Library.Fallible
import LibrePaper.Library.Utf8

/-!
# Updates in chunks

A long update is sent as a start, its chunks and an end. The server puts one update together at a
time, and the socket is closed at the first message that does not fit.
-/
namespace LibrePaper.Client.Chunks
open Library List

/-- How a message carries bytes. -/
structure Coding (Text : Type) where
  encode : Bytes → Text
  decodeUpdate : Text → Option Bytes
  decode_encode : ∀ bytes, decodeUpdate (encode bytes) = some bytes

/-- Texts that are the bytes themselves. -/
def plain : Coding Bytes := ⟨id, some, fun _ => rfl⟩

inductive Message (Text : Type)
  | docUpdate (update : Text) (seq : ℤ)
  | docUpdateStart (seq : ℤ) (size chunks : ℕ)
  | docUpdateChunk (seq : ℤ) (index : ℕ) (update : Text)
  | docUpdateEnd (seq : ℤ)

/-- The update that is being put together. -/
structure Pending where
  seq : ℤ
  size : ℕ
  chunks : ℕ
  next : ℕ
  bytes : Bytes

def UPDATE_CHUNK_BYTES : ℕ := 600000

def INVALID : String := "invalid multipart document update"

variable {Text : Type} (coding : Coding Text) (ceiling : ℕ)

/-- How many chunks hold an update. -/
def chunkCount (length : ℕ) : ℕ := (length + UPDATE_CHUNK_BYTES - 1) / UPDATE_CHUNK_BYTES

def sendChunk (update : Bytes) (mine : ℤ) (index : ℕ) : Message Text :=
  .docUpdateChunk mine index
    (coding.encode ((update.drop (index * UPDATE_CHUNK_BYTES)).take UPDATE_CHUNK_BYTES))

def sendUpdate (update : Bytes) (mine : ℤ) : List (Message Text) :=
  if update.length ≤ UPDATE_CHUNK_BYTES then [.docUpdate (coding.encode update) mine]
  else .docUpdateStart mine update.length (chunkCount update.length) ::
    ((List.range (chunkCount update.length)).map (sendChunk coding update mine) ++
      [.docUpdateEnd mine])

/-- What becomes of the assembly at a message, and what it yields. -/
def receive (pending : Option Pending) : Message Text →
    Option Pending × Except String (Option Bytes)
  | .docUpdateStart seq size chunks =>
    if pending.isSome ∨ size = 0 ∨ ceiling < size ∨ chunks = 0 ∨ 4096 < chunks ∨ size < chunks then
      (pending, .error INVALID)
    else (some ⟨seq, size, chunks, 0, []⟩, .ok none)
  | .docUpdateChunk seq index update =>
    match pending with
    | none => (none, .error INVALID)
    | some p =>
      if seq ≠ p.seq ∨ index ≠ p.next ∨ p.chunks ≤ p.next then (some p, .error INVALID)
      else
        match coding.decodeUpdate update with
        | none => (some p, .error INVALID)
        | some part =>
          if part = [] ∨ p.size - p.bytes.length < part.length then (some p, .error INVALID)
          else (some { p with next := p.next + 1, bytes := p.bytes ++ part }, .ok none)
  | .docUpdateEnd seq =>
    match pending with
    | none => (none, .error INVALID)
    | some p =>
      if seq ≠ p.seq ∨ p.bytes.length ≠ p.size ∨ p.next ≠ p.chunks then (none, .error INVALID)
      else (none, .ok (some p.bytes))
  | .docUpdate _ _ => (pending, .error INVALID)

/-- Only the messages of updates in chunks are given to the assembly. -/
def Message.multipart : Message Text → Bool
  | .docUpdate _ _ => false
  | _ => true

def incoming (pending : Option Pending) : Message Text →
    Option Pending × Except String (Option Bytes)
  | .docUpdate update _ => (pending, .ok (coding.decodeUpdate update))
  | message => receive coding ceiling pending message

/-- The updates that the socket's reader gets. It stops at the first refusal. -/
def read (pending : Option Pending) :
    List (Message Text) → Except String (Option Pending × List Bytes)
  | [] => .ok (pending, [])
  | message :: messages =>
    match incoming coding ceiling pending message with
    | (_, .error reason) => .error reason
    | (pending, .ok yielded) => do
      let r ← read pending messages
      .ok (r.1, yielded.toList ++ r.2)

/-- The assembly after a message, and the messages that it did not refuse. -/
def follow (state : Option Pending × List (Message Text)) (message : Message Text) :
    Option Pending × List (Message Text) :=
  match receive coding ceiling state.1 message with
  | (pending, .error _) => (pending, state.2)
  | (pending, .ok _) => (pending, state.2 ++ [message])

def after (messages : List (Message Text)) : Option Pending × List (Message Text) :=
  messages.foldl (follow coding ceiling) (none, [])

/-- The chunks of a sequence number in order of their indexes. -/
def chunksOf (seq : ℤ) (texts : List Text) : List (Message Text) :=
  texts.mapIdx fun index text => .docUpdateChunk seq index text

/-- What is held came in the messages that were not refused since the update's start. -/
structure Held (accepted : List (Message Text)) (p : Pending) : Prop where
  came : ∃ before texts parts,
    accepted = before ++ .docUpdateStart p.seq p.size p.chunks :: chunksOf p.seq texts ∧
      List.Forall₂ (fun text part => coding.decodeUpdate text = some part) texts parts ∧
        p.next = texts.length ∧ p.bytes = parts.flatten
  size : p.size ≤ ceiling
  bytes : p.bytes.length ≤ p.size

variable {coding} {ceiling} {state : Option Pending × List (Message Text)}

lemma held_follow (h : ∀ p, state.1 = some p → Held coding ceiling state.2 p)
    (message : Message Text) : ∀ p, (follow coding ceiling state message).1 = some p →
      Held coding ceiling (follow coding ceiling state message).2 p := by
  obtain ⟨pending, accepted⟩ := state
  intro p hp
  unfold follow at hp ⊢
  cases message with
  | docUpdate update seq => exact h p hp
  | docUpdateStart seq size chunks =>
    dsimp only [receive] at hp ⊢
    split_ifs at hp ⊢ with hrefused
    · exact h p hp
    · cases hp
      push Not at hrefused
      exact ⟨⟨accepted, [], [], rfl, .nil, rfl, rfl⟩, hrefused.2.2.1, Nat.zero_le _⟩
  | docUpdateChunk seq index update =>
    dsimp only [receive] at hp ⊢
    cases pending with
    | none => cases hp
    | some q =>
      have hq := h q rfl
      dsimp only at hp ⊢
      split_ifs at hp ⊢ with hplace
      · exact h p hp
      cases hdecode : coding.decodeUpdate update with
      | none =>
        rw [hdecode] at hp
        exact h p hp
      | some part =>
        rw [hdecode] at hp
        dsimp only at hp ⊢
        split_ifs at hp ⊢ with hpart
        · exact h p hp
        · cases hp
          push Not at hplace hpart
          obtain ⟨rfl, rfl, -⟩ := hplace
          obtain ⟨before, texts, parts, haccepted, hparts, hnext, hbytes⟩ := hq.came
          refine ⟨⟨before, texts ++ [update], parts ++ [part], ?_, ?_, ?_, ?_⟩, hq.size, ?_⟩
          · dsimp only at haccepted ⊢
            rw [haccepted, chunksOf, chunksOf, mapIdx_concat, hnext, append_assoc, cons_append]
          · exact rel_append hparts (.cons hdecode .nil)
          · rw [length_append, ← hnext]
            rfl
          · rw [hbytes]
            simp
          · have hfits := hpart.2
            have hheld := hq.bytes
            rw [length_append]
            dsimp only
            omega
  | docUpdateEnd seq =>
    dsimp only [receive] at hp
    cases pending with
    | none => cases hp
    | some q =>
      dsimp only at hp
      split_ifs at hp

lemma held_after (messages : List (Message Text)) : ∀ p,
    (after coding ceiling messages).1 = some p →
      Held coding ceiling (after coding ceiling messages).2 p := by
  induction messages using reverseRecOn with
  | nil => exact nofun
  | append_singleton messages message ih =>
    unfold after
    rw [foldl_append]
    exact held_follow ih message

/-- What is yielded is what was held, at the end of its sequence number. -/
lemma receive_yields {pending : Option Pending} {message : Message Text} {bytes : Bytes}
    (h : (receive coding ceiling pending message).2 = .ok (some bytes)) : ∃ p, pending = some p ∧
      message = .docUpdateEnd p.seq ∧ p.bytes.length = p.size ∧ p.next = p.chunks ∧
        bytes = p.bytes := by
  cases message with
  | docUpdate update seq => cases h
  | docUpdateStart seq size chunks =>
    dsimp only [receive] at h
    split_ifs at h
    cases h
  | docUpdateChunk seq index update =>
    cases pending with
    | none => cases h
    | some p =>
      dsimp only [receive] at h
      split_ifs at h
      cases hdecode : coding.decodeUpdate update with
      | none =>
        rw [hdecode] at h
        cases h
      | some part =>
        rw [hdecode] at h
        dsimp only at h
        split_ifs at h
        cases h
  | docUpdateEnd seq =>
    cases pending with
    | none => cases h
    | some p =>
      dsimp only [receive] at h
      split_ifs at h with hrefused
      cases h
      push Not at hrefused
      obtain ⟨rfl, hsize, hnext⟩ := hrefused
      exact ⟨p, rfl, rfl, hsize, hnext, rfl⟩

lemma incoming_multipart {message : Message Text} (h : message.multipart = true)
    (pending : Option Pending) :
    incoming coding ceiling pending message = receive coding ceiling pending message := by
  cases message with
  | docUpdate update seq => cases h
  | _ => rfl

/-- A reader that has not stopped gave the assembly nothing that was refused. -/
lemma accepted_of_read {messages : List (Message Text)} {r : Option Pending × List Bytes}
    (h : read coding ceiling state.1 messages = .ok r) :
    messages.foldl (follow coding ceiling) state =
      (r.1, state.2 ++ messages.filter Message.multipart) := by
  induction messages generalizing state r with
  | nil =>
    cases h
    rw [filter_nil, append_nil]
    rfl
  | cons message messages ih =>
    rw [foldl_cons]
    unfold read at h
    cases hm : message.multipart with
    | false =>
      cases message with
      | docUpdate update seq =>
        obtain ⟨q, hq, heq⟩ := bind_eq_ok.1 h
        cases heq
        rw [filter_cons_of_neg (by rw [hm]; exact Bool.false_ne_true)]
        exact @ih state q hq
      | _ => cases hm
    | true =>
      rw [incoming_multipart hm] at h
      rw [filter_cons_of_pos hm, follow]
      split at h
      · cases h
      · rename_i pending yielded hreceive
        obtain ⟨q, hq, heq⟩ := bind_eq_ok.1 h
        cases heq
        rw [@ih (pending, state.2 ++ [message]) q hq, append_assoc]
        rfl

lemma lt_chunkCount (index length : ℕ) :
    index < chunkCount length ↔ index * UPDATE_CHUNK_BYTES < length := by
  unfold chunkCount
  rw [Nat.lt_iff_add_one_le, Nat.le_div_iff_mul_le (by decide), Nat.add_one_mul]
  have hpos : 0 < UPDATE_CHUNK_BYTES := by decide
  omega

/-- The assembly after the first chunks of an update. -/
def Pending.of (update : Bytes) (mine : ℤ) (index : ℕ) : Pending :=
  ⟨mine, update.length, chunkCount update.length, index, update.take (index * UPDATE_CHUNK_BYTES)⟩

lemma receive_sendChunk {update : Bytes} {mine : ℤ} {index : ℕ}
    (h : index < chunkCount update.length) :
    receive coding ceiling (some (.of update mine index)) (sendChunk coding update mine index) =
      (some (.of update mine (index + 1)), .ok none) := by
  have hlt := (lt_chunkCount index update.length).1 h
  have hpart : ((update.drop (index * UPDATE_CHUNK_BYTES)).take UPDATE_CHUNK_BYTES).length =
      min UPDATE_CHUNK_BYTES (update.length - index * UPDATE_CHUNK_BYTES) := by
    rw [length_take, length_drop]
  have hpos : 0 < UPDATE_CHUNK_BYTES := by decide
  unfold sendChunk
  dsimp only [receive, Pending.of]
  rw [if_neg (by simpa using h), coding.decode_encode]
  dsimp only
  rw [if_neg]
  · rw [← take_add, Nat.add_one_mul]
  · rw [not_or, ← length_eq_zero_iff, hpart, length_take, Nat.min_eq_left hlt.le]
    omega

lemma read_cons {message : Message Text} {pending next : Option Pending}
    (hm : message.multipart = true)
    (h : receive coding ceiling pending message = (next, .ok none)) (messages : List (Message Text)) :
    read coding ceiling pending (message :: messages) = read coding ceiling next messages := by
  rw [read, incoming_multipart hm, h]
  dsimp only
  cases read coding ceiling next messages with
  | error reason => rfl
  | ok r => rfl

lemma read_sendChunk (update : Bytes) (mine : ℤ) (messages : List (Message Text))
    (n index : ℕ) (h : index + n ≤ chunkCount update.length) :
    read coding ceiling (some (.of update mine index))
        ((range' index n).map (sendChunk coding update mine) ++ messages) =
      read coding ceiling (some (.of update mine (index + n))) messages := by
  induction n generalizing index with
  | zero => rfl
  | succ n ih =>
    rw [range'_succ, map_cons, cons_append, read_cons rfl (receive_sendChunk (by omega)),
      ih (index + 1) (by omega), Nat.add_right_comm, Nat.add_assoc]

/-- An update of no more chunks than the server takes arrives whole. -/
lemma read_sendUpdate {update : Bytes} (mine : ℤ) (hceiling : update.length ≤ ceiling)
    (hchunks : update.length ≤ 4096 * UPDATE_CHUNK_BYTES) :
    read coding ceiling none (sendUpdate coding update mine) = .ok (none, [update]) := by
  unfold sendUpdate
  split_ifs with hshort
  · rw [read, incoming, coding.decode_encode]
    rfl
  have hlong : UPDATE_CHUNK_BYTES < update.length := Nat.lt_of_not_le hshort
  have hsome : 1 < chunkCount update.length := by rwa [lt_chunkCount, Nat.one_mul]
  have hmany : ¬4096 < chunkCount update.length := by
    rw [lt_chunkCount]
    exact Nat.not_lt_of_le hchunks
  have hsize : ¬update.length < chunkCount update.length := by
    rw [lt_chunkCount]
    exact Nat.not_lt_of_le (Nat.le_mul_of_pos_right _ (by decide))
  have hstart : receive coding ceiling none
      (.docUpdateStart mine update.length (chunkCount update.length)) =
        (some (.of update mine 0), .ok none) := by
    dsimp only [receive, Pending.of]
    rw [if_neg, Nat.zero_mul]
    · rfl
    · simp only [Option.isSome_none, Bool.false_eq_true, false_or, not_or]
      omega
  rw [read_cons rfl hstart, range_eq_range', read_sendChunk _ _ _ _ _ (by omega), Nat.zero_add]
  have hall : update.take (chunkCount update.length * UPDATE_CHUNK_BYTES) = update :=
    take_of_length_le (Nat.le_of_not_lt fun hlt =>
      Nat.lt_irrefl _ ((lt_chunkCount _ _).2 hlt))
  rw [read, incoming_multipart rfl]
  dsimp only [receive, Pending.of]
  rw [hall, if_neg (by simp)]
  rfl

/-- The server takes no more chunks than a fixed number, however much it may hold. -/
lemma read_refused {update : Bytes} (mine : ℤ)
    (hchunks : 4096 * UPDATE_CHUNK_BYTES < update.length) :
    read coding ceiling none (sendUpdate coding update mine) = .error INVALID := by
  have hshort : ¬update.length ≤ UPDATE_CHUNK_BYTES := by
    have hpos : 0 < UPDATE_CHUNK_BYTES := by decide
    omega
  unfold sendUpdate
  rw [if_neg hshort, read, incoming_multipart rfl]
  dsimp only [receive]
  rw [if_pos (by
    rw [lt_chunkCount]
    tauto)]

/-- An update of no more chunks than the server takes arrives whole, and the assembly is ready for
the next. Of whatever messages, bytes are yielded only at the end of an update whose start and whose
chunks, in order, are the last that were not refused and have its sequence number. A reader that has
not stopped was refused nothing. No more than the ceiling is ever held. -/
theorem chunked_update_whole (coding : Coding Text) (ceiling : ℕ) :
    (∀ (update : Bytes) (mine : ℤ), update.length ≤ ceiling →
      update.length ≤ 4096 * UPDATE_CHUNK_BYTES →
        read coding ceiling none (sendUpdate coding update mine) = .ok (none, [update])) ∧
    (∀ (messages : List (Message Text)) (last : Message Text) (bytes : Bytes),
      (receive coding ceiling (after coding ceiling messages).1 last).2 = .ok (some bytes) →
        ∃ before seq texts parts, (after coding ceiling messages).2 = before ++
            .docUpdateStart seq bytes.length texts.length :: chunksOf seq texts ∧
          last = .docUpdateEnd seq ∧
          Forall₂ (fun text part => coding.decodeUpdate text = some part) texts parts ∧
          bytes = parts.flatten ∧ bytes.length ≤ ceiling) ∧
    (∀ (messages : List (Message Text)) (r : Option Pending × List Bytes),
      read coding ceiling none messages = .ok r →
        after coding ceiling messages = (r.1, messages.filter Message.multipart)) ∧
    ∀ (messages : List (Message Text)) (p : Pending),
      (after coding ceiling messages).1 = some p → p.bytes.length ≤ ceiling := by
  refine ⟨fun _ mine hceiling => read_sendUpdate mine hceiling,
    fun messages last bytes h => ?_, fun messages r h => @accepted_of_read _ _ _ (none, []) _ _ h,
    fun messages p h => ?_⟩
  · obtain ⟨p, hp, rfl, hsize, hchunks, rfl⟩ := receive_yields h
    have hheld := held_after messages p hp
    obtain ⟨before, texts, parts, haccepted, hparts, hnext, hbytes⟩ := hheld.came
    refine ⟨before, p.seq, texts, parts, ?_, rfl, hparts, hbytes, hsize.trans_le hheld.size⟩
    rw [hsize, ← hnext, hchunks]
    exact haccepted
  · have hheld := held_after messages p h
    exact hheld.bytes.trans hheld.size

/-- A chunk of another update is refused on the way, and an update of too many chunks is refused
below the ceiling. -/
theorem chunks_drift_apart :
    (replicate 2457600001 (0 : UInt8)).length ≤ 2457600001 ∧
      read plain 2457600001 none (sendUpdate plain (replicate 2457600001 0) 1) = .error INVALID ∧
      (receive plain 4 (after plain 4
        [.docUpdateStart 7 1 1, .docUpdateChunk 8 0 [5], .docUpdateChunk 7 0 [5]]).1
          (.docUpdateEnd 7)).2 = .ok (some [5]) := by
  have hlength : (replicate 2457600001 (0 : UInt8)).length = 2457600001 := length_replicate
  refine ⟨hlength.le, read_refused 1 ?_, rfl⟩
  rw [hlength]
  decide

end LibrePaper.Client.Chunks
