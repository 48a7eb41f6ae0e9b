import LibrePaper.Chat.Room

/-!
# What a listener holds

A listener that was not closed holds what still exists of its first page and of the messages since,
each once. Those are the newest that exist, where messages come in the order of their ids.
-/
namespace LibrePaper.Chat
open Library List

/-- The ids of messages. -/
def ids (rows : List ChatRecord) : List ℕ := rows.map ChatRecord.id

lemma ids_append (rows more : List ChatRecord) : ids (rows ++ more) = ids rows ++ ids more :=
  map_append

variable {stored rows : List ChatRecord} {i : ℕ}

lemma mem_insertChatMessages :
    i ∈ ids (insertChatMessages stored rows) ↔ i ∈ ids stored ∨ i ∈ ids rows := by
  unfold insertChatMessages
  rw [ids_append, mem_append]
  constructor
  · refine Or.imp_right fun h => ?_
    obtain ⟨r, hr, rfl⟩ := mem_map.1 h
    exact mem_map_of_mem (mem_of_mem_filter hr)
  · rintro (h | h)
    · exact .inl h
    · by_cases hin : i ∈ ids stored
      · exact .inl hin
      · obtain ⟨r, hr, rfl⟩ := mem_map.1 h
        exact .inr (mem_map_of_mem (mem_filter.2 ⟨hr, decide_eq_true hin⟩))

lemma nodup_insertChatMessages (hstored : (ids stored).Nodup) (hrows : (ids rows).Nodup) :
    (ids (insertChatMessages stored rows)).Nodup := by
  unfold insertChatMessages
  rw [ids_append, nodup_append']
  refine ⟨hstored, hrows.sublist (filter_sublist.map _), fun i hi hnew => ?_⟩
  obtain ⟨r, hr, rfl⟩ := mem_map.1 hnew
  have hfresh := of_mem_filter hr
  exact of_decide_eq_true hfresh hi

namespace Room

/-- The messages that exist: stored or waiting. -/
def Exists (s : Room) (i : ℕ) : Prop := i ∈ ids s.stored ∨ i ∈ ids s.buffer

/-- A listener whose hello had a page and whose socket was not closed. -/
def Hears (s : Room) (c : ℕ) (l : Listener) : Prop :=
  l ∈ s.listeners c ∧ l.paged = true ∧ l.closed = false

/-- A listener holds what exists of its page and of the messages since, each once. -/
def Exact (s : Room) (l : Listener) : Prop :=
  (ids l.held).Nodup ∧ ∀ i, i ∈ ids l.held ↔
    s.Exists i ∧ (i ∈ l.page ∨ i ∈ s.accepted.drop l.since)

/-- What a listener does not hold is older than all that it holds. -/
def Newest (s : Room) (l : Listener) : Prop :=
  ∀ i, s.Exists i → i ∉ ids l.held → ∀ j ∈ ids l.held, i < j

structure Inv (s : Room) : Prop where
  stored : (ids s.stored).Nodup
  buffer : (ids s.buffer).Nodup
  accepted : ∀ i, s.Exists i → i ∈ s.accepted
  since : ∀ c, ∀ l ∈ s.listeners c, l.since ≤ s.accepted.length
  heard : ∀ c l, s.Hears c l → s.Exact l

variable {refused : List ℕ} {f : List ChatRecord → List ChatRecord} {c : ℕ} {l : Listener}
  {s t : Room} {record : ChatRecord} {o : Op}

lemma send_eq (h : (send refused f c l).closed = false) :
    l.closed = false ∧ send refused f c l = { l with held := f l.held } := by
  unfold send at h ⊢
  split_ifs at h ⊢
  exact ⟨h, rfl⟩

lemma send_since (refused : List ℕ) (f : List ChatRecord → List ChatRecord) (c : ℕ)
    (l : Listener) : (send refused f c l).since = l.since := by
  unfold send
  split_ifs <;> rfl

/-- A message goes to every listener: to its sender as an echo. -/
lemma listeners_echo_broadcast (s : Room) (sender : ℕ) (refused : List ℕ)
    (f : List ChatRecord → List ChatRecord) (c : ℕ) :
    ((s.broadcastChat (some sender) refused f).echoChat sender refused f).listeners c =
      (s.listeners c).map (send refused f c) := by
  unfold echoChat broadcastChat
  simp only [Function.update_apply]
  by_cases hc : c = sender
  · rw [if_pos hc, if_pos trivial, hc]
  · rw [if_neg hc, if_neg fun h => hc (Option.some_inj.1 h).symm]

/-- A listener that a frame reached. -/
lemma hears_of_send (hlisteners : t.listeners c = (s.listeners c).map (send refused f c))
    (h : t.Hears c l) : ∃ k, s.Hears c k ∧ l = { k with held := f k.held } := by
  obtain ⟨hl, hpaged, hclosed⟩ := h
  rw [hlisteners] at hl
  obtain ⟨k, hk, rfl⟩ := Option.map_eq_some_iff.1 hl
  obtain ⟨hopen, hsend⟩ := send_eq hclosed
  rw [hsend] at hpaged ⊢
  exact ⟨k, ⟨hk, hpaged, hopen⟩, rfl⟩

lemma exists_writeChat (s : Room) (w : Written) (i : ℕ) :
    (s.writeChat w).Exists i ↔ s.Exists i := by
  cases w with
  | ok =>
    show i ∈ ids (insertChatMessages _ _) ∨ i ∈ ids [] ↔ _
    rw [mem_insertChatMessages]
    exact or_iff_left not_mem_nil
  | failed => exact Iff.rfl
  | lost =>
    show i ∈ ids (insertChatMessages _ _) ∨ i ∈ ids s.buffer ↔ _
    rw [mem_insertChatMessages, or_assoc, or_self]
    exact Iff.rfl

lemma accepted_writeChat (s : Room) (w : Written) : (s.writeChat w).accepted = s.accepted := by
  cases w <;> rfl

lemma listeners_writeChat (s : Room) (w : Written) :
    (s.writeChat w).listeners = s.listeners := by
  cases w <;> rfl

/-- A state with the same messages and the same listeners. -/
lemma Inv.of_same (hs : s.Inv) (hstored : (ids t.stored).Nodup) (hbuffer : (ids t.buffer).Nodup)
    (hexists : ∀ i, t.Exists i ↔ s.Exists i) (haccepted : t.accepted = s.accepted)
    (hlisteners : t.listeners = s.listeners) : t.Inv where
  stored := hstored
  buffer := hbuffer
  accepted i hi := haccepted ▸ hs.accepted i ((hexists i).1 hi)
  since c l hl := by
    rw [hlisteners] at hl
    rw [haccepted]
    exact hs.since c l hl
  heard c l hl := by
    unfold Hears at hl
    rw [hlisteners] at hl
    refine ⟨(hs.heard c l hl).1, fun i => ?_⟩
    rw [hexists, haccepted]
    exact (hs.heard c l hl).2 i

lemma Inv.writeChat (hs : s.Inv) (w : Written) : (s.writeChat w).Inv := by
  refine hs.of_same ?_ ?_ (s.exists_writeChat w) (s.accepted_writeChat w) (s.listeners_writeChat w)
  · cases w with
    | failed => exact hs.stored
    | ok | lost => exact nodup_insertChatMessages hs.stored hs.buffer
  · cases w with
    | ok => exact nodup_nil
    | failed | lost => exact hs.buffer

lemma enqueueChat_cases (s : Room) (sender : ℕ) (record : ChatRecord) (reserved : Bool)
    (refused : List ℕ) (w : Written) :
    s.enqueueChat sender record reserved refused w = s ∨
      s.enqueueChat sender record reserved refused w = s.accept sender record refused ∨
      s.enqueueChat sender record reserved refused w =
        (s.accept sender record refused).writeChat w := by
  unfold enqueueChat
  by_cases hfull : chatBufferMaxRows ≤ s.buffer.length
  · exact .inl (if_pos hfull)
  · by_cases hreserved : reserved = false
    · rw [if_neg hfull, if_pos hreserved]
      exact .inl rfl
    · rw [if_neg hfull, if_neg hreserved]
      right
      simp only
      split_ifs
      · exact .inr rfl
      · exact .inl rfl

lemma exists_accept {sender : ℕ} :
    (s.accept sender record refused).Exists i ↔ s.Exists i ∨ i = record.id := by
  show i ∈ ids s.stored ∨ i ∈ ids (s.buffer ++ [record]) ↔ _
  rw [ids_append, mem_append, ← or_assoc]
  exact or_congr_right mem_singleton

lemma listeners_accept (s : Room) (sender : ℕ) (record : ChatRecord) (refused : List ℕ)
    (c : ℕ) : (s.accept sender record refused).listeners c =
      (s.listeners c).map (send refused (· ++ [record]) c) :=
  listeners_echo_broadcast _ sender refused _ c

lemma Inv.accept (hs : s.Inv) (sender : ℕ) (refused : List ℕ) (hfresh : record.id ∉ s.accepted) :
    (s.accept sender record refused).Inv := by
  have hnew : ¬s.Exists record.id := fun h => hfresh (hs.accepted _ h)
  constructor
  · exact hs.stored
  · show (ids (s.buffer ++ [record])).Nodup
    rw [ids_append, nodup_append']
    refine ⟨hs.buffer, nodup_singleton _, fun i hi hsame => ?_⟩
    rw [mem_singleton.1 hsame] at hi
    exact hnew (.inr hi)
  · intro i hi
    show i ∈ s.accepted ++ [record.id]
    rw [mem_append, mem_singleton]
    exact (exists_accept.1 hi).imp_left (hs.accepted i)
  · intro c l hl
    rw [listeners_accept] at hl
    obtain ⟨k, hk, rfl⟩ := Option.map_eq_some_iff.1 hl
    rw [send_since]
    show k.since ≤ (s.accepted ++ [record.id]).length
    rw [length_append]
    exact (hs.since c k hk).trans (Nat.le_add_right _ _)
  · intro c l hl
    obtain ⟨k, hk, rfl⟩ := hears_of_send (listeners_accept s sender record refused c) hl
    obtain ⟨hnodup, hmem⟩ := hs.heard c k hk
    have hsince := hs.since c k hk.1
    refine ⟨?_, fun i => ?_⟩
    · show (ids (k.held ++ [record])).Nodup
      rw [ids_append, nodup_append']
      refine ⟨hnodup, nodup_singleton _, fun i hi hsame => ?_⟩
      rw [mem_singleton.1 hsame] at hi
      exact hnew ((hmem _).1 hi).1
    · show i ∈ ids (k.held ++ [record]) ↔
        _ ∧ (i ∈ k.page ∨ i ∈ (s.accepted ++ [record.id]).drop k.since)
      rw [ids_append, mem_append, hmem, exists_accept, drop_append_of_le_length hsince, mem_append]
      have hlast : i ∈ ids [record] ↔ i = record.id := mem_singleton
      have hlast' : i ∈ [record.id] ↔ i = record.id := mem_singleton
      rw [hlast, hlast']
      by_cases hi : i = record.id
      · simp [hi]
      · simp [hi]

lemma Inv.clearChat (hs : s.Inv) (refused : List ℕ) : (s.clearChat refused).Inv := by
  have hnone : ∀ i, ¬(s.clearChat refused).Exists i := by
    intro i hi
    exact hi.elim not_mem_nil not_mem_nil
  constructor
  · exact nodup_nil
  · exact nodup_nil
  · exact fun i hi => absurd hi (hnone i)
  · intro c l hl
    obtain ⟨k, hk, rfl⟩ := Option.map_eq_some_iff.1 hl
    rw [send_since]
    exact hs.since c k hk
  · intro c l hl
    obtain ⟨k, -, rfl⟩ := hears_of_send (s := s) rfl hl
    refine ⟨nodup_nil, fun i => ?_⟩
    constructor
    · exact fun h => absurd h not_mem_nil
    · exact fun h => absurd h.1 (hnone i)

/-- The page of a hello is the newest of what exists. -/
lemma Inv.page (hs : s.Inv) (before : Option ℕ) (limit : ℤ) :
    let page := pageLocked s.stored s.buffer before limit
    IsNewest limit.toNat (idsOlder s.stored before ∪ idsOlder s.buffer before) (ids page.1) ∧
      (page.2 = true ↔ ∃ i ∈ idsOlder s.stored before ∪ idsOlder s.buffer before,
        i ∉ ids page.1) := by
  obtain ⟨hnewest, -, hmore⟩ := page_is_newest hs.stored s.buffer before limit
  exact ⟨hnewest, hmore⟩

lemma mem_older_none : i ∈ idsOlder s.stored none ∪ idsOlder s.buffer none ↔ s.Exists i := by
  rw [Finset.mem_union, mem_idsOlder, mem_idsOlder]
  unfold Exists ids
  rw [mem_map, mem_map]
  simp [older]

lemma Inv.hello (hs : s.Inv) (c : ℕ) (limit : ℤ) (read queued : Bool) :
    (s.sendHelloWithChat c limit read queued).Inv := by
  have hlisteners : ∀ c' l, l ∈ (s.sendHelloWithChat c limit read queued).listeners c' →
      l ∈ s.listeners c' ∨ l.since = s.accepted.length ∧ ids l.held = l.page ∧
        (l.paged = true → l.held = (pageLocked s.stored s.buffer none limit).1) := by
    intro c' l hl
    simp only [sendHelloWithChat, Function.update_apply] at hl
    by_cases hc : c' = c
    · rw [if_pos hc] at hl
      cases hl
      refine .inr ⟨rfl, rfl, fun h => ?_⟩
      have hread : read = true := h
      exact if_pos hread
    · rw [if_neg hc] at hl
      exact .inl hl
  constructor
  · exact hs.stored
  · exact hs.buffer
  · exact hs.accepted
  · intro c' l hl
    obtain hl | ⟨hsince, -⟩ := hlisteners c' l hl
    · exact hs.since c' l hl
    · rw [hsince]
      exact le_rfl
  · rintro c' l ⟨hl, hpaged, hclosed⟩
    obtain hl | ⟨hsince, hpage, hheld⟩ := hlisteners c' l hl
    · exact hs.heard c' l ⟨hl, hpaged, hclosed⟩
    · obtain ⟨hnewest, -⟩ := hs.page none limit
      rw [← hheld hpaged] at hnewest
      refine ⟨hnewest.nodup, fun i => ?_⟩
      show _ ↔ s.Exists i ∧ (i ∈ l.page ∨ i ∈ s.accepted.drop l.since)
      rw [hsince, drop_length, hpage]
      constructor
      · exact fun hi => ⟨mem_older_none.1 (hnewest.sub i (hpage ▸ hi)), .inl hi⟩
      · exact fun hi => hi.2.resolve_right not_mem_nil

lemma Inv.disconnect (hs : s.Inv) (c : ℕ) :
    Inv { s with listeners := Function.update s.listeners c none } := by
  have hsub : ∀ c' l, l ∈ Function.update s.listeners c none c' → l ∈ s.listeners c' := by
    intro c' l hl
    rw [Function.update_apply] at hl
    by_cases hc : c' = c
    · rw [if_pos hc] at hl
      cases hl
    · rw [if_neg hc] at hl
      exact hl
  exact ⟨hs.stored, hs.buffer, hs.accepted, fun c' l hl => hs.since c' l (hsub c' l hl),
    fun c' l hl => hs.heard c' l ⟨hsub c' l hl.1, hl.2⟩⟩

lemma Inv.step (hs : s.Inv) (h : s.step o = some t) : t.Inv := by
  cases o with
  | hello c limit read queued =>
    simp only [Room.step] at h
    split_ifs at h
    cases h
    exact hs.hello c limit read queued
  | enqueue sender record reserved refused w =>
    simp only [Room.step] at h
    split_ifs at h with hfresh
    cases h
    obtain h | h | h := s.enqueueChat_cases sender record reserved refused w
    · rw [h]
      exact hs
    · rw [h]
      exact hs.accept sender refused hfresh
    · rw [h]
      exact (hs.accept sender refused hfresh).writeChat w
  | flush w =>
    cases h
    unfold flushChat
    split_ifs
    · exact hs
    · exact hs.writeChat w
  | clear acknowledged refused =>
    cases h
    split_ifs
    · exact hs.clearChat refused
    · exact hs
  | disconnect c =>
    cases h
    exact hs.disconnect c

lemma inv_start (h : (ids stored).Nodup) : (start stored).Inv where
  stored := h
  buffer := nodup_nil
  accepted i hi := hi.elim id fun h => absurd h not_mem_nil
  since c l hl := by cases hl
  heard c l hl := by cases hl.1

/-- A message is enqueued with an id above all ids before. -/
def InOrder (s : Room) (o : Op) : Prop :=
  ∀ sender record reserved refused w, o = .enqueue sender record reserved refused w →
    ∀ i ∈ s.accepted, i < record.id

/-- Every listener holds the newest of what exists. -/
def AllNewest (s : Room) : Prop := ∀ c l, s.Hears c l → s.Newest l

lemma AllNewest.writeChat (hs : s.AllNewest) (w : Written) : (s.writeChat w).AllNewest := by
  intro c l hl i hi
  unfold Hears at hl
  rw [listeners_writeChat] at hl
  exact hs c l hl i ((s.exists_writeChat w i).1 hi)

lemma AllNewest.accept (hs : s.AllNewest) (hinv : s.Inv) (sender : ℕ) (refused : List ℕ)
    (horder : ∀ i ∈ s.accepted, i < record.id) : (s.accept sender record refused).AllNewest := by
  intro c l hl i hi hne j hj
  obtain ⟨k, hk, rfl⟩ := hears_of_send (listeners_accept s sender record refused c) hl
  have hheld : ∀ j, j ∈ ids (k.held ++ [record]) ↔ j ∈ ids k.held ∨ j = record.id := by
    intro j
    rw [ids_append, mem_append]
    exact or_congr_right mem_singleton
  have hout := mt (hheld i).2 hne
  have hold : s.Exists i := (exists_accept.1 hi).resolve_right fun h => hout (.inr h)
  obtain hj | rfl := (hheld j).1 hj
  · exact hs c k hk i hold (fun h => hout (.inl h)) j hj
  · exact horder i (hinv.accepted i hold)

lemma AllNewest.step (hs : s.AllNewest) (hinv : s.Inv) (ho : s.InOrder o)
    (h : s.step o = some t) : t.AllNewest := by
  cases o with
  | hello c limit read queued =>
    simp only [Room.step] at h
    split_ifs at h
    cases h
    rintro c' l ⟨hl, hpaged, hclosed⟩
    simp only [sendHelloWithChat, Function.update_apply] at hl
    by_cases hc : c' = c
    · rw [if_pos hc] at hl
      cases hl
      have hread : read = true := hpaged
      obtain ⟨hnewest, -⟩ := hinv.page none limit
      intro i hi
      simp only [if_pos hread]
      exact hnewest.above i (mem_older_none.2 hi)
    · rw [if_neg hc] at hl
      exact hs c' l ⟨hl, hpaged, hclosed⟩
  | enqueue sender record reserved refused w =>
    simp only [Room.step] at h
    split_ifs at h
    cases h
    have haccept := hs.accept hinv sender refused (ho _ _ _ _ _ rfl)
    obtain h | h | h := s.enqueueChat_cases sender record reserved refused w
    · rw [h]
      exact hs
    · rw [h]
      exact haccept
    · rw [h]
      exact haccept.writeChat w
  | flush w =>
    cases h
    unfold flushChat
    split_ifs
    · exact hs
    · exact hs.writeChat w
  | clear acknowledged refused =>
    cases h
    split_ifs
    · exact fun c l _ i hi => (hi.elim not_mem_nil not_mem_nil).elim
    · exact hs
  | disconnect c =>
    cases h
    rintro c' l ⟨hl, hopen⟩
    simp only [Function.update_apply] at hl
    by_cases hc : c' = c
    · rw [if_pos hc] at hl
      cases hl
    · rw [if_neg hc] at hl
      exact hs c' l ⟨hl, hopen⟩

/-- A listener holds what exists of its page and of the messages since, each once; that is the
newest where messages come in the order of their ids; and every page has the newest of what
exists before a position, each once, and tells whether there is more. -/
theorem listeners_view_is_exact {stored : List ChatRecord} (hstored : (ids stored).Nodup) :
    (∀ l s, Run step anyStep (start stored) l s →
      (∀ c listener, s.Hears c listener → s.Exact listener) ∧
      ∀ before limit, let page := pageLocked s.stored s.buffer before limit
        let all := idsOlder s.stored before ∪ idsOlder s.buffer before
        IsNewest limit.toNat all (ids page.1) ∧ (page.2 = true ↔ ∃ i ∈ all, i ∉ ids page.1)) ∧
    ∀ l s, Run step InOrder (start stored) l s →
      ∀ c listener, s.Hears c listener → s.Newest listener := by
  constructor
  · intro l s h
    have hs : s.Inv := Run.invariant (I := Inv) (fun _ _ _ hs _ => hs.step) h
      (inv_start hstored)
    exact ⟨hs.heard, hs.page⟩
  · intro l s h
    have hs : s.Inv ∧ s.AllNewest := by
      refine Run.invariant (I := fun s => s.Inv ∧ s.AllNewest) ?_ h ⟨inv_start hstored, ?_⟩
      · exact fun _ _ _ hs ho h => ⟨hs.1.step h, hs.2.step hs.1 ho h⟩
      · exact fun _ _ hl => by cases hl.1
    exact hs.2

/-- A message that waits twice over, in the store and in the buffer, is held once. -/
theorem held_once_after_a_lost_reply : ∃ s, Run step anyStep (start [])
    [.enqueue 2 ⟨1, none, "A", "text", 0⟩ true [] .ok, .flush .lost, .hello 1 50 true true] s ∧
    ∃ listener, s.Hears 1 listener ∧ s.Exact listener := by
  obtain ⟨s, hrun, l, hl⟩ : ∃ s, Run step anyStep (start [])
      [.enqueue 2 ⟨1, none, "A", "text", 0⟩ true [] .ok, .flush .lost, .hello 1 50 true true] s ∧
      ∃ listener, s.Hears 1 listener :=
    ⟨_, .cons trivial rfl (.cons trivial rfl (.cons trivial rfl (.nil _))), _, rfl, rfl, rfl⟩
  have hnone : (ids []).Nodup := nodup_nil
  exact ⟨s, hrun, l, hl, ((listeners_view_is_exact hnone).1 _ s hrun).1 1 l hl⟩

/-- A message with the id of an earlier time comes to a listener whose page is full. -/
theorem late_message_is_not_the_newest : ¬∀ stored, (ids stored).Nodup →
    ∀ l s, Run step anyStep (start stored) l s →
      ∀ c listener, s.Hears c listener → s.Newest listener := by
  intro h
  let m (i : ℕ) : ChatRecord := ⟨i, none, "A", "text", 0⟩
  obtain ⟨s, hrun, hl, hexists⟩ : ∃ s, Run step anyStep (start [m 2, m 3])
      [.hello 1 1 true true, .enqueue 2 (m 1) true [] .ok] s ∧
      s.Hears 1 ⟨[m 3, m 1], true, false, [3], 2⟩ ∧ s.Exists 2 :=
    ⟨_, .cons trivial rfl (.cons trivial rfl (.nil _)), ⟨rfl, rfl, rfl⟩, .inl (mem_cons_self ..)⟩
  have hlt := h _ (by decide) _ _ hrun 1 _ hl 2 hexists (by decide) 1 (by decide)
  exact absurd hlt (by decide)

end Room
end LibrePaper.Chat
