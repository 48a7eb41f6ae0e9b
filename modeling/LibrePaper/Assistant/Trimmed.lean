import LibrePaper.Assistant.Journal
import LibrePaper.Library.Fallible

/-!
# What the journal keeps

An event that is taken out belongs to no operation that is pending, so the operations that are
pending are those of the whole history. The bytes of the file are bounded as well, and nothing makes
room for them.
-/
namespace LibrePaper.Assistant.Journal
open Library List Finmap

section Latest
variable {events trimmed : List Event} {e : Event} {key : Key}

lemma latest_concat (events : List Event) (e : Event) :
    latest (events ++ [e]) = match eventKey e with
      | none => latest events
      | some key => (latest events).insert key (resolved e) := by
  unfold latest
  rw [foldl_append]
  rfl

/-- The events of one operation. -/
def eventsOf (key : Key) (events : List Event) : List Event :=
  events.filter fun e => eventKey e = some key

lemma lookup_latest (events : List Event) (key : Key) :
    (latest events).lookup key = (eventsOf key events).getLast?.map resolved := by
  induction events using reverseRecOn with
  | nil => exact lookup_empty key
  | append_singleton events e ih =>
    rw [latest_concat, eventsOf, filter_append]
    cases hkey : eventKey e with
    | none =>
      rw [filter_cons_of_neg (by rw [hkey]; simp), filter_nil, append_nil]
      exact ih
    | some key' =>
      by_cases heq : key' = key
      · subst heq
        rw [filter_cons_of_pos (by rw [hkey]; simp), filter_nil, getLast?_concat]
        exact lookup_insert _
      · rw [filter_cons_of_neg (by rw [hkey]; simpa using heq), filter_nil,
          append_nil]
        exact (lookup_insert_of_ne _ (Ne.symm heq)).trans ih

lemma mem_unresolvedKeys :
    key ∈ unresolvedKeys events ↔ (latest events).lookup key = some false := by
  unfold unresolvedKeys
  rw [mem_filter, mem_sortedKeys, decide_eq_true_iff, and_iff_right_iff_imp]
  exact mem_of_lookup_eq_some

lemma settled_iff : settled events e = true ↔
    ∀ key, eventKey e = some key → (latest events).lookup key ≠ some false := by
  unfold settled
  cases eventKey e with
  | none => exact iff_of_true rfl nofun
  | some key =>
    rw [Option.all_some, decide_eq_true_iff, mem_unresolvedKeys]
    exact ⟨fun h key' hkey => Option.some.inj hkey ▸ h, fun h => h key rfl⟩

/-- Trimmed events tell as much of each operation, or nothing of one that is resolved. -/
def Agrees (trimmed events : List Event) : Prop :=
  ∀ key, (latest trimmed).lookup key = (latest events).lookup key ∨
    ((latest trimmed).lookup key = none ∧ (latest events).lookup key = some true)

lemma Agrees.trans {between : List Event} (h : Agrees trimmed between)
    (h' : Agrees between events) : Agrees trimmed events := by
  intro key
  obtain heq | ⟨hnone, htrue⟩ := h key
  · rw [heq]
    exact h' key
  · obtain heq' | ⟨hnone', _⟩ := h' key
    · exact .inr ⟨hnone, heq'.symm.trans htrue⟩
    · rw [hnone'] at htrue
      cases htrue

lemma Agrees.concat (h : Agrees trimmed events) (e : Event) :
    Agrees (trimmed ++ [e]) (events ++ [e]) := by
  intro key
  rw [latest_concat, latest_concat]
  cases eventKey e with
  | none => exact h key
  | some key' =>
    by_cases heq : key = key'
    · subst heq
      have hput : ∀ table : Finmap fun _ : Key => Bool,
          (table.insert key (resolved e)).lookup key = some (resolved e) :=
        fun table => lookup_insert _
      dsimp only
      rw [hput, hput]
      exact .inl rfl
    · have hskip : ∀ table : Finmap fun _ : Key => Bool,
          (table.insert key' (resolved e)).lookup key = table.lookup key :=
        fun table => lookup_insert_of_ne _ heq
      dsimp only
      rw [hskip, hskip]
      exact h key

/-- The same operations are pending. -/
lemma Agrees.pending (h : Agrees trimmed events) :
    pendingOperations trimmed = pendingOperations events := by
  unfold pendingOperations unresolvedKeys
  congr 1
  refine filter_sortedKeys_congr fun key => ?_
  have hmem : ∀ table : Finmap fun _ : Key => Bool,
      key ∈ table ∧ decide (table.lookup key = some false) = true ↔
        table.lookup key = some false := by
    intro table
    rw [decide_eq_true_iff, and_iff_right_iff_imp]
    exact mem_of_lookup_eq_some
  rw [hmem, hmem]
  obtain heq | ⟨hnone, htrue⟩ := h key
  · rw [heq]
  · rw [hnone, htrue]
    exact iff_of_false nofun nofun

/-- The first settled event is the first of its operation. -/
lemma agrees_erase {before after : List Event} (hevents : events = before ++ e :: after)
    (he : settled events e = true) (hbefore : ∀ x ∈ before, settled events x = false) :
    Agrees (before ++ after) events := by
  intro key
  rw [lookup_latest, lookup_latest]
  have hwhole : eventsOf key events =
      eventsOf key before ++ eventsOf key (e :: after) := by
    rw [hevents]
    exact filter_append ..
  have hless : eventsOf key (before ++ after) = eventsOf key before ++ eventsOf key after :=
    filter_append ..
  by_cases hkey : eventKey e = some key
  · have hnone : eventsOf key before = [] := by
      refine filter_eq_nil_iff.2 fun x hx hkey' => ?_
      have hxkey : eventKey x = some key := by simpa using hkey'
      have hx' := hbefore x hx
      unfold settled at he hx'
      rw [hkey] at he
      rw [hxkey, he] at hx'
      cases hx'
    have hcons : eventsOf key (e :: after) = e :: eventsOf key after :=
      filter_cons_of_pos (by simpa using hkey)
    rw [hwhole, hless, hnone, hcons, nil_append, nil_append]
    cases hafter : eventsOf key after with
    | nil =>
      right
      have hsettled := settled_iff.1 he key hkey
      rw [lookup_latest, hwhole, hnone, hcons, hafter] at hsettled
      refine ⟨rfl, ?_⟩
      change some (resolved e) ≠ some false at hsettled
      change some (resolved e) = some true
      cases hresolved : resolved e with
      | true => rfl
      | false =>
        rw [hresolved] at hsettled
        exact absurd rfl hsettled
    | cons x rest =>
      left
      rw [getLast?_cons_cons]
  · left
    have hcons : eventsOf key (e :: after) = eventsOf key after :=
      filter_cons_of_neg (by simpa using hkey)
    rw [hwhole, hless, hcons]

/-- Where a settled event is found. -/
lemma findIdx_split {p : Event → Bool} {i : ℕ} (h : events.findIdx? p = some i) :
    ∃ before e after, events = before ++ e :: after ∧ p e = true ∧
      (∀ x ∈ before, p x = false) ∧ events.eraseIdx i = before ++ after := by
  obtain ⟨hi, hp, hbefore⟩ := findIdx?_eq_some_iff_getElem.1 h
  refine ⟨events.take i, events[i], events.drop (i + 1), ?_, hp, ?_, ?_⟩
  · rw [cons_getElem_drop_succ, take_append_drop]
  · intro x hx
    obtain ⟨j, hj, rfl⟩ := mem_take_iff_getElem.1 hx
    simpa using hbefore j (by omega)
  · exact eraseIdx_eq_take_drop_succ _ _

variable {fuel : ℕ}

lemma trim_agrees (h : trim fuel events = .ok trimmed) : Agrees trimmed events := by
  induction fuel generalizing events with
  | zero =>
    cases h
    exact fun _ => .inl rfl
  | succ fuel ih =>
    unfold trim at h
    split at h
    · cases h
      exact fun _ => .inl rfl
    · cases hfind : events.findIdx? (settled events) with
      | none =>
        rw [hfind] at h
        cases h
      | some i =>
        rw [hfind] at h
        obtain ⟨before, e, after, hevents, he, hbefore, herase⟩ := findIdx_split hfind
        refine (ih h).trans ?_
        rw [herase]
        exact agrees_erase hevents he hbefore

lemma trim_length (hfuel : events.length ≤ fuel) (h : trim fuel events = .ok trimmed) :
    trimmed.length ≤ MAX_EVENTS := by
  induction fuel generalizing events with
  | zero =>
    cases h
    exact hfuel.trans (Nat.zero_le _)
  | succ fuel ih =>
    unfold trim at h
    split at h
    next hle =>
      cases h
      exact hle
    next hlt =>
      cases hfind : events.findIdx? (settled events) with
      | none =>
        rw [hfind] at h
        cases h
      | some i =>
        rw [hfind] at h
        obtain ⟨hi, _⟩ := findIdx?_eq_some_iff_getElem.1 hfind
        refine ih ?_ h
        rw [length_eraseIdx_of_lt hi]
        omega

end Latest

section Append
variable {digest : Bytes → Bytes} {file file' : Option Disk} {r : Request} {seq : ℕ}

/-- The events of the file. -/
def disk (file : Option Disk) : Disk := file.getD .empty

/-- A file that an append leaves. -/
def Sound (file : Option Disk) : Prop :=
  ∀ d, file = some d → d.size ≤ MAX_BYTES ∧ d.events.length ≤ MAX_EVENTS

lemma Sound.read (h : Sound file) : read file = .ok (disk file) := by
  cases file with
  | none => rfl
  | some d =>
    obtain ⟨hsize, hlength⟩ := h d rfl
    unfold Journal.read
    dsimp only
    rw [if_neg (Nat.not_lt.2 hsize), if_neg (Nat.not_lt.2 hlength)]
    rfl

/-- The events with the new one, before any is taken out. -/
def pushed (digest : Bytes → Bytes) (file : Option Disk) (r : Request) : List Event :=
  (disk file).events ++ [r.event digest (disk file).seq]

/-- An append is refused and changes nothing, or makes room in the events, whose file is small
enough. -/
lemma append_cases (h : Sound file) (hfields : checkFields r = none) :
    ((∃ error, append digest file r = (.error error, file)) ∧
      ∀ events, trim (pushed digest file r).length (pushed digest file r) = .ok events →
        MAX_BYTES < Disk.size ⟨(disk file).seq, events⟩) ∨
    ∃ events, trim (pushed digest file r).length (pushed digest file r) = .ok events ∧
      Disk.size ⟨(disk file).seq, events⟩ ≤ MAX_BYTES ∧
      append digest file r = (.ok (disk file).seq, some ⟨(disk file).seq, events⟩) := by
  have hpush : push digest r (disk file) =
      trim (pushed digest file r).length (pushed digest file r) >>= fun events =>
        .ok ((disk file).seq, ⟨(disk file).seq, events⟩) := rfl
  have hupdate : update file (push digest r) = push digest r (disk file) >>= fun pair =>
      write pair.2 >>= fun d => .ok (pair.1, d) := by
    unfold update
    rw [h.read, ok_bind]
  rw [hpush] at hupdate
  cases htrim : trim (pushed digest file r).length (pushed digest file r) with
  | error error =>
    left
    refine ⟨⟨error, ?_⟩, fun events hevents => nomatch hevents⟩
    rw [htrim] at hupdate
    unfold append
    rw [hfields, hupdate]
    rfl
  | ok events =>
    rw [htrim, ok_bind, ok_bind] at hupdate
    by_cases hsize : MAX_BYTES < Disk.size ⟨(disk file).seq, events⟩
    · left
      refine ⟨⟨"runner journal exceeds its size limit", ?_⟩, fun events' hevents => ?_⟩
      · unfold write at hupdate
        rw [if_pos hsize] at hupdate
        unfold append
        rw [hfields, hupdate]
        rfl
      · cases hevents
        exact hsize
    · right
      have hlength := trim_length le_rfl htrim
      refine ⟨events, rfl, Nat.le_of_not_lt hsize, ?_⟩
      have hread : Journal.read (some ⟨(disk file).seq, events⟩) =
          .ok ⟨(disk file).seq, events⟩ := by
        unfold Journal.read
        dsimp only
        rw [if_neg hsize, if_neg (Nat.not_lt.2 hlength)]
      unfold write at hupdate
      rw [if_neg hsize, ok_bind] at hupdate
      unfold append
      rw [hfields, hupdate]
      dsimp only
      rw [hread]

end Append

/-- What holds of every journal. -/
structure State.Inv (s : State) : Prop where
  sound : Sound s.file
  agrees : Agrees s.stored s.history

lemma stored_eq (s : State) : s.stored = (disk s.file).events := by
  unfold State.stored disk
  cases s.file <;> rfl

lemma inv_step (digest : Bytes → Bytes) {s : State} (hs : s.Inv) (r : Request) :
    (s.step digest r).Inv := by
  cases hfields : checkFields r with
  | some error =>
    have hstep : s.step digest r = s := by
      unfold State.step append
      rw [hfields]
    rw [hstep]
    exact hs
  | none =>
    obtain ⟨⟨error, happend⟩, _⟩ | ⟨events, htrim, hsize, happend⟩ := append_cases hs.sound hfields
    · have hstep : s.step digest r = s := by
        unfold State.step
        rw [happend]
      rw [hstep]
      exact hs
    · have hstep : s.step digest r = ⟨some ⟨(disk s.file).seq, events⟩,
          s.history ++ [r.event digest (disk s.file).seq]⟩ := by
        unfold State.step
        rw [happend]
      rw [hstep]
      constructor
      · intro d hd
        cases hd
        exact ⟨hsize, trim_length le_rfl htrim⟩
      · have hagrees := hs.agrees.concat (r.event digest (disk s.file).seq)
        rw [stored_eq] at hagrees
        exact (trim_agrees htrim).trans hagrees

lemma inv_run (digest : Bytes → Bytes) (requests : List Request) : (run digest requests).Inv := by
  unfold run
  induction requests using reverseRecOn with
  | nil => exact ⟨fun _ hd => (nomatch hd), fun _ => .inl rfl⟩
  | append_singleton requests r ih =>
    rw [foldl_append]
    exact inv_step digest ih r

/-- The events of unresolved operations, with the new event, would fit alone. -/
def UnresolvedFit (digest : Bytes → Bytes) (file : Option Disk) (r : Request) : Prop :=
  let events := pushed digest file r
  let unresolved := events.filter fun e => !settled events e
  unresolved.length ≤ MAX_EVENTS ∧ Disk.size ⟨(disk file).seq, unresolved⟩ ≤ MAX_BYTES

/-- The events less the first settled one when they are too many. -/
def kept (events : List Event) : List Event :=
  if events.length ≤ MAX_EVENTS then events else events.eraseP (settled events)

variable {events : List Event} {n : ℕ}

lemma trim_of_few {fuel : ℕ} (h : events.length ≤ MAX_EVENTS) :
    trim fuel events = .ok events := by
  cases fuel with
  | zero => rfl
  | succ fuel => exact if_pos h

lemma trim_kept (hlength : events.length ≤ MAX_EVENTS + 1)
    (h : (events.filter fun e => !settled events e).length ≤ MAX_EVENTS) :
    trim events.length events = .ok (kept events) := by
  by_cases hfew : events.length ≤ MAX_EVENTS
  · rw [trim_of_few hfew, kept, if_pos hfew]
  · obtain ⟨e, he, hsettled⟩ : ∃ e ∈ events, settled events e = true := by
      by_contra hnone
      push Not at hnone
      have hall : events.filter (fun e => !settled events e) = events :=
        filter_eq_self.2 fun e he => by simpa using hnone e he
      rw [hall] at h
      exact hfew h
    obtain ⟨i, hi⟩ : ∃ i, events.findIdx? (settled events) = some i := by
      rw [← Option.isSome_iff_exists, findIdx?_isSome]
      exact any_eq_true.2 ⟨e, he, hsettled⟩
    obtain ⟨hlt, _⟩ := findIdx?_eq_some_iff_getElem.1 hi
    obtain ⟨fuel, hfuel⟩ : ∃ fuel, events.length = fuel + 1 := ⟨events.length - 1, by omega⟩
    have herase : (events.eraseIdx i).length ≤ MAX_EVENTS := by
      rw [length_eraseIdx_of_lt hlt]
      omega
    have hkept : kept events = events.eraseIdx i := by
      obtain ⟨before, x, after, hevents, hx, hbefore, heq⟩ := findIdx_split hi
      rw [heq, kept, if_neg hfew]
      generalize settled events = p at hx hbefore
      rw [hevents, eraseP_append_right _ (fun y hy => by simpa using hbefore y hy),
        eraseP_cons_of_pos hx]
    rw [hfuel, trim, if_neg hfew, hi, hkept]
    exact trim_of_few herase

/-- What is pending in the file is what is pending in the whole history. An append within the
limits of the fields succeeds, where the events of unresolved operations would fit alone, exactly
when all events fit but for the one that makes room. -/
theorem journal_resolves (digest : Bytes → Bytes) (requests : List Request) :
    pendingOperations (run digest requests).stored =
      pendingOperations (run digest requests).history ∧
    ∀ r, checkFields r = none → UnresolvedFit digest (run digest requests).file r →
      ((∃ seq, (append digest (run digest requests).file r).1 = .ok seq) ↔
        Disk.size ⟨(disk (run digest requests).file).seq,
          kept (pushed digest (run digest requests).file r)⟩ ≤ MAX_BYTES) := by
  have hinv := inv_run digest requests
  refine ⟨hinv.agrees.pending, fun r hfields hfit => ?_⟩
  have hlength : (pushed digest (run digest requests).file r).length ≤ MAX_EVENTS + 1 := by
    unfold pushed disk
    rw [length_append, length_singleton]
    cases hfile : (run digest requests).file with
    | none => exact Nat.succ_le_succ (Nat.zero_le _)
    | some d => exact Nat.succ_le_succ (hinv.sound d hfile).2
  have htrim := trim_kept hlength hfit.1
  obtain ⟨⟨error, happend⟩, hbig⟩ | ⟨events, hevents, hsize, happend⟩ :=
    append_cases hinv.sound hfields
  · rw [happend]
    refine iff_of_false (fun ⟨_, hok⟩ => nomatch hok) ?_
    exact Nat.not_le.2 (hbig _ htrim)
  · rw [htrim] at hevents
    cases hevents
    rw [happend]
    exact iff_of_true ⟨_, rfl⟩ hsize

lemma length_le_joined (texts : List Text) :
    (texts.map length).sum ≤ (joined texts).length := by
  induction texts with
  | nil => exact le_rfl
  | cons text texts ih =>
    cases texts with
    | nil =>
      rw [map_singleton, sum_singleton]
      exact le_rfl
    | cons text' texts =>
      rw [map_cons, sum_cons, joined, length_append, length_cons]
      · omega
      · exact cons_ne_nil _ _

lemma length_le_of_mem {text : Text} {texts : List Text} (h : text ∈ texts) :
    text.length ≤ (joined texts).length :=
  (single_le_sum (fun _ _ => Nat.zero_le _) _ (mem_map_of_mem h)).trans (length_le_joined texts)

lemma length_le_jsonObject (name : String) {value : Text} {fields : List (String × Text)}
    (h : (name, value) ∈ fields) : value.length ≤ (jsonObject fields).length := by
  have hfield := length_le_of_mem (mem_map_of_mem (f := fun f : String × Text =>
    quoted f.1.toList ++ ':' :: f.2) h)
  unfold jsonObject
  simp only [length_append, length_cons] at hfield ⊢
  omega

lemma sum_le_jsonList (items : List Text) :
    (items.map length).sum ≤ (jsonList items).length := by
  have hjoined := length_le_joined items
  unfold jsonList
  rw [length_append, length_cons]
  omega

lemma escapeJson_ne_nil (c : Char) : escapeJson c ≠ [] := by
  unfold escapeJson
  split_ifs <;> exact cons_ne_nil _ _

lemma length_le_quoted (text : Text) : text.length ≤ (quoted text).length := by
  have hflat : text.length ≤ (text.flatMap escapeJson).length := by
    induction text with
    | nil => exact le_rfl
    | cons c text ih =>
      have hpos := length_pos_iff.2 (escapeJson_ne_nil c)
      rw [flatMap_cons, length_append, length_cons]
      omega
  unfold quoted
  rw [length_append, length_cons]
  omega

/-- The result identifiers of an event are in the file. -/
lemma results_le_json (e : Event) : (e.resultIds.map length).sum ≤ e.json.length := by
  have hlist : (jsonList (e.resultIds.map quoted)).length ≤ e.json.length :=
    length_le_jsonObject "result_ids" (by simp)
  refine le_trans ?_ ((sum_le_jsonList _).trans hlist)
  rw [map_map]
  exact sum_le_sum fun id _ => length_le_quoted id

lemma results_le_size (disk : Disk) :
    (disk.events.map fun e => (e.resultIds.map length).sum).sum ≤ disk.size := by
  have hlist : (jsonList (disk.events.map Event.json)).length ≤ disk.json.length :=
    length_le_jsonObject "events" (by simp)
  have hchars : disk.json.length ≤ disk.size := by
    unfold Disk.size lenUtf8 width
    rw [← length_map (f := Char.utf8Size)]
    exact length_le_sum_of_one_le _ fun n hn => by
      obtain ⟨c, _, rfl⟩ := mem_map.1 hn
      exact Char.utf8Size_pos c
  refine le_trans ?_ (((sum_le_jsonList _).trans hlist).trans hchars)
  rw [map_map]
  exact sum_le_sum fun e _ => results_le_json e

/-- A file without events is small. -/
lemma size_of_none (hn : n < 1000) : Disk.size ⟨n, []⟩ ≤ MAX_BYTES := by
  have hdigits : (jsonNumber n).length ≤ 3 := Nat.toDigits_length 10 n 3 (by norm_num) hn
  have hwidth : ∀ text : Text, lenUtf8 text ≤ text.length * 4 := by
    intro text
    unfold lenUtf8 width
    rw [← length_map (f := Char.utf8Size), ← smul_eq_mul]
    refine sum_le_card_nsmul _ _ fun size hsize => ?_
    obtain ⟨c, _, rfl⟩ := mem_map.1 hsize
    exact Char.utf8Size_le_four c
  have hfirst : (quoted "next_seq".toList).length = 10 := rfl
  have hsecond : (quoted "events".toList).length = 8 := rfl
  have hlist : (jsonList []).length = 2 := rfl
  have hlength : (Disk.json ⟨n, []⟩).length = 25 + (jsonNumber n).length := by
    unfold Disk.json jsonObject
    simp only [map_cons, map_nil, joined, length_append, length_cons,
      length_nil, hfirst, hsecond, hlist]
    omega
  have hsize := hwidth (Disk.json ⟨n, []⟩)
  unfold Disk.size MAX_BYTES
  omega

/-- An event of no operation, as large as the limits of the fields allow its results to be. -/
def bulky : Request where
  taskId := []
  kind := "tool_result".toList
  tool := []
  operation := none
  resultIds := List.replicate 100 (List.replicate 128 'a')
  status := "completed".toList
  detail := none
  refused := 0
  confirmed := []
  time := 0

/-- The journal behind some bulky events. -/
structure Bulky (d : Disk) (n : ℕ) : Prop where
  seq : d.nextSeq = n
  length : d.events.length = n
  events : ∀ e ∈ d.events, e.operation = none ∧ e.resultIds = bulky.resultIds

lemma bulky_fields : checkFields bulky = none := by
  have hid : lenUtf8 (replicate 128 'a') = 128 := by
    unfold lenUtf8 width
    rw [map_replicate, sum_replicate]
    rfl
  have hany : (bulky.resultIds.any fun id => id = [] || 128 < lenUtf8 id) = false := by
    rw [any_eq_false]
    intro id hmem
    rw [eq_of_mem_replicate hmem, hid]
    decide
  have hlength : bulky.resultIds.length = 100 := length_replicate
  unfold checkFields
  rw [hany, hlength]
  decide

lemma Bulky.size {d : Disk} (h : Bulky d n) : n * 12800 ≤ d.size := by
  refine le_trans (le_of_eq ?_) (results_le_size d)
  have hresults : ∀ e ∈ d.events, (e.resultIds.map List.length).sum = 12800 := by
    intro e he
    rw [(h.events e he).2]
    change ((List.replicate 100 (List.replicate 128 'a')).map List.length).sum = 12800
    rw [List.map_replicate, List.sum_replicate, List.length_replicate]
    rfl
  rw [List.map_congr_left hresults, List.map_const', List.sum_replicate, h.length, smul_eq_mul]

lemma Bulky.fit (digest : Bytes → Bytes) {file : Option Disk} (h : Bulky (disk file) n)
    (hn : n < 200) : UnresolvedFit digest file bulky := by
  have hseq : (disk file).seq = n + 1 := by
    unfold Disk.seq
    rw [h.seq]
    omega
  have hnone : (pushed digest file bulky).filter
      (fun e => !settled (pushed digest file bulky) e) = [] := by
    rw [filter_eq_nil_iff]
    intro e he
    have hop : e.operation = none := by
      obtain he | he := mem_append.1 he
      · exact (h.events e he).1
      · rw [mem_singleton.1 he]
        rfl
    have hkey : eventKey e = none := by
      unfold eventKey
      rw [hop]
      rfl
    unfold settled
    rw [hkey]
    exact Bool.false_ne_true
  unfold UnresolvedFit
  dsimp only
  rw [hnone, hseq]
  exact ⟨Nat.zero_le _, size_of_none (by omega)⟩

/-- Events that leave nothing unresolved fill the file, and the next append fails. -/
theorem journal_stuck : ∃ n < 200, checkFields bulky = none ∧
    UnresolvedFit id (run id (replicate n bulky)).file bulky ∧
    ∀ seq, (append id (run id (replicate n bulky)).file bulky).1 ≠ .ok seq := by
  by_contra hnone
  have hbulky : ∀ n ≤ 200, Bulky (disk (run id (replicate n bulky)).file) n := by
    intro n
    induction n with
    | zero => exact fun _ => ⟨rfl, rfl, fun _ he => absurd he not_mem_nil⟩
    | succ n ih =>
      intro hn
      have hold := ih (by omega)
      have hinv := inv_run id (replicate n bulky)
      have hlength : (pushed id (run id (replicate n bulky)).file bulky).length = n + 1 := by
        unfold pushed
        rw [length_append, hold.length]
        rfl
      have hseq : (disk (run id (replicate n bulky)).file).seq = n + 1 := by
        unfold Disk.seq
        rw [hold.seq]
        omega
      have hrun : run id (replicate (n + 1) bulky) =
          (run id (replicate n bulky)).step id bulky := by
        unfold run
        rw [replicate_succ', foldl_append, foldl_cons, foldl_nil]
      obtain ⟨⟨error, happend⟩, _⟩ | ⟨events, hevents, _, happend⟩ :=
        append_cases hinv.sound bulky_fields
      · refine absurd ⟨n, by omega, bulky_fields, hold.fit id (by omega), fun seq => ?_⟩ hnone
        rw [happend]
        exact nofun
      · have hfew : (pushed id (run id (replicate n bulky)).file bulky).length ≤
            MAX_EVENTS := by
          unfold MAX_EVENTS
          omega
        rw [trim_of_few hfew] at hevents
        cases hevents
        have hfile : ((run id (replicate n bulky)).step id bulky).file =
            some ⟨n + 1, pushed id (run id (replicate n bulky)).file bulky⟩ := by
          unfold State.step
          rw [happend, hseq]
        rw [hrun, hfile]
        refine ⟨rfl, hlength, fun e he => ?_⟩
        obtain he | he := mem_append.1 he
        · exact hold.events e he
        · rw [mem_singleton.1 he]
          exact ⟨rfl, rfl⟩
  have hlast := (hbulky 200 le_rfl).size
  have hinv := inv_run id (replicate 200 bulky)
  cases hfile : (run id (replicate 200 bulky)).file with
  | none =>
    have hlength := (hbulky 200 le_rfl).length
    rw [hfile] at hlength
    cases hlength
  | some d =>
    have hsize := (hinv.sound d hfile).1
    rw [hfile] at hlast
    unfold MAX_BYTES at hsize
    change 200 * 12800 ≤ d.size at hlast
    omega

end LibrePaper.Assistant.Journal
