import LibrePaper.Sharing.Requests

/-!
# Sharing is serializable where no save is stale

Where each save finds the links as its request read them, what is stored is what the acknowledged
changes leave one after the other, and a link that was revoked stays so until it is created anew.
-/
namespace LibrePaper.Sharing
open Library List Option

/-- Only links of these hashes stand. -/
def Within (rows : List Row) (hashes : List String) : Prop :=
  ∀ r ∈ rows, r.revoked = false → r.link.hash ∈ hashes

variable {rows : List Row} {hashes : List String} {l : LinkGrant} {s : Stored}
  {links kept : List LinkGrant} {now : ℤ} {hash id : String} {change : Change}

lemma Within.writeLink (h : Within rows hashes) (hl : l.hash ∈ hashes) :
    Within (writeLink rows l) hashes := by
  intro r hr hrevoked
  unfold Sharing.writeLink at hr
  by_cases hany : rows.any fun r => r.link.hash = l.hash
  · rw [if_pos hany] at hr
    obtain ⟨q, hq, rfl⟩ := mem_map.1 hr
    by_cases hsame : q.link.hash = l.hash
    · rw [if_pos hsame]
      exact hl
    · rw [if_neg hsame] at hrevoked ⊢
      exact h q hq hrevoked
  · rw [if_neg hany, mem_append, mem_singleton] at hr
    obtain hr | rfl := hr
    · exact h r hr hrevoked
    · exact hl

lemma within_foldl_writeLink (links : List LinkGrant) (h : Within rows hashes)
    (hlinks : ∀ l ∈ links, l.hash ∈ hashes) : Within (links.foldl writeLink rows) hashes := by
  induction links generalizing rows with
  | nil => exact h
  | cons l links ih =>
    exact ih (h.writeLink (hlinks l (mem_cons_self ..))) fun k hk => hlinks k (mem_cons_of_mem _ hk)

lemma within_replaceShareLinks (rows : List Row) (links : List LinkGrant) :
    Within (replaceShareLinks rows links) (links.map LinkGrant.hash) := by
  refine within_foldl_writeLink links ?_ fun _ => mem_map_of_mem
  intro r hr hrevoked
  obtain ⟨q, -, rfl⟩ := mem_map.1 hr
  by_cases hwanted : q.link.hash ∈ links.map LinkGrant.hash
  · rw [if_pos hwanted]
    exact hwanted
  · rw [if_neg hwanted] at hrevoked
    cases hrevoked

/-- The key of this hash opens the document: its link stands, or a guest is let in by it. -/
def Stored.Admits (s : Stored) (hash : String) : Prop :=
  (∃ r ∈ s.rows, r.revoked = false ∧ r.link.hash = hash) ∨
    ∃ account, s.grants account = some (.guest hash)

lemma mem_live (h : l ∈ s.live) : s.Admits l.hash := by
  obtain ⟨r, hr, rfl⟩ := mem_map.1 h
  rw [mem_filter] at hr
  exact .inl ⟨r, hr.1, by simpa using hr.2, rfl⟩

lemma mem_liveHashes (h : hash ∈ liveHashes links now) : hash ∈ links.map LinkGrant.hash := by
  obtain ⟨l, hl, rfl⟩ := mem_map.1 h
  exact mem_map_of_mem (mem_of_mem_filter hl)

lemma admits_save (h : (s.save links (liveHashes links now)).Admits hash) :
    hash ∈ links.map LinkGrant.hash := by
  obtain ⟨r, hr, hrevoked, rfl⟩ | ⟨account, hguest⟩ := h
  · exact within_replaceShareLinks s.rows links r hr hrevoked
  · obtain ⟨-, hlive⟩ := filter_eq_some_iff.1 hguest
    exact mem_liveHashes (of_decide_eq_true hlive)

/-- The hashes that a change creates. -/
def Change.creates : Change → List String
  | .share (.create link) => [link.hash]
  | .share (.replace _ fresh) => [fresh.hash]
  | _ => []

lemma mem_replaceLink {link : LinkGrant} (h : replaceLink links id link = some kept)
    (hl : l ∈ kept) : l = link ∨ l ∈ links := by
  unfold replaceLink at h
  split_ifs at h
  cases h
  rw [mem_append, mem_cons] at hl
  obtain hl | rfl | hl := hl
  · exact .inr ((takeWhile_sublist _).mem hl)
  · exact .inl rfl
  · exact .inr ((dropWhile_sublist _).mem (mem_of_mem_tail hl))

lemma mem_of_linkById (h : linkById links id = some l) : l ∈ links := by
  unfold linkById at h
  split_ifs at h
  exact mem_of_find?_eq_some h

/-- A request keeps hashes that stood, and adds what it creates. -/
lemma hash_of_edit {r : Request} {e : Edit} (hplan : plan links r = some e)
    (hedit : edit links e = some kept) (hl : l ∈ kept) :
    l.hash ∈ (Change.share r).creates ∨ ∃ k ∈ links, k.hash = l.hash := by
  cases r with
  | create link =>
    cases hplan
    cases hedit
    rw [mem_append, mem_singleton] at hl
    obtain hl | rfl := hl
    · exact .inr ⟨l, hl, rfl⟩
    · exact .inl (mem_singleton.2 rfl)
  | update id wanted =>
    obtain ⟨old, -, rfl⟩ := map_eq_some_iff.1 hplan
    obtain ⟨k, hk, hreplace⟩ := bind_eq_some_iff.1 hedit
    obtain rfl | hl := mem_replaceLink hreplace hl
    · exact .inr ⟨k, mem_of_linkById hk, rfl⟩
    · exact .inr ⟨l, hl, rfl⟩
  | replace id fresh =>
    obtain ⟨k, -, rfl⟩ := map_eq_some_iff.1 hplan
    obtain rfl | hl := mem_replaceLink hedit hl
    · exact .inl (mem_singleton.2 rfl)
    · exact .inr ⟨l, hl, rfl⟩
  | revoke id =>
    obtain ⟨k, -, rfl⟩ := map_eq_some_iff.1 hplan
    simp only [edit, dropLink] at hedit
    split_ifs at hedit
    cases hedit
    exact .inr ⟨l, mem_of_mem_filter hl, rfl⟩

/-- A key that opens nothing is let in only by a change that creates it. -/
lemma not_admits_perform (h : ¬s.Admits hash) (hcreates : hash ∉ change.creates) :
    ¬(change.perform now s).Admits hash := by
  cases change with
  | share r =>
    simp only [Change.perform]
    split
    · next links hlinks =>
      obtain ⟨e, hplan, hedit⟩ := bind_eq_some_iff.1 hlinks
      intro hadmits
      obtain ⟨l, hl, rfl⟩ := mem_map.1 (admits_save hadmits)
      obtain hnew | ⟨k, hk, hsame⟩ := hash_of_edit hplan hedit hl
      · exact hcreates hnew
      · exact h (hsame ▸ mem_live hk)
    · exact h
  | setGrant account role =>
    rintro (hrow | ⟨a, ha⟩)
    · exact h (.inl hrow)
    · simp only [Change.perform, Stored.setGrant, Function.update_apply] at ha
      split_ifs at ha
      · cases ha
      · exact h (.inr ⟨a, ha⟩)
  | removeGrant account =>
    rintro (hrow | ⟨a, ha⟩)
    · exact h (.inl hrow)
    · simp only [Change.perform, Stored.removeGrant, Function.update_apply] at ha
      split_ifs at ha
      exact h (.inr ⟨a, ha⟩)
  | pinLinkGuest account source =>
    simp only [Change.perform, Stored.pinLinkGuest]
    split_ifs with hlive
    · split
      · exact h
      · rintro (hrow | ⟨a, ha⟩)
        · exact h (.inl hrow)
        · simp only [Function.update_apply] at ha
          split_ifs at ha
          · obtain ⟨l, hl, hsource, -⟩ := hlive
            injection ha with ha
            injection ha with ha
            exact h (ha ▸ hsource ▸ mem_live hl)
          · exact h (.inr ⟨a, ha⟩)
    · exact h

/-- A link that is dropped opens nothing any more. -/
lemma not_admits_of_drop (h : dropLink links id = some kept) (hid : idOf hash = id) :
    ¬(s.save kept (liveHashes kept now)).Admits hash := by
  intro hadmits
  obtain ⟨l, hl, rfl⟩ := mem_map.1 (admits_save hadmits)
  unfold dropLink at h
  split_ifs at h
  cases h
  have hne := of_mem_filter hl
  exact of_decide_eq_true hne hid

namespace System

/-- A save finds the links as its request read them, a new key stands in for the link that it was
planned from, and the answer arrives. -/
def Current (s : System) (o : Op) : Prop :=
  ∀ c lost, o = .save c lost → lost = false ∧ ∀ r e seen now,
    s.calls c = some (.saving r e seen now) → seen = s.stored.live ∧ plan s.stored.live r = some e

/-- The stored state is what the log leaves, and what the log revoked opens nothing. -/
structure Serial (stored : Stored) (s : System) : Prop where
  stored : s.stored = s.log.foldl (fun st e => e.2.perform e.1 st) stored
  revoked : ∀ before now id after, s.log = before ++ (now, .share (.revoke id)) :: after →
    ∀ hash, idOf hash = id → (∀ e ∈ after, hash ∉ e.2.creates) → ¬s.stored.Admits hash

variable {stored : Stored} {t : System} {o : Op}

lemma Serial.of_same {s : System} (h : Serial stored s) (hstored : t.stored = s.stored)
    (hlog : t.log = s.log) : Serial stored t where
  stored := by rw [hstored, hlog, h.stored]
  revoked := by
    rw [hstored, hlog]
    exact h.revoked

/-- A change that is performed and logged. -/
lemma Serial.perform {s : System} (h : Serial stored s)
    (hstored : t.stored = change.perform now s.stored) (hlog : t.log = s.log ++ [(now, change)])
    (hrevoke : ∀ id, change = .share (.revoke id) → ∀ hash, idOf hash = id →
      ¬t.stored.Admits hash) : Serial stored t where
  stored := by rw [hstored, hlog, foldl_append, ← h.stored]; rfl
  revoked before now' id after hsplit hash hid hcreates := by
    rw [hlog] at hsplit
    obtain ⟨rest, hbefore, hafter⟩ | ⟨rest, hbefore, hafter⟩ := append_eq_append_iff.1 hsplit
    · cases rest with
      | nil =>
        rw [nil_append] at hafter
        injection hafter with hchange _
        injection hchange with _ hchange
        exact hrevoke id hchange hash hid
      | cons e rest => cases append_eq_nil_iff.1 (cons.inj hafter).2.symm |>.2
    · cases rest with
      | nil =>
        injection hafter with hchange _
        injection hchange with _ hchange
        exact hrevoke id hchange.symm hash hid
      | cons e rest =>
        injection hafter with he hrest
        rw [hstored]
        apply not_admits_perform
        · refine h.revoked before now' id rest (by rw [hbefore, he]) hash hid ?_
          intro e' he'
          exact hcreates e' (hrest ▸ mem_append_left _ he')
        · exact hcreates (now, change) (hrest ▸ mem_append_right _ (mem_singleton.2 rfl))

lemma Serial.save {s : System} (h : Serial stored s) {c : ℕ} {lost : Bool}
    (ho : s.Current (.save c lost)) (hsave : s.save c lost = some t) : Serial stored t := by
  obtain ⟨rfl, hcurrent⟩ := ho c lost rfl
  unfold System.save at hsave
  split at hsave
  · next r e seen now hc =>
    obtain ⟨rfl, hplan⟩ := hcurrent r e seen now hc
    obtain ⟨links, hedit, rfl⟩ := map_eq_some_iff.1 hsave
    refine h.perform ?_ rfl ?_
    · simp only [Change.perform]
      rw [hplan, bind_some, hedit]
    · intro id hr hash hid
      injection hr with hr
      subst hr
      obtain ⟨k, -, rfl⟩ := map_eq_some_iff.1 hplan
      exact not_admits_of_drop hedit hid
  · cases hsave

lemma Serial.step {s : System} (h : Serial stored s) (ho : s.Current o)
    (hstep : s.step o = some t) : Serial stored t := by
  cases o with
  | tick n =>
    cases hstep
    exact h.of_same rfl rfl
  | share | mintReadLink =>
    simp only [System.step] at hstep
    split_ifs at hstep
    cases hstep
    exact h.of_same rfl rfl
  | advance c =>
    simp only [System.step, System.advance] at hstep
    split at hstep
    · cases hstep
      exact h.of_same rfl rfl
    · cases hstep
      exact h.of_same rfl rfl
    · cases hstep
  | save c lost => exact h.save ho hstep
  | fail c =>
    simp only [System.step] at hstep
    split_ifs at hstep
    cases hstep
    exact h.of_same rfl rfl
  | grant change =>
    cases change with
    | share r => cases hstep
    | setGrant | removeGrant | pinLinkGuest =>
      cases hstep
      refine h.perform rfl rfl ?_
      nofun

/-- What is stored is what the acknowledged changes leave one after the other, and no key of a
link that one of them revoked opens the document unless a later one creates it. -/
theorem sharing_is_serializable {stored : Stored} {now : ℤ} {l : List Op} {s : System}
    (h : Run step Current (start stored now) l s) :
    s.stored = s.log.foldl (fun st e => e.2.perform e.1 st) stored ∧
    ∀ before now id after, s.log = before ++ (now, .share (.revoke id)) :: after →
      ∀ hash, idOf hash = id → (∀ e ∈ after, hash ∉ e.2.creates) → ¬s.stored.Admits hash := by
  have hserial : Serial stored s := by
    refine Run.invariant (I := Serial stored) (fun _ _ _ hs ho => hs.step ho) h ⟨rfl, ?_⟩
    intro before now id after hsplit
    cases before <;> cases hsplit
  exact ⟨hserial.stored, hserial.revoked⟩

lemma current_of_ne {s : System} (h : ∀ c lost, o ≠ .save c lost) : s.Current o :=
  fun c lost ho => absurd ho (h c lost)

/-- A read link of everyone's. -/
def readLink (hash : String) : LinkGrant := ⟨hash, "reader", [], "", none, none, .link, ""⟩

/-- A link that is revoked with nothing else in flight opens nothing. -/
theorem revoked_alone : ∃ s, Run step Current (start ⟨[⟨readLink "a", false⟩], fun _ => none⟩ 0)
    [.share 1 (.revoke "a"), .advance 1, .advance 1, .save 1 false] s ∧
    s.log = [(0, .share (.revoke "a"))] ∧ ¬s.stored.Admits "a" := by
  obtain ⟨s, hrun, hlog⟩ : ∃ s, Run step Current
      (start ⟨[⟨readLink "a", false⟩], fun _ => none⟩ 0)
      [.share 1 (.revoke "a"), .advance 1, .advance 1, .save 1 false] s ∧
      s.log = [(0, .share (.revoke "a"))] := by
    refine ⟨_, .cons (current_of_ne fun _ _ => Op.noConfusion) rfl
      (.cons (current_of_ne fun _ _ => Op.noConfusion) rfl
      (.cons (current_of_ne fun _ _ => Op.noConfusion) rfl (.cons ?_ rfl (.nil _)))), rfl⟩
    rintro c lost ⟨⟩
    refine ⟨rfl, fun r e seen now hc => ?_⟩
    cases hc
    exact ⟨rfl, rfl⟩
  exact ⟨s, hrun, hlog, (sharing_is_serializable hrun).2 [] 0 "a" [] hlog "a" (by decide)
    (by decide)⟩

/-- A link is revoked while another is created; the creation writes back the links that it read
before, and the revoked one stands again. -/
theorem revived_by_a_creation : ¬∀ stored now l s, Run step anyStep (start stored now) l s →
    ∀ before now id after, s.log = before ++ (now, .share (.revoke id)) :: after →
      ∀ hash, idOf hash = id → (∀ e ∈ after, hash ∉ e.2.creates) → ¬s.stored.Admits hash := by
  intro h
  obtain ⟨s, hrun, hlog, hrows⟩ : ∃ s, Run step anyStep
      (start ⟨[⟨readLink "a", false⟩], fun _ => none⟩ 0)
      [.share 1 (.revoke "a"), .share 2 (.create (readLink "b")), .advance 1, .advance 2,
        .advance 1, .advance 2, .save 1 false, .save 2 false] s ∧
      s.log = [(0, .share (.revoke "a")), (0, .share (.create (readLink "b")))] ∧
      s.stored.rows = [⟨readLink "a", false⟩, ⟨readLink "b", false⟩] :=
    ⟨_, .cons trivial rfl (.cons trivial rfl (.cons trivial rfl (.cons trivial rfl
      (.cons trivial rfl (.cons trivial rfl (.cons trivial rfl (.cons trivial rfl
      (.nil _)))))))), rfl, rfl⟩
  refine h _ _ _ _ hrun [] 0 "a" _ hlog "a" (by decide) (by decide)
    (.inl ⟨⟨readLink "a", false⟩, ?_, rfl, rfl⟩)
  rw [hrows]
  exact mem_cons_self ..

end System
end LibrePaper.Sharing
