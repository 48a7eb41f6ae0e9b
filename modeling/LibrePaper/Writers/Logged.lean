import LibrePaper.Writers.History

/-!
# What sequencers know of the log

A sequencer's vector is that of the sequence number it takes for the head, or of the one after, so
a row that it writes at the head covers the head. A transaction that was committed is found under
the sequence number that its row expected.
-/
namespace LibrePaper.Writers
open Library Option Function

variable {V : Type*} [SemilatticeSup V] [OrderBot V]

/-- A row covers what it expects, and a base has the vector of what it goes through. -/
def Body.Sound (documents : ℕ → Document V) : Body V → Prop
  | .row d expected vector _ _ => expected ≤ (documents d).updateSequence ∧
      (documents d).history expected ≤ vector
  | .activate d through vector _ => (documents d).Near through vector
  | _ => True

/-- A row is in the history. -/
def Body.Done (documents : ℕ → Document V) : Body V → Prop
  | .row d expected vector _ _ => expected + 1 ≤ (documents d).updateSequence ∧
      (documents d).history (expected + 1) = vector
  | _ => True

section Grows
variable {documents documents' : ℕ → Document V} {body : Body V}

omit [OrderBot V] in
lemma Body.Sound.grows (h : body.Sound documents)
    (hg : ∀ d, (documents d).Grows (documents' d)) : body.Sound documents' := by
  cases body with
  | row d expected vector keys bytes =>
    exact ⟨h.1.trans (hg d).sequence, ((hg d).history _ h.1).trans_le h.2⟩
  | activate d through vector replaceEqual => exact Document.Near.grows h (hg d)
  | reserve => trivial
  | clear => trivial

omit [SemilatticeSup V] [OrderBot V] in
lemma Body.Done.grows (h : body.Done documents)
    (hg : ∀ d, (documents d).Grows (documents' d)) : body.Done documents' := by
  cases body with
  | row d expected vector keys bytes =>
    exact ⟨h.1.trans (hg d).sequence, ((hg d).history _ h.1).trans h.2⟩
  | activate => trivial
  | reserve => trivial
  | clear => trivial

end Grows

namespace Database
variable {db db' : Database V} {body : Body V} {epoch : ℕ}

omit [OrderBot V] [SemilatticeSup V] in
lemma documents_setDocument (db : Database V) (i : ℕ) (d : Document V) (j : ℕ) :
    (db.setDocument i d).documents j = if j = i then d else db.documents j :=
  update_apply ..

lemma documents_set (hdb : ∀ d, (db.documents d).Sound) {i : ℕ} {e : Document V}
    (he : e.Sound) (hg : (db.documents i).Grows e) (d : ℕ) :
    ((db.setDocument i e).documents d).Sound ∧
      (db.documents d).Grows ((db.setDocument i e).documents d) := by
  rw [documents_setDocument]
  split
  · next hd => exact hd ▸ ⟨he, hg⟩
  · exact ⟨hdb d, .refl _⟩

/-- A transaction's writes keep every document sound and only let it grow. -/
lemma apply_spec (hdb : ∀ d, (db.documents d).Sound) (hb : body.Sound db.documents)
    (h : db.apply epoch body = some db') :
    (∀ d, (db'.documents d).Sound ∧ (db.documents d).Grows (db'.documents d)) ∧
      body.Done db'.documents := by
  cases body with
  | row i expected vector keys bytes =>
    rw [apply, insertLogRow] at h
    split at h
    · cases h
    · split at h
      · cases h
      · split at h
        · cases h
        · next hhead =>
          cases h
          have hhead : (db.documents i).updateSequence = expected := not_not.1 hhead
          subst hhead
          obtain ⟨hsound, hgrows⟩ := (hdb i).insert hb.2
          refine ⟨documents_set hdb hsound hgrows, ?_⟩
          rw [Body.Done, documents_setDocument, if_pos rfl]
          exact ⟨le_rfl, update_self ..⟩
  | reserve =>
    rw [apply, reservePendingLogBytes] at h
    have hsame : db'.documents = db.documents := by
      repeat' split at h
      all_goals cases h
      all_goals rfl
    rw [hsame]
    exact ⟨fun d => ⟨hdb d, .refl _⟩, trivial⟩
  | clear =>
    cases h
    exact ⟨fun d => ⟨hdb d, .refl _⟩, trivial⟩
  | activate i through vector replaceEqual =>
    rw [apply, activateLogBase] at h
    split at h
    · cases h
    · split at h
      · cases h
        exact ⟨fun d => ⟨hdb d, .refl _⟩, trivial⟩
      · next hbase =>
        cases h
        have hbefore : (db.documents i).through ≤ through := by
          rw [Document.through]
          generalize (db.documents i).base = base at hbase
          cases base with
          | none => exact Nat.zero_le _
          | some b =>
            refine Nat.le_of_not_lt fun hlt => hbase ?_
            rw [any_some, Base.goesAsFar]
            split
            · exact decide_eq_true hlt
            · exact decide_eq_true hlt.le
        obtain ⟨hsound, hgrows⟩ := (hdb i).activate hbefore hb
        exact ⟨documents_set hdb hsound hgrows, trivial⟩

end Database

namespace Deployment
variable {s s' : Deployment V} {x i a : ℕ} {t : Transaction V} {q : Sequencer V}

/-- The call's transaction writes what the call says. -/
def Runs (s : Deployment V) (q : Sequencer V) (c : Call V) : Prop :=
  ∃ t keys bytes, s.transactions c.transaction = some t ∧
    t.body = .row q.document c.expected c.vector keys bytes

def Knows (s : Deployment V) (q : Sequencer V) : Prop :=
  (s.database.documents q.document).Near (q.nextSequence - 1) q.logVector ∧
    ∀ c, q.call = some c → s.Runs q c

/-- What an admission has read. -/
def Reads (documents : ℕ → Document V) : Admission V → Prop
  | .sequence _ d n => n ≤ (documents d).updateSequence
  | .lastRow _ d n (some vector) => (documents d).Near n vector
  | .lastRow _ d n none => n ≤ (documents d).through

structure Logged (s : Deployment V) : Prop where
  documents : ∀ d, (s.database.documents d).Sound
  sound : ∀ x t, s.transactions x = some t → t.body.Sound s.database.documents
  done : ∀ x t e, s.transactions x = some t → t.phase = .over e true →
    t.body.Done s.database.documents
  sequencers : ∀ i q, s.sequencers i = some q → s.Knows q
  admissions : ∀ a r, s.admissions a = some r → Reads s.database.documents r

omit [OrderBot V] [SemilatticeSup V] in
lemma Reads.grows {documents documents' : ℕ → Document V} {r : Admission V}
    (h : Reads documents r) (hg : ∀ d, (documents d).Grows (documents' d)) :
    Reads documents' r := by
  cases r with
  | sequence p d n => exact Nat.le_trans h (hg d).sequence
  | lastRow p d n row =>
    cases row with
    | some vector => exact Document.Near.grows h (hg d)
    | none => exact Nat.le_trans h (hg d).through

/-- A step of the lease, or one that only refuses. -/
lemma Logged.of_eq (h : s.Logged) (hdocuments : s'.database.documents = s.database.documents)
    (htransactions : s'.transactions = s.transactions)
    (hsequencers : s'.sequencers = s.sequencers) (hadmissions : s'.admissions = s.admissions) :
    s'.Logged := by
  have hknows : ∀ q, s.Knows q → s'.Knows q := by
    rintro q ⟨hnear, hcall⟩
    refine ⟨hdocuments ▸ hnear, fun c hc => ?_⟩
    rw [Runs, htransactions]
    exact hcall c hc
  refine ⟨?_, ?_, ?_, ?_, ?_⟩
  · rw [hdocuments]
    exact h.documents
  · rw [htransactions, hdocuments]
    exact h.sound
  · rw [htransactions, hdocuments]
    exact h.done
  · rw [hsequencers]
    exact fun i q hq => hknows q (h.sequencers i q hq)
  · rw [hadmissions, hdocuments]
    exact h.admissions

/-- A transaction is set, under an id that is new or that had the same body. -/
lemma Logged.setTransaction (h : s.Logged)
    (hold : ∀ u, s.transactions x = some u → u.body = t.body)
    (hsound : t.body.Sound s.database.documents)
    (hdone : ∀ e, t.phase = .over e true → t.body.Done s.database.documents) :
    (s.setTransaction x t).Logged := by
  refine ⟨h.documents, fun y u hy => ?_, fun y u e hy hu => ?_, fun i q hq => ?_, h.admissions⟩
  · have hy := (update_apply ..).symm.trans hy
    split at hy
    · cases hy
      exact hsound
    · exact h.sound y u hy
  · have hy := (update_apply ..).symm.trans hy
    split at hy
    · cases hy
      exact hdone e hu
    · exact h.done y u e hy hu
  · refine ⟨(h.sequencers i q hq).1, fun c hc => ?_⟩
    obtain ⟨u, keys, bytes, hu, hbody⟩ := (h.sequencers i q hq).2 c hc
    by_cases hx : c.transaction = x
    · exact ⟨t, keys, bytes, hx ▸ update_self .., (hold u (hx ▸ hu)).symm.trans hbody⟩
    · exact ⟨u, keys, bytes, (update_of_ne hx ..).trans hu, hbody⟩

variable {process : ℕ}

lemma Logged.start (h : s.Logged) {body : Body V} (hs : s.start x process body = some s')
    (hsound : body.Sound s.database.documents) : s'.Logged := by
  rw [Deployment.start] at hs
  split at hs
  · next hnone =>
    cases hs
    exact h.setTransaction (fun u hu => by cases hnone.symm.trans hu) hsound
      fun _ hno => by cases hno
  · cases hs

lemma Logged.setSequencer (h : s.Logged) (hq : s.Knows q) : (s.setSequencer i q).Logged := by
  refine ⟨h.documents, h.sound, h.done, fun j r hr => ?_, h.admissions⟩
  have hr := (update_apply ..).symm.trans hr
  split at hr
  · cases hr
    exact hq
  · exact h.sequencers j r hr

lemma Logged.setAdmission (h : s.Logged) {r : Option (Admission V)}
    (hr : ∀ u, r = some u → Reads s.database.documents u) :
    Logged { s with admissions := update s.admissions a r } := by
  refine ⟨h.documents, h.sound, h.done, h.sequencers, fun b u hu => ?_⟩
  have hu := (update_apply ..).symm.trans hu
  split at hu
  · exact hr u hu
  · exact h.admissions b u hu

/-- Documents may grow under what is known of them. -/
lemma Logged.grow (h : s.Logged) {db : Database V}
    (hdb : ∀ d, (db.documents d).Sound ∧ (s.database.documents d).Grows (db.documents d)) :
    Logged { s with database := db } := by
  have hgrows := fun d => (hdb d).2
  exact ⟨fun d => (hdb d).1, fun x t hx => (h.sound x t hx).grows hgrows,
    fun x t e hx ht => (h.done x t e hx ht).grows hgrows,
    fun i q hq => ⟨(h.sequencers i q hq).1.grows (hgrows _), (h.sequencers i q hq).2⟩,
    fun a r hr => (h.admissions a r hr).grows hgrows⟩

section Transactions
variable {process : ℕ} {body : Body V} {phase : Phase}

lemma Logged.setPhase (h : s.Logged) (hx : s.transactions x = some ⟨process, body, phase⟩)
    {next : Phase} (hnot : ∀ e, next ≠ .over e true) :
    (s.setTransaction x ⟨process, body, next⟩).Logged := by
  refine h.setTransaction (fun u hu => ?_) (h.sound x ⟨process, body, phase⟩ hx)
    fun e he => absurd he (hnot e)
  cases hx.symm.trans hu
  rfl

lemma Logged.expect (h : s.Logged) (hs : s.expect x = some s') : s'.Logged := by
  rw [Deployment.expect] at hs
  split at hs
  · next hx =>
    cases hs
    refine h.setPhase hx fun e hno => ?_
    split at hno <;> cases hno
  · cases hs

lemma Logged.fence (h : s.Logged) (hs : s.fence x = some s') : s'.Logged := by
  rw [Deployment.fence] at hs
  split at hs
  · next hx =>
    split at hs
    · cases hs
      exact (h.setPhase hx fun e hno => by cases hno).of_eq rfl rfl rfl rfl
    · cases hs
      exact h.setPhase hx fun e hno => by cases hno
  · cases hs

lemma Logged.readEpoch (h : s.Logged) (hs : s.readEpoch x = some s') : s'.Logged := by
  rw [Deployment.readEpoch] at hs
  split at hs
  · next hx =>
    cases hs
    exact h.setPhase hx fun e hno => by cases hno
  · cases hs

lemma Logged.abort (h : s.Logged) (hs : s.abort x = some s') : s'.Logged := by
  rw [Deployment.abort] at hs
  split at hs
  · cases hs
  · cases hs
  · cases hs
  · next hx =>
    cases hs
    exact (h.setPhase hx fun e hno => by cases hno).of_eq rfl rfl rfl rfl
  · next t _ _ _ hx =>
    cases hs
    exact (h.setPhase hx fun e hno => by cases hno).of_eq rfl rfl rfl rfl

/-- A row that is committed covers the head, and a base what it goes through. -/
lemma Logged.commit (h : s.Logged) (hs : s.commit x = some s') :
    s'.Logged ∧ ∀ d, (s.database.documents d).Grows (s'.database.documents d) := by
  rw [Deployment.commit] at hs
  split at hs
  · next process body epoch hx =>
    split at hs
    · next db hdb =>
      cases hs
      obtain ⟨hgrows, hdone⟩ := Database.apply_spec h.documents (h.sound x _ hx) hdb
      have hset := (h.grow hgrows).setTransaction (x := x)
        (t := ⟨process, body, .over epoch true⟩) (fun u hu => (by cases hx.symm.trans hu; rfl))
        ((h.sound x _ hx).grows fun d => (hgrows d).2) fun _ _ => hdone
      exact ⟨hset.of_eq rfl rfl rfl rfl, fun d => (hgrows d).2⟩
    · cases hs
      exact ⟨(h.setPhase hx fun e hno => by cases hno).of_eq rfl rfl rfl rfl, fun d => .refl _⟩
  · cases hs

end Transactions

omit [OrderBot V] in
lemma le_vectorThrough (q : Sequencer V) : q.logVector ≤ q.vectorThrough := by
  have hfold : ∀ (l : List (Pending V)) (v : V), v ≤ l.foldl (fun v p => v ⊔ p.stop) v := by
    intro l
    induction l with
    | nil => exact fun v => le_rfl
    | cons p l ih => exact fun v => le_sup_left.trans (ih _)
  exact hfold _ _

omit [SemilatticeSup V] [OrderBot V] in
lemma Knows.retire {take written : ℕ} {vector : V}
    (hw : written ≤ (s.database.documents q.document).updateSequence)
    (hv : (s.database.documents q.document).history written = vector) :
    s.Knows (q.retire take written vector) :=
  ⟨⟨written, le_rfl, Nat.le_succ _, hw, hv.symm⟩, nofun⟩

omit [SemilatticeSup V] [OrderBot V] in
lemma Knows.setCall (h : s.Knows q) {fenced : Bool} {buffer : List (Pending V)}
    {call : Option (Call V)} (hcall : ∀ c, call = some c → s.Runs q c) :
    s.Knows { q with buffer := buffer, fenced := fenced, call := call } := ⟨h.1, hcall⟩

lemma Logged.transact (h : s.Logged) {command : Bool} {source : Option V}
    (hs : s.transact i x command source = some s') : s'.Logged := by
  rw [Deployment.transact] at hs
  split at hs
  · next q hq =>
    split at hs
    · obtain ⟨s₁, hstart, heq⟩ := map_eq_some_iff.1 hs
      cases heq
      obtain ⟨hnear, -⟩ := h.sequencers i q hq
      have hvector : q.vectorThrough ≤ source.elim q.vectorThrough (q.vectorThrough ⊔ ·) := by
        cases source with
        | none => exact le_rfl
        | some stop => exact le_sup_left
      obtain ⟨j, hj, -, hhead, heq⟩ := hnear
      have hcovers : (s.database.documents q.document).history (q.nextSequence - 1) ≤
          source.elim q.vectorThrough (q.vectorThrough ⊔ ·) :=
        ((h.documents q.document).history_le hj hhead).trans
          (heq.symm.trans_le ((le_vectorThrough q).trans hvector))
      have hlogged := h.start hstart ⟨hj.trans hhead, hcovers⟩
      rw [Deployment.start] at hstart
      split at hstart <;> cases hstart
      refine hlogged.setSequencer ⟨(h.sequencers i q hq).1, fun c hc => ?_⟩
      cases hc
      exact ⟨_, _, _, update_self .., rfl⟩
    · cases hs
  · cases hs

lemma Logged.reply (h : s.Logged) (hs : s.reply i = some s') : s'.Logged := by
  rw [Deployment.reply] at hs
  split at hs
  · next q hq =>
    split at hs
    · next command take expected vector x hcall =>
      split at hs
      · next process body epoch hx =>
        cases hs
        obtain ⟨t, keys, bytes, ht, hbody⟩ := (h.sequencers i q hq).2 _ hcall
        cases hx.symm.trans ht
        have hdone := h.done x _ epoch hx rfl
        rw [hbody] at hdone
        exact h.setSequencer (Knows.retire hdone.1 hdone.2)
      · cases hs
    · cases hs
  · cases hs

lemma Logged.fail (h : s.Logged) (hs : s.fail i = some s') : s'.Logged := by
  rw [Deployment.fail] at hs
  split at hs
  · next q hq =>
    split at hs
    · next command take expected vector x hcall =>
      cases hs
      refine h.setSequencer (Knows.setCall (h.sequencers i q hq) fun c hc => ?_)
      have hruns := (h.sequencers i q hq).2 _ hcall
      split at hc
      · cases hc
      · cases hc
        exact hruns
    · cases hs
  · cases hs

lemma Logged.readHead (h : s.Logged) (hs : s.readHead i = some s') : s'.Logged := by
  rw [Deployment.readHead] at hs
  split at hs
  · next q hq =>
    split at hs
    · next command take expected vector x hcall =>
      cases hs
      refine h.setSequencer ?_
      split
      · exact Knows.setCall (h.sequencers i q hq) fun _ hc => by cases hc
      · split
        · exact Knows.setCall (h.sequencers i q hq) fun _ hc => by cases hc
        · have hruns := (h.sequencers i q hq).2 _ hcall
          refine Knows.setCall (h.sequencers i q hq) fun c hc => ?_
          cases hc
          exact hruns
    · cases hs
  · cases hs

/-- A row that is found with the vector of the call is the call's own. -/
lemma Logged.readRow [DecidableEq V] (h : s.Logged) (hs : s.readRow i = some s') :
    s'.Logged := by
  rw [Deployment.readRow] at hs
  split at hs
  · next q hq =>
    split at hs
    · next command take expected vector x hcall =>
      cases hs
      refine h.setSequencer ?_
      split
      · exact Knows.setCall (h.sequencers i q hq) fun _ hc => by cases hc
      · next row hrow =>
        split
        · next hvector =>
          have hdocument := h.documents q.document
          have hmem := List.mem_of_find?_eq_some hrow
          have hfound := List.find?_some hrow
          have hsequence : row.sequence = expected + 1 := of_decide_eq_true hfound
          refine Knows.retire (hsequence ▸ (hdocument.mem_updates hmem).2) ?_
          rw [← hvector, hdocument.vectors row hmem, hsequence]
        · exact Knows.setCall (h.sequencers i q hq) fun _ hc => by cases hc
    · cases hs
  · cases hs

lemma Logged.ingest (h : s.Logged) {batch : Pending V} (hs : s.ingest i x batch = some s') :
    s'.Logged := by
  rw [Deployment.ingest] at hs
  split at hs
  · split at hs
    · obtain ⟨s₁, hstart, heq⟩ := map_eq_some_iff.1 hs
      cases heq
      exact (h.start hstart trivial).of_eq rfl rfl rfl rfl
    · cases hs
  · cases hs

lemma Logged.push (h : s.Logged) (hq : s.sequencers i = some q) (batch : Pending V)
    (epoch : ℕ) : (s.push x i q batch epoch).Logged :=
  (h.setSequencer (Knows.setCall (h.sequencers i q hq) (h.sequencers i q hq).2)).of_eq rfl rfl rfl
    rfl

lemma Logged.accept [DecidableEq V] (h : s.Logged) {matching : Bool}
    (hs : s.accept x matching = some s') : s'.Logged := by
  rw [Deployment.accept] at hs
  split at hs
  · split at hs
    · next hq _ =>
      split at hs <;> cases hs
      exact h.push hq _ _
    · next hq _ =>
      split at hs <;> cases hs
      exact h.push hq _ _
    · cases hs
  · cases hs

/-- A base has the vector of its sequencer. -/
lemma Logged.compact (h : s.Logged) {replaceEqual : Bool}
    (hs : s.compact i x replaceEqual = some s') : s'.Logged := by
  rw [Deployment.compact] at hs
  split at hs
  · next q hq =>
    split at hs
    · exact h.start hs (h.sequencers i q hq).1
    · cases hs
  · cases hs

lemma Logged.clear (h : s.Logged) (hs : s.clear process x = some s') : s'.Logged := by
  rw [Deployment.clear] at hs
  split at hs
  · cases hs
  · exact h.start hs trivial

lemma Logged.readSequence (h : s.Logged) {document : ℕ}
    (hs : s.readSequence a process document = some s') : s'.Logged := by
  rw [Deployment.readSequence] at hs
  split at hs <;> cases hs
  refine h.setAdmission fun u hu => ?_
  cases hu
  exact Nat.le_refl _

/-- While no more than one row is written, the last row is the head that was read or the one
after. -/
lemma Logged.readLastRow (h : s.Logged) (hfew : ∀ p d n,
    s.admissions a = some (.sequence p d n) → (s.database.documents d).updateSequence ≤ n + 1)
    (hs : s.readLastRow a = some s') : s'.Logged := by
  rw [Deployment.readLastRow] at hs
  split at hs
  · next p d n ha =>
    cases hs
    have hread : n ≤ (s.database.documents d).updateSequence := h.admissions a _ ha
    refine h.setAdmission fun u hu => ?_
    cases hu
    generalize hlast : (s.database.documents d).updates.getLast? = last
    cases last with
    | none => exact hread.trans ((h.documents d).getLast_none hlast).ge
    | some r => exact ⟨_, hread, hfew p d n ha, le_rfl, (h.documents d).getLast_some hlast⟩
  · cases hs

lemma Logged.readBase (h : s.Logged) (hfew : ∀ p d n,
    s.admissions a = some (.lastRow p d n none) → (s.database.documents d).updateSequence ≤ n + 1)
    (hs : s.readBase a i = some s') : s'.Logged := by
  rw [Deployment.readBase] at hs
  split at hs
  · next p d n row ha hi =>
    cases hs
    have hread := h.admissions a _ ha
    have hnear : (s.database.documents d).Near n
        (row.getD ((s.database.documents d).base.elim ⊥ (·.vector))) := by
      cases row with
      | some vector => exact hread
      | none =>
        have hread : n ≤ (s.database.documents d).through := hread
        have hsound := h.documents d
        rw [getD_none]
        generalize hb : (s.database.documents d).base = base
        rw [Document.through, hb] at hread
        cases base with
        | none =>
          cases Nat.le_zero.1 hread
          exact ⟨0, le_rfl, Nat.zero_le _, Nat.zero_le _, hsound.bottom.symm⟩
        | some b =>
          obtain ⟨j, hj, -, hhead, heq⟩ := hsound.base b hb
          exact ⟨j, Nat.le_trans hread hj, hhead.trans (hfew p d n ha), hhead, heq⟩
    exact (h.setSequencer ⟨hnear, fun _ hc => by cases hc⟩).setAdmission fun _ hu => by cases hu
  · cases hs

end Deployment
end LibrePaper.Writers
