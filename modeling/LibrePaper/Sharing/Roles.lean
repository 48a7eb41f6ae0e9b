import LibrePaper.Sharing.Links

/-!
# Access at a read and at a write

What a caller may do is decided twice: over an entry of the index, where a page is read, and over
the live rows, in the transaction of a write. The two agree for everybody but an owner whom the
deployment does not let edit: such an owner reads at the owner's rung, and writes as anybody who
holds the same link.
-/
namespace LibrePaper.Sharing
open List Option

inductive Role where
  | reader
  | commenter
  | editor
  | owner
deriving DecidableEq

namespace Role

def rung : Role → ℕ
  | .reader => 0
  | .commenter => 1
  | .editor => 2
  | .owner => 3

lemma rung_injective : Function.Injective rung := by
  intro a b h
  cases a <;> cases b <;> first | rfl | cases h

instance : LinearOrder Role := LinearOrder.lift' rung rung_injective

lemma le_iff {a b : Role} : a ≤ b ↔ a.rung ≤ b.rung := Iff.rfl

def isWhitespace (c : Char) : Bool :=
  (0x09 ≤ c.toNat && c.toNat ≤ 0x0d) || c.toNat = 0x20 || c.toNat = 0x85 || c.toNat = 0xa0 ||
    c.toNat = 0x1680 || (0x2000 ≤ c.toNat && c.toNat ≤ 0x200a) || c.toNat = 0x2028 ||
    c.toNat = 0x2029 || c.toNat = 0x202f || c.toNat = 0x205f || c.toNat = 0x3000

def trimmed (word : List Char) : List Char :=
  ((word.dropWhile isWhitespace).reverse.dropWhile isWhitespace).reverse

/-- The role that a grant or a link names. -/
def parse (value : String) : Option Role :=
  let word := (trimmed value.toList).map Char.toLower
  if word = "read".toList ∨ word = "reader".toList then some .reader
  else if word = "comment".toList ∨ word = "commenter".toList then some .commenter
  else if word = "edit".toList ∨ word = "editor".toList then some .editor
  else none

end Role

/-- The most that a deployment opens to a caller. -/
structure Ceiling where
  comment : Bool
  edit : Bool
deriving DecidableEq

/-- What a granted role comes to. -/
def Ceiling.clamp (ceiling : Ceiling) : Role → Role
  | .editor => if ceiling.edit then .editor else if ceiling.comment then .commenter else .reader
  | .commenter => if ceiling.comment then .commenter else .reader
  | _ => .reader

def LinkGrant.granted (l : LinkGrant) : Role := (Role.parse l.role).getD .reader

/-- An entry of the index. Its times are in seconds. -/
structure IndexEntry where
  publisherId : ℕ
  links : List LinkGrant
  guests : ℕ → Option String
  accountGrants : ℕ → Option Role

namespace IndexEntry

variable (e : IndexEntry)

def ownedBy (caller : Option ℕ) : Bool := caller = some e.publisherId

/-- The live browser link that a presented hash names. -/
def liveLink (linkHash : String) (now : ℤ) : Option LinkGrant :=
  if linkHash = "" then none
  else e.links.find? fun l => l.kind = .link ∧ l.hash = linkHash ∧ l.liveAt now

def linkRole (linkHash : String) (now : ℤ) : Option Role :=
  (e.liveLink linkHash now).map LinkGrant.granted

/-- A role raised to what a grant comes to. -/
def raised (ceiling : Ceiling) (role : Role) : Option Role → Role
  | some granted => max role (ceiling.clamp granted)
  | none => role

/-- The highest role that a caller holds. -/
def roleOf (caller : Option ℕ) (linkHash : String) (ceiling : Ceiling) (now : ℤ) : Role :=
  if e.ownedBy caller then .owner
  else raised ceiling (raised ceiling .reader (caller.bind e.accountGrants))
    (e.linkRole linkHash now)

/-- What the link comes to that the caller once came in by. -/
def pinnedRole (caller : Option ℕ) (ceiling : Ceiling) (now : ℤ) : Role :=
  raised ceiling .reader ((caller.bind e.guests).bind fun hash => e.linkRole hash now)

end IndexEntry

structure Account where
  active : Bool
  generation : ℤ
deriving DecidableEq

inductive Ownership where
  | owned
  | unowned
deriving DecidableEq

structure Document where
  owner : ℕ
  ownership : Ownership
  active : Bool
  hidden : Bool
  stored : Stored

structure Catalog where
  accounts : ℕ → Option Account
  documents : ℕ → Option Document

/-- Who writes, and what the deployment lets them. -/
structure Authority where
  account : Option ℕ
  generation : Option ℤ
  linkHash : Option String
  policyEdit : Bool
  policyComment : Bool
  automation : Bool
deriving DecidableEq

inductive Failure where
  | notFound
  | conflict (text : String)
deriving DecidableEq

/-- The row's link has not expired. The moment is in microseconds. -/
def LinkGrant.unexpired (l : LinkGrant) (now : ℤ) : Bool :=
  match l.expiry with
  | none => true
  | some t => now < t * 1000000

namespace Stored

/-- The role of an account's grant, which for a guest is that of the live link it came in by. -/
def grantRole (s : Stored) (account : ℕ) (now : ℤ) : Option String :=
  match s.grants account with
  | some (.named role) => some role
  | some (.guest source) =>
    (s.rows.find? fun r => r.link.hash = source ∧ !r.revoked ∧ r.link.kind = .link ∧
      r.link.unexpired now).map fun r => r.link.role
  | none => none

/-- The role of the live link that a hash names; an agent's token is one for automation only. -/
def presentedRole (s : Stored) (hash : String) (automation : Bool) (now : ℤ) : Option String :=
  (s.rows.find? fun r => r.link.hash = hash ∧ !r.revoked ∧ (r.link.kind = .link ∨ automation) ∧
    r.link.unexpired now).map fun r => r.link.role

/-- What the tables let in: roles that can be granted, and hashes of a fixed length. -/
structure Checked (s : Stored) : Prop where
  links : ∀ r ∈ s.rows, r.link.role ∈ ["reader", "commenter", "editor"]
  named : ∀ a role, s.grants a = some (.named role) → role ∈ ["reader", "commenter", "editor"]
  guests : ∀ a source, s.grants a = some (.guest source) → source ≠ ""

end Stored

def rank : Option String → ℕ
  | some role =>
    if role = "editor" then 3
    else if role = "commenter" then 2
    else if role = "reader" then 1
    else 0
  | none => 0

namespace Catalog

/-- The account's session is the one that the caller came with. -/
def checkSession (c : Catalog) (actor : Authority) : Except Failure Unit :=
  match actor.account with
  | none => .ok ()
  | some account =>
    match actor.generation with
    | none => .error (.conflict "actor session changed")
    | some generation =>
      if c.accounts account = some ⟨true, generation⟩ then .ok ()
      else .error (.conflict "actor session changed")

/-- The check in the transaction of a write. -/
def authorizeMutation (c : Catalog) (now : ℤ) (document : ℕ) (actor : Authority)
    (requireEditor : Bool) : Except Failure Unit := do
  c.checkSession actor
  match c.documents document with
  | none => .error .notFound
  | some d =>
    if !d.active || d.hidden then .error .notFound
    else
      let owner := !actor.automation && decide (actor.account = some d.owner)
      let grant :=
        if actor.automation || owner then none
        else actor.account.bind fun account => d.stored.grantRole account now
      let link := actor.linkHash.bind fun hash => d.stored.presentedRole hash actor.automation now
      let granted := max (rank grant) (rank link)
      let editor := actor.policyEdit && (owner || 3 ≤ granted)
      let commenter := editor || (actor.policyComment && 2 ≤ granted) ||
        (actor.policyComment && !actor.automation && d.ownership = .unowned)
      if (requireEditor && !editor) || (!requireEditor && !commenter) then
        .error (.conflict "access changed")
      else .ok ()

/-- The entry of a document. A grant whose account is gone names nobody. -/
def entry (c : Catalog) (d : Document) : IndexEntry where
  publisherId := d.owner
  links := d.stored.live
  guests := fun a =>
    match d.stored.grants a with
    | some (.guest source) => (c.accounts a).map fun _ => source
    | _ => none
  accountGrants := fun a =>
    match d.stored.grants a with
    | some (.named role) => Role.parse role
    | _ => none

end Catalog

/-- Who a caller writes as: an account with its session, or nobody, and the hash of a link. -/
def authority (caller : Option (ℕ × ℤ)) (link : String) (ceiling : Ceiling) : Authority where
  account := caller.map Prod.fst
  generation := caller.map Prod.snd
  linkHash := if link = "" then none else some link
  policyEdit := ceiling.edit
  policyComment := ceiling.comment
  automation := false

/-- The rung that a write needs. -/
def needed (requireEditor : Bool) : Role := if requireEditor then .editor else .commenter

namespace IndexEntry

/-- The rung that a caller writes at. An owner whom the deployment does not let edit writes as
anybody with the same link. -/
def standing (e : IndexEntry) (caller : Option ℕ) (linkHash : String) (ceiling : Ceiling)
    (now : ℤ) : Role :=
  if e.ownedBy caller ∧ ceiling.edit = false then e.roleOf none linkHash ceiling now
  else max (e.roleOf caller linkHash ceiling now) (e.pinnedRole caller ceiling now)

end IndexEntry

variable {s : Stored} {now : ℤ} {ceiling : Ceiling} {requireEditor : Bool}

lemma LinkGrant.unexpired_eq (l : LinkGrant) (now : ℤ) :
    l.unexpired now = l.liveAt (now / 1000000) := by
  unfold LinkGrant.unexpired LinkGrant.liveAt
  cases l.expiry with
  | none => rfl
  | some t => exact decide_eq_decide.2 (Int.ediv_lt_iff_lt_mul (by decide)).symm

variable {hash : String} {role : Role}

lemma liveLink_entry (c : Catalog) (d : Document) (h : hash ≠ "") (now : ℤ) :
    (c.entry d).liveLink hash (now / 1000000) =
      (d.stored.rows.find? fun r => r.link.hash = hash ∧ !r.revoked ∧ r.link.kind = .link ∧
        r.link.unexpired now).map Row.link := by
  unfold IndexEntry.liveLink
  rw [if_neg h]
  change ((d.stored.rows.filter fun r => !r.revoked).map Row.link).find? _ = _
  rw [find?_map, find?_filter]
  refine congrArg (fun p => (d.stored.rows.find? p).map Row.link) (funext fun r => ?_)
  rw [r.link.unexpired_eq]
  simp only [Function.comp_apply, Bool.decide_and, Bool.decide_eq_true]
  cases r.revoked <;> cases decide (r.link.kind = .link) <;> simp

/-- How high a granted role stands. -/
def rankRole : Option Role → ℕ
  | some role => role.rung + 1
  | none => 0

lemma parse_checked {role : String} (h : role ∈ ["reader", "commenter", "editor"]) :
    ∃ r, Role.parse role = some r ∧ r ≠ .owner ∧ rank (some role) = r.rung + 1 := by
  rcases mem_cons.1 h with rfl | h
  · exact ⟨.reader, by decide, by decide, by decide⟩
  · rcases mem_cons.1 h with rfl | h
    · exact ⟨.commenter, by decide, by decide, by decide⟩
    · obtain rfl := mem_singleton.1 h
      exact ⟨.editor, by decide, by decide, by decide⟩

/-- What a deployment lets a grant of this rank do. -/
def Ceiling.Allows (ceiling : Ceiling) (requireEditor : Bool) (n : ℕ) : Prop :=
  (ceiling.edit = true ∧ 3 ≤ n) ∨ (requireEditor = false ∧ ceiling.comment = true ∧ 2 ≤ n)

lemma Ceiling.allows_max (ceiling : Ceiling) (requireEditor : Bool) (m n : ℕ) :
    ceiling.Allows requireEditor (max m n) ↔
      ceiling.Allows requireEditor m ∨ ceiling.Allows requireEditor n := by
  unfold Ceiling.Allows
  rw [le_max_iff, le_max_iff]
  tauto

lemma Ceiling.not_allows_zero (ceiling : Ceiling) (requireEditor : Bool) :
    ¬ceiling.Allows requireEditor 0 := by
  rintro (⟨-, h⟩ | ⟨-, -, h⟩) <;> omega

lemma needed_le_clamp (h : role ≠ .owner) :
    needed requireEditor ≤ ceiling.clamp role ↔ ceiling.Allows requireEditor (role.rung + 1) := by
  obtain ⟨comment, edit⟩ := ceiling
  cases role with
  | owner => exact absurd rfl h
  | reader => cases requireEditor <;> cases comment <;> cases edit <;>
      simp [needed, Ceiling.clamp, Ceiling.Allows, Role.le_iff, Role.rung]
  | commenter => cases requireEditor <;> cases comment <;> cases edit <;>
      simp [needed, Ceiling.clamp, Ceiling.Allows, Role.le_iff, Role.rung]
  | editor => cases requireEditor <;> cases comment <;> cases edit <;>
      simp [needed, Ceiling.clamp, Ceiling.Allows, Role.le_iff, Role.rung]

lemma not_needed_le_reader (requireEditor : Bool) : ¬needed requireEditor ≤ .reader := by
  cases requireEditor <;> decide

lemma needed_le_raised {o : Option Role} (h : o ≠ some .owner) :
    needed requireEditor ≤ IndexEntry.raised ceiling role o ↔
      needed requireEditor ≤ role ∨ ceiling.Allows requireEditor (rankRole o) := by
  cases o with
  | none => exact (or_iff_left (ceiling.not_allows_zero _)).symm
  | some granted =>
    have hgranted : granted ≠ .owner := fun heq => h (heq ▸ rfl)
    exact le_max_iff.trans (or_congr_right (needed_le_clamp hgranted))

section

variable {c : Catalog} {d : Document} (hchecked : d.stored.Checked)
include hchecked

/-- A link that both sides look up. -/
lemma rank_liveLink (h : hash ≠ "") (now : ℤ) :
    rank ((d.stored.rows.find? fun r => r.link.hash = hash ∧ !r.revoked ∧ r.link.kind = .link ∧
        r.link.unexpired now).map fun r => r.link.role) =
      rankRole ((c.entry d).linkRole hash (now / 1000000)) ∧
    (c.entry d).linkRole hash (now / 1000000) ≠ some .owner := by
  unfold IndexEntry.linkRole
  rw [liveLink_entry c d h]
  cases hfind : d.stored.rows.find? fun r => r.link.hash = hash ∧ !r.revoked ∧
    r.link.kind = .link ∧ r.link.unexpired now with
  | none => exact ⟨rfl, nofun⟩
  | some r =>
    obtain ⟨role, hparse, howner, hrank⟩ :=
      parse_checked (hchecked.links r (mem_of_find?_eq_some hfind))
    have hgranted : r.link.granted = role := by
      unfold LinkGrant.granted
      rw [hparse]
      rfl
    refine ⟨?_, fun heq => howner ?_⟩
    · change rank (some r.link.role) = rankRole (some r.link.granted)
      rw [hgranted, hrank]
      rfl
    · exact hgranted.symm.trans (some.inj heq)

/-- The presented link. -/
lemma rank_presented (link : String) (now : ℤ) :
    rank ((if link = "" then none else some link : Option String).bind fun hash =>
        d.stored.presentedRole hash false now) =
      rankRole ((c.entry d).linkRole link (now / 1000000)) ∧
    (c.entry d).linkRole link (now / 1000000) ≠ some .owner := by
  by_cases hlink : link = ""
  · subst hlink
    exact ⟨rfl, nofun⟩
  · rw [if_neg hlink]
    have h := rank_liveLink (c := c) hchecked hlink now
    refine ⟨?_, h.2⟩
    rw [← h.1, bind_some, Stored.presentedRole]
    simp

/-- The grant of an account, which is a named one or a guest's. -/
lemma rank_grant {account : ℕ} (haccount : c.accounts account ≠ none) (now : ℤ) :
    (∀ n, n = rank (d.stored.grantRole account now) →
      ∀ ceiling : Ceiling, ∀ requireEditor, ceiling.Allows requireEditor n ↔
        ceiling.Allows requireEditor (rankRole ((c.entry d).accountGrants account)) ∨
        ceiling.Allows requireEditor (rankRole (((c.entry d).guests account).bind fun hash =>
          (c.entry d).linkRole hash (now / 1000000)))) ∧
    (c.entry d).accountGrants account ≠ some .owner ∧
    (((c.entry d).guests account).bind fun hash =>
      (c.entry d).linkRole hash (now / 1000000)) ≠ some .owner := by
  unfold Stored.grantRole Catalog.entry
  dsimp only
  cases hgrant : d.stored.grants account with
  | none =>
    refine ⟨?_, nofun, nofun⟩
    rintro n rfl ceiling requireEditor
    exact (or_self_iff).symm
  | some grant =>
    cases grant with
    | named role =>
      obtain ⟨r, hparse, howner, hrank⟩ := parse_checked (hchecked.named account role hgrant)
      refine ⟨?_, fun heq => howner (some.inj (hparse.symm.trans heq)), nofun⟩
      rintro n rfl ceiling requireEditor
      change _ ↔ ceiling.Allows requireEditor (rankRole (Role.parse role)) ∨
        ceiling.Allows requireEditor 0
      rw [or_iff_left (ceiling.not_allows_zero _), hrank, hparse]
      rfl
    | guest source =>
      obtain ⟨row, hrow⟩ := ne_none_iff_exists'.1 haccount
      have h := rank_liveLink (c := c) hchecked (hchecked.guests account source hgrant) now
      rw [hrow]
      refine ⟨?_, nofun, h.2⟩
      rintro n rfl ceiling requireEditor
      change _ ↔ ceiling.Allows requireEditor 0 ∨ _
      rw [or_iff_right (ceiling.not_allows_zero _)]
      dsimp only
      rw [h.1]
      rfl

end

/-- What the check in a write comes to. -/
lemma authorizeMutation_ok {c : Catalog} {d : Document} {document : ℕ} {actor : Authority}
    (hsession : c.checkSession actor = .ok ()) (hdocument : c.documents document = some d)
    (hactive : d.active = true) (hhidden : d.hidden = false) (howned : d.ownership = .owned)
    (hperson : actor.automation = false) (requireEditor : Bool) :
    c.authorizeMutation now document actor requireEditor = .ok () ↔
      (actor.account = some d.owner ∧ actor.policyEdit = true) ∨
        Ceiling.Allows ⟨actor.policyComment, actor.policyEdit⟩ requireEditor
          (max (rank (if actor.account = some d.owner then none
              else actor.account.bind fun account => d.stored.grantRole account now))
            (rank (actor.linkHash.bind fun hash => d.stored.presentedRole hash false now))) := by
  unfold Catalog.authorizeMutation Ceiling.Allows
  rw [hsession, hdocument, hperson]
  by_cases howner : actor.account = some d.owner <;> cases requireEditor <;>
    cases actor.policyEdit <;> cases actor.policyComment <;>
    simp [bind, Except.bind, hactive, hhidden, howned, howner] <;> omega

/-- Access at a read and at a write agree: a write goes through exactly where the caller's standing
is high enough. -/
theorem access_agrees {c : Catalog} {d : Document} {document : ℕ} {caller : Option (ℕ × ℤ)}
    (hsession : ∀ account generation, caller = some (account, generation) →
      c.accounts account = some ⟨true, generation⟩)
    (hdocument : c.documents document = some d) (hactive : d.active = true)
    (hhidden : d.hidden = false) (howned : d.ownership = .owned) (hchecked : d.stored.Checked)
    (link : String) (ceiling : Ceiling) (now : ℤ) (requireEditor : Bool) :
    c.authorizeMutation now document (authority caller link ceiling) requireEditor = .ok () ↔
      needed requireEditor ≤
        (c.entry d).standing (caller.map Prod.fst) link ceiling (now / 1000000) := by
  have hsame : c.checkSession (authority caller link ceiling) = .ok () := by
    cases caller with
    | none => rfl
    | some caller =>
      obtain ⟨account, generation⟩ := caller
      exact if_pos (hsession account generation rfl)
  obtain ⟨hlink, hlinkOwner⟩ := rank_presented (c := c) hchecked link now
  rw [authorizeMutation_ok hsame hdocument hactive hhidden howned rfl, Ceiling.allows_max]
  change (caller.map Prod.fst = some d.owner ∧ ceiling.edit = true) ∨ (ceiling.Allows _ _ ∨
    ceiling.Allows _ (rank ((if link = "" then none else some link : Option String).bind _))) ↔ _
  have haccount : (authority caller link ceiling).account = caller.map Prod.fst := rfl
  rw [hlink, haccount]
  unfold IndexEntry.standing IndexEntry.roleOf
  by_cases howner : caller.map Prod.fst = some d.owner
  · have hby : (c.entry d).ownedBy (caller.map Prod.fst) = true := decide_eq_true howner
    have hnobody : (c.entry d).ownedBy none = false := rfl
    rw [hby, hnobody, if_pos howner]
    cases hedit : ceiling.edit with
    | true =>
      have hneeded : needed requireEditor ≤ .owner := by cases requireEditor <;> decide
      simp [howner, hneeded]
    | false =>
      simp only [true_and, if_true, if_false, Bool.false_eq_true]
      rw [needed_le_raised hlinkOwner]
      have hnone : ¬ceiling.Allows requireEditor (rank none) := ceiling.not_allows_zero _
      have hreader : ¬needed requireEditor ≤ IndexEntry.raised ceiling .reader none :=
        not_needed_le_reader requireEditor
      simp [hnone, hreader]
  · have hby : (c.entry d).ownedBy (caller.map Prod.fst) = false := decide_eq_false howner
    rw [hby, if_neg howner]
    simp only [Bool.false_eq_true, false_and, if_false]
    rw [le_max_iff, needed_le_raised hlinkOwner]
    unfold IndexEntry.pinnedRole
    cases caller with
    | none =>
      have hnone : ¬ceiling.Allows requireEditor (rank none) := ceiling.not_allows_zero _
      have hreader : ¬needed requireEditor ≤ IndexEntry.raised ceiling .reader none :=
        not_needed_le_reader requireEditor
      simp [hnone, hreader]
    | some caller =>
      obtain ⟨account, generation⟩ := caller
      have haccount : c.accounts account ≠ none := by
        rw [hsession account generation rfl]
        nofun
      obtain ⟨hgrant, hnamedOwner, hguestOwner⟩ := rank_grant hchecked haccount now
      change (_ ∨ (ceiling.Allows _ (rank (d.stored.grantRole account now)) ∨ _)) ↔
        (needed requireEditor ≤
            IndexEntry.raised ceiling .reader ((c.entry d).accountGrants account) ∨ _) ∨
          needed requireEditor ≤
            IndexEntry.raised ceiling .reader (((c.entry d).guests account).bind _)
      rw [hgrant _ rfl, needed_le_raised hnamedOwner, needed_le_raised hguestOwner]
      have hreader := not_needed_le_reader requireEditor
      have hstranger : ¬((some (account, generation)).map Prod.fst = some d.owner ∧
          ceiling.edit = true) := fun h => howner h.1
      tauto

/-- A link that comments, and a guest who came in by it. -/
def commentLink : LinkGrant := ⟨"c0ffee", "commenter", [], "", none, some 100, .link, ""⟩

def shared : Document where
  owner := 1
  ownership := .owned
  active := true
  hidden := false
  stored := ⟨[⟨commentLink, false⟩], fun a => if a = 2 then some (.guest "c0ffee") else none⟩

def oneShared : Catalog where
  accounts := fun a => if a = 1 ∨ a = 2 then some ⟨true, 0⟩ else none
  documents := fun i => if i = 0 then some shared else none

lemma shared_checked : shared.stored.Checked where
  links := by decide
  named := fun a role h => by
    unfold shared at h
    dsimp only at h
    split_ifs at h
    cases h
  guests := fun a source h => by
    unfold shared at h
    dsimp only at h
    split_ifs at h
    cases h
    decide

/-- A guest comments until the link expires. -/
theorem guest_comments_in_time :
    oneShared.authorizeMutation 99999999 0 (authority (some (2, 0)) "" ⟨true, true⟩) false =
      .ok () ∧
    ¬oneShared.authorizeMutation 100000000 0 (authority (some (2, 0)) "" ⟨true, true⟩) false =
      .ok () := by
  have hsession : ∀ account generation, some (2, 0) = some (account, generation) →
      oneShared.accounts account = some ⟨true, generation⟩ := fun account generation h => by
    cases h
    rfl
  have hagrees : ∀ now : ℤ, oneShared.authorizeMutation now 0
      (authority (some (2, 0)) "" ⟨true, true⟩) false = .ok () ↔ needed false ≤
        (oneShared.entry shared).standing (some 2) "" ⟨true, true⟩ (now / 1000000) := fun now =>
    access_agrees hsession rfl rfl rfl rfl shared_checked "" ⟨true, true⟩ now false
  exact ⟨(hagrees 99999999).2 (by decide), fun h => absurd ((hagrees 100000000).1 h) (by decide)⟩

/-- An owner whom the deployment does not let edit reads as the owner and does not write. -/
theorem owner_without_edit : ¬∀ (c : Catalog) (d : Document) (document : ℕ)
    (caller : Option (ℕ × ℤ)), (∀ account generation, caller = some (account, generation) →
      c.accounts account = some ⟨true, generation⟩) → c.documents document = some d →
    d.active = true → d.hidden = false → d.ownership = .owned → d.stored.Checked →
    ∀ (link : String) (ceiling : Ceiling) (now : ℤ) (requireEditor : Bool),
      c.authorizeMutation now document (authority caller link ceiling) requireEditor = .ok () ↔
        needed requireEditor ≤ max
          ((c.entry d).roleOf (caller.map Prod.fst) link ceiling (now / 1000000))
          ((c.entry d).pinnedRole (caller.map Prod.fst) ceiling (now / 1000000)) := by
  intro h
  have hsession : ∀ account generation, some (1, 0) = some (account, generation) →
      oneShared.accounts account = some ⟨true, generation⟩ := fun account generation h => by
    cases h
    rfl
  have hwrite := (h oneShared shared 0 (some (1, 0)) hsession rfl rfl rfl rfl shared_checked ""
    ⟨true, false⟩ 0 true).2 (by decide)
  exact absurd hwrite (by decide)

end LibrePaper.Sharing
