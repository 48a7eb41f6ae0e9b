import LibrePaper.Credentials.Signing
import LibrePaper.Library.Base64
import LibrePaper.Source.Mirror

/-!
# Credentials are read back as the identity that was signed

The fields of a session or a device token are told apart by the bars between them. They are read
back as they were signed when only the name has bars.
-/
namespace LibrePaper.Credentials
open Library Sharing List Option Function

/-- The purposes of credentials. -/
inductive Purpose where
  | session
  | device
  | agentGrant
  | visitor
deriving DecidableEq

variable {p : Purpose} {now : ℤ} {expiry : Seconds} {c : Crypto} {id : Identity} {key : Bytes}
  {text : List Char}

section Crypto
variable (c : Crypto) (key : Bytes)

end Crypto

/-- The fields in front of the name, which is the last one. -/
def Identity.fields (id : Identity) : List (List Char) :=
  [id.provider, id.handle, id.id, id.sessionGeneration, id.picture]

/-- An identity as it is signed, without the expiry. -/
def Identity.line (id : Identity) : List Char := joined '|' id.fields id.name

/-- Whether the fields are those of an account: a valid provider, a handle, and an id that is
the subject of the provider or one of the catalogue. -/
def acceptable (c : Crypto) (provider handle id : List Char) : Bool :=
  validProviderId provider && !handle.isEmpty && validId c provider id

/-- What a reader answers: nothing, or the identity that was signed and its expiry. It is the
identity whenever its fields are those of an account. -/
def ReadBack (c : Crypto) (who : Identity) (deadline : Option Seconds) (id : Identity)
    (expiry : Seconds) : Prop :=
  (who = .anonymous ∧ deadline = none ∨ who = id.kept ∧ deadline = some expiry) ∧
    (acceptable c id.provider id.handle id.id → who = id.kept ∧ deadline = some expiry)

/-- What a credential of a purpose begins with. -/
def Purpose.front : Purpose → List Char
  | .session => "v2.".toList
  | .device => "lp_v2.".toList
  | .agentGrant => "lpa_v1.".toList
  | .visitor => "v1.".toList

/-- The credentials that are signed for a purpose. -/
def Made (c : Crypto) (key : Bytes) : Purpose → List Char → Prop
  | .session, text => ∃ id expiry, text = signSession c key id expiry
  | .device, text => ∃ id expiry, text = signDevice c key id expiry
  | .agentGrant, text => ∃ now grant, signAgentGrant c key now grant = some text
  | .visitor, text => ∃ token, text = signVisitor c key token

/-- The texts that are accepted for a purpose. -/
def Accepted (c : Crypto) (key : Bytes) (now : ℤ) : Purpose → List Char → Prop
  | .session, text => (sessionDeadline c key now text).isSome
  | .device, text => (deviceDeadline c key now text).isSome
  | .agentGrant, text => (readAgentGrant c key now text).isSome
  | .visitor, text => readVisitor c key text ≠ []

lemma Made.front (h : Made c key p text) : p.front <+: text := by
  cases p with
  | session =>
    obtain ⟨id, expiry, rfl⟩ := h
    exact ⟨_, (append_assoc _ _ _).symm⟩
  | device =>
    obtain ⟨id, expiry, rfl⟩ := h
    exact ⟨_, rfl⟩
  | agentGrant =>
    obtain ⟨now, grant, h⟩ := h
    unfold signAgentGrant at h
    split at h
    next => cases h
    next =>
      cases h
      exact ⟨_, (append_assoc _ _ _).symm⟩
  | visitor =>
    obtain ⟨token, rfl⟩ := h
    exact ⟨_, (append_assoc _ _ _).symm⟩

lemma exists_of_isSome_bind {β : Type} {front : List Char} {f : List Char → Option β}
    (h : ((stripPrefix front text).bind f).isSome) :
    ∃ rest, text = front ++ rest ∧ (f rest).isSome := by
  cases hstrip : stripPrefix front text with
  | none =>
    rw [hstrip] at h
    cases h
  | some rest =>
    rw [hstrip] at h
    exact ⟨rest, stripPrefix_eq_some.1 hstrip, h⟩

lemma Accepted.front (h : Accepted c key now p text) : p.front <+: text := by
  cases p with
  | session =>
    have h : (sessionDeadline c key now text).isSome := h
    rw [sessionDeadline, isSome_map] at h
    obtain ⟨rest, rfl, -⟩ := exists_of_isSome_bind h
    exact ⟨rest, rfl⟩
  | device =>
    have h : (deviceDeadline c key now text).isSome := h
    rw [deviceDeadline, isSome_map] at h
    obtain ⟨rest, rfl, hrest⟩ := exists_of_isSome_bind h
    obtain ⟨more, rfl, -⟩ := exists_of_isSome_bind hrest
    exact ⟨more, rfl⟩
  | agentGrant =>
    obtain ⟨rest, rfl, hrest⟩ := exists_of_isSome_bind h
    obtain ⟨more, rfl, -⟩ := exists_of_isSome_bind hrest
    exact ⟨more, rfl⟩
  | visitor =>
    have h : readVisitor c key text ≠ [] := h
    rw [readVisitor] at h
    cases hparts : (stripPrefix "v1.".toList text).bind (splitOnce '.') with
    | none =>
      rw [hparts] at h
      exact absurd rfl h
    | some parts =>
      obtain ⟨rest, rfl, -⟩ := exists_of_isSome_bind (isSome_of_eq_some hparts)
      exact ⟨rest, rfl⟩

def later : Seconds := ⟨2000, by decide⟩

end LibrePaper.Credentials
