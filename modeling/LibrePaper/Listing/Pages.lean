import LibrePaper.Library.Cuts
import LibrePaper.Library.Fallible
import LibrePaper.Library.Keysets

/-!
# Pages of the project listing

The projects a caller may see are listed a page at a time, the newest first. A cursor names the
last project of a page, and the position of that project is looked up again when the next page is
asked for.
-/
namespace LibrePaper.Listing
open Library

/-- Where a project stands in the listing: the newest update first, then the highest id. -/
abbrev Key := (ℤ ×ₗ ℕ)ᵒᵈ

/-- A row of `documents`, with the moderation and the templates that are recorded beside it.
Times are in microseconds. -/
structure Document where
  id : ℕ
  slug : String
  owner : ℕ
  unowned : Bool
  active : Bool
  moderated : Bool
  templatePending : Bool
  template : Bool
  updated : ℤ
deriving DecidableEq

def Document.key (d : Document) : Key := OrderDual.toDual (toLex (d.updated, d.id))

/-- A row of `grants`. -/
structure Grant where
  document : ℕ
  account : ℕ
  sourceLink : Option String
deriving DecidableEq

/-- A row of `share_links`. An agent's token is no link of kind `link`. -/
structure ShareLink where
  document : ℕ
  hash : String
  browser : Bool
  revoked : Bool
  expires : Option ℤ
deriving DecidableEq

structure Database where
  documents : List Document
  grants : List Grant
  links : List ShareLink
  now : ℤ
  ids : (documents.map Document.id).Nodup
  slugs : (documents.map Document.slug).Nodup

section Rows
variable (db : Database) (account : Option ℕ)

/-- Whether a project may be listed at all. -/
def Document.listed (d : Document) (templates : Bool) : Bool :=
  d.active && !d.moderated && !d.templatePending && (templates || !d.template)

def owns (d : Document) : Bool := account = some d.owner

/-- Whether the caller has a grant that still counts: one of their own, or one through a link that
lives. -/
def granted (d : Document) : Bool :=
  db.grants.any fun g => g.document = d.id && account = some g.account &&
    match g.sourceLink with
    | none => true
    | some hash => db.links.any fun l => l.document = g.document && l.hash = hash && !l.revoked &&
        l.browser && l.expires.all (db.now < ·)

/-- A page of one access path. -/
def branch (reaches : Document → Bool) (before : Option Key) (limit : ℕ) (templates : Bool) :
    List Document :=
  (sortByKey Document.key (db.documents.filter fun d =>
    reaches d && (d.listed templates && before.all (· < d.key)))).take limit

def visibleDocuments (before : Option Key) (limit : ℕ) (templates : Bool) :
    Except String (List Document) :=
  if ¬(1 ≤ limit ∧ limit ≤ 201) then .error "document page limit must be 1..=201"
  else
    let candidates := branch db (owns account) before limit templates ++
      branch db (granted db account) before limit templates
    .ok ((sortByKey Document.key (db.documents.filter fun d =>
      d.id ∈ candidates.map Document.id)).take limit)

/-- The cursor on the wire. The time is in whole seconds. -/
structure ListingCursor where
  afterUpdated : ℤ
  afterSlug : String
deriving DecidableEq

def Document.cursor (d : Document) : ListingCursor := ⟨d.updated / 10 ^ 6, d.slug⟩

/-- Whether a link answers in this second. -/
def ShareLink.liveAt (l : ShareLink) (now : ℤ) : Bool := l.expires.all fun expiry =>
  now < expiry / 10 ^ 6

/-- Whether the caller may read a project, by the link they were pinned to as a guest if there is
one. -/
def readableBy (d : Document) : Bool :=
  let pinned := (db.grants.find? fun g =>
    g.document = d.id && g.sourceLink.isSome && account = some g.account).bind Grant.sourceLink
  d.unowned || owns account d ||
    (db.grants.any fun g => g.document = d.id && g.sourceLink.isNone && account = some g.account) ||
    pinned.any fun hash => db.links.any fun l => l.document = d.id && !l.revoked && l.browser &&
      l.hash = hash && l.liveAt (db.now / 10 ^ 6)

/-- Where the project of a cursor stands now. -/
def position (cursor : ListingCursor) : Except String Key :=
  match db.documents.find? fun d => d.slug = cursor.afterSlug with
  | none => .error "invalid listing cursor"
  | some d => if !readableBy db account d then .error "invalid listing cursor" else .ok d.key

/-- The page and whether the extra row came back. -/
def splitPage {α : Type} (rows : List α) (limit : ℕ) : List α × Bool :=
  (rows.take limit, limit < rows.length)

def visiblePage (cursor : Option ListingCursor) (limit : ℕ) (templates : Bool) :
    Except String (List Document × Bool) := do
  let before ← match cursor with
    | none => .ok none
    | some cursor => (position db account cursor).map some
  let rows ← visibleDocuments db account before (limit + 1) templates
  .ok (splitPage rows limit)

/-- The cursor that goes out with a page. -/
def nextCursor (page : List Document × Bool) : Option ListingCursor :=
  if page.2 then page.1.getLast?.map Document.cursor else none

end Rows

/-- A page is fetched while this is stored. -/
structure Fetch where
  db : Database
  limit : ℕ

inductive WalkError where
  | fetch (error : String)
  | repeated
  | tooManyPages
deriving DecidableEq

/-- Fetches pages until one has no next cursor, as many as there are fetches. The items are kept
page by page. -/
def walk (account : Option ℕ) (templates : Bool) :
    List ListingCursor → Option ListingCursor → List Fetch →
      Except WalkError (List (List Document))
  | _, _, [] => .error .tooManyPages
  | seen, cursor, f :: fetches =>
    match visiblePage f.db account cursor f.limit templates with
    | .error error => .error (.fetch error)
    | .ok page => match nextCursor page with
      | none => .ok [page.1]
      | some next =>
        if next ∈ seen then .error .repeated
        else (walk account templates (next :: seen) (some next) fetches).map (page.1 :: ·)

end LibrePaper.Listing
