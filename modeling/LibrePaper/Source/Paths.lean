import LibrePaper.Source.Change
import LibrePaper.Library.Widths

/-!
# Paths

What a path of a project may be, and the key on which two paths collide.
-/
namespace LibrePaper.Source
open Library

/-- What the paths need of Unicode: trimming, composition, lower case and quoted display. A
trimmed and composed text is both. -/
structure Unicode where
  trim : List Char → List Char
  nfc : List Char → List Char
  lower : List Char → List Char
  debug : List Char → String
  stable : ∀ text, nfc (trim (nfc (trim text))) = nfc (trim text)

/-- The extensions and lengths that a deployment accepts. -/
structure Rules where
  text : List (List Char)
  asset : List (List Char)
  derived : List (List Char)
  maxPath : ℕ
  maxSegments : ℕ
deriving DecidableEq

/-- The length of a text in bytes. -/
abbrev lenUtf8 (text : List Char) : ℕ := width Char.utf8Size text

section Unicode
variable (u : Unicode)

/-- The form of a path that is compared and stored. -/
def normalise (path : Path) : Path := u.nfc (u.trim path)

lemma normalise_normalise (path : Path) : normalise u (normalise u path) = normalise u path :=
  u.stable path

/-- Two paths with one key would be one file on some disks. -/
def collisionKey (path : Path) : Path := u.lower (normalise u path)

/-- What is wrong with a path, when one of its segments is. -/
def badSegment (path : Path) (segment : List Char) : Option String :=
  if segment = [] then some (String.ofList path ++ ": a path cannot have an empty segment")
  else if segment = ['.'] ∨ segment = ['.', '.'] then
    some (String.ofList path ++ ": a path cannot climb with . or ..")
  else if segment.head? = some '.' then
    some (String.ofList path ++ ": a dotfile is not part of a document")
  else none

/-- The extensions of both kinds, without repetition. -/
def allowedExtensions (rules : Rules) : List (List Char) :=
  rules.asset.foldl (fun allowed e => if e ∈ allowed then allowed else allowed ++ [e]) rules.text

/-- The kind that an extension names. -/
def kindOf (rules : Rules) (path : Path) : Except String Kind :=
  let lower := u.lower path
  let allowed := allowedExtensions rules
  let listed := if allowed = [] then "none" else ", ".intercalate (allowed.map String.ofList)
  let error := String.ofList path ++ ": allowed file extensions are " ++ listed
  if rules.derived.any fun e => e.isSuffixOf lower then .error error
  else if rules.text.any fun e => e.isSuffixOf lower then .ok .text
  else if rules.asset.any fun e => e.isSuffixOf lower then .ok .asset
  else .error error

/-- Whether the rules accept a path, and the kind of file it names. -/
def admission (rules : Rules) (path : Path) : Except String Kind :=
  let path := normalise u path
  let segments := path.splitOn '/'
  if path = [] then .error "a file needs a name"
  else if rules.maxPath < lenUtf8 path then
    .error (String.ofList path ++ ": a path may be at most " ++ toString rules.maxPath ++ " bytes")
  else if path.head? = some '/' then
    .error (String.ofList path ++ ": a path is relative, so it cannot begin with /")
  else if '\\' ∈ path then
    .error (String.ofList path ++ ": paths are separated by /, not by \\")
  else if path.any fun c => c.toNat < 0x20 || c.toNat == 0x7f then
    .error (String.ofList path ++ ": a path cannot carry control characters")
  else if rules.maxSegments < segments.length then
    .error (String.ofList path ++ ": a path may be at most " ++ toString rules.maxSegments ++
      " segments deep")
  else match segments.findSome? (badSegment path) with
    | some why => .error why
    | none => kindOf u rules path

lemma admission_normalise {u : Unicode} {rules : Rules} (path : Path) :
    admission u rules (normalise u path) = admission u rules path := by
  unfold admission
  rw [normalise_normalise]

end Unicode

/-- A path before and from its last dot. -/
def splitExtension (path : Path) : Path × Path :=
  let extension := path.reverse.takeWhile (· ≠ '.')
  if extension.length < path.length then
    (path.take (path.length - extension.length - 1),
      path.drop (path.length - extension.length - 1))
  else (path, [])

/-- The next spelling of a path that is taken, with a number before the extension. -/
def suffixed (path : Path) (nth : ℕ) : Path :=
  let stem := (splitExtension path).1
  let extension := (splitExtension path).2
  if stem ≠ [] ∧ '/' ∉ extension then
    stem ++ [' ', '('] ++ (toString nth).toList ++ [')'] ++ extension
  else path ++ [' ', '('] ++ (toString nth).toList ++ [')']

end LibrePaper.Source
