import Uplift.Text.Blank
import Uplift.Text.Search

/-!
# Versions

A version is three numbers of at most 64 bits, a list of prerelease identifiers and a list of
build identifiers.  The order is total and takes every part into account: numbers first, then
prerelease identifiers (a version without any comes after those with some), then build identifiers
(a version without any comes first).

Identifiers are compared through keys.  One that consists of digits sorts by its number of
significant digits and then by its text, which is numeric order; it comes before every other
identifier, and those sort by their text.
-/

set_option autoImplicit false

namespace Uplift

/-- A semantic version. -/
structure Version where
  major : Nat
  minor : Nat
  patch : Nat
  prerelease : List String
  build : List String
  deriving DecidableEq, Repr, Inhabited

namespace Version

/-! ## Reading -/

/-- The largest number a version may hold. -/
def maxNumber : Nat := 0xFFFFFFFFFFFFFFFF

/-- The number that decimal digits spell. -/
def digitsValue (digits : List Char) : Nat :=
  digits.foldl (fun n c => n * 10 + (c.toNat - 48)) 0

/-- Reads a number: digits without a superfluous leading zero. -/
def readNumber? (text : List Char) : Option (Nat × List Char) :=
  let digits := text.takeWhile Char.isDigit
  let rest := text.dropWhile Char.isDigit
  let wellFormed : Bool := match digits with
    | [] => false
    | ['0'] => true
    | c :: _ => c ≠ '0'
  if wellFormed && digitsValue digits ≤ maxNumber then some (digitsValue digits, rest) else none

/-- Reads a dot. -/
def readDot? : List Char → Option (List Char)
  | '.' :: rest => some rest
  | _ => none

/-- The characters of identifiers. -/
def isIdentifierChar (c : Char) : Bool :=
  c.isAlphanum || c = '-'

/-- Whether an identifier consists of digits only. -/
def isNumeric (identifier : List Char) : Bool :=
  identifier.all Char.isDigit

/-- An identifier has at least one character, and a numeric one that must be in normal form has no
superfluous leading zero. -/
def isIdentifier (normal : Bool) (identifier : List Char) : Bool :=
  !identifier.isEmpty &&
    !(normal && isNumeric identifier && 1 < identifier.length && identifier.head? == some '0')

/-- Reads identifiers separated by dots. -/
def readIdentifiers? (normal : Bool) (text : List Char) : Option (List String × List Char) :=
  let inside (c : Char) : Bool := isIdentifierChar c || c = '.'
  let identifiers := Text.splitOn '.' (text.takeWhile inside)
  if identifiers.all (isIdentifier normal) then
    some (identifiers.map String.ofList, text.dropWhile inside)
  else none

/-- Reads the identifiers that a mark introduces; without the mark there are none. -/
def readMarked? (mark : Char) (normal : Bool) (text : List Char) :
    Option (List String × List Char) :=
  match text with
  | c :: rest => if c = mark then readIdentifiers? normal rest else some ([], text)
  | [] => some ([], [])

/-- The version that a text spells, strictly. -/
def parseChars? (text : List Char) : Option Version := do
  let (major, rest) ← readNumber? text
  let (minor, rest) ← readNumber? (← readDot? rest)
  let (patch, rest) ← readNumber? (← readDot? rest)
  let (prerelease, rest) ← readMarked? '-' true rest
  let (build, rest) ← readMarked? '+' false rest
  if rest.isEmpty then some ⟨major, minor, patch, prerelease, build⟩ else none

/-- The version that a string spells, strictly. -/
def parse? (text : String) : Option Version :=
  parseChars? text.toList

/-- The version that a string spells, with blanks around it and one `v` before it allowed. -/
def parseLoose? (text : String) : Option Version :=
  match Text.trim text.toList with
  | 'v' :: rest => parseChars? rest
  | text => parseChars? text

/-! ## Writing -/

/-- The prerelease identifiers as written. -/
def prereleaseText (version : Version) : String :=
  String.intercalate "." version.prerelease

/-- The build identifiers as written. -/
def buildText (version : Version) : String :=
  String.intercalate "." version.build

/-- The canonical spelling of a version. -/
def toText (version : Version) : String :=
  let pre := if version.prerelease.isEmpty then "" else "-" ++ version.prereleaseText
  let build := if version.build.isEmpty then "" else "+" ++ version.buildText
  s!"{version.major}.{version.minor}.{version.patch}" ++ pre ++ build

/-! ## Order -/

/-- What an identifier is compared by: its class, the number of its significant digits, its text
without leading zeros, and its length. -/
structure IdentifierKey where
  alphanumeric : Nat
  significant : Nat
  text : String
  length : Nat
  deriving DecidableEq, Repr

/-- The key of an identifier. -/
def identifierKey (identifier : String) : IdentifierKey :=
  let chars := identifier.toList
  if isNumeric chars then
    let significant := chars.dropWhile (· = '0')
    ⟨0, significant.length, String.ofList significant, chars.length⟩
  else ⟨1, 0, identifier, 0⟩

/-- Keys compare part by part. -/
def IdentifierKey.compare (a b : IdentifierKey) : Ordering :=
  (Ord.compare a.alphanumeric b.alphanumeric).then
    ((Ord.compare a.significant b.significant).then
      ((Ord.compare a.text b.text).then (Ord.compare a.length b.length)))

/-- Identifiers compare by their keys. -/
def compareIdentifier (a b : String) : Ordering :=
  (identifierKey a).compare (identifierKey b)

/-- Lists compare at the first place where they differ; a proper initial piece comes first. -/
def compareLists : List String → List String → Ordering
  | [], [] => .eq
  | [], _ :: _ => .lt
  | _ :: _, [] => .gt
  | a :: as, b :: bs => (compareIdentifier a b).then (compareLists as bs)

/-- Prerelease identifiers: having none comes last. -/
def comparePrerelease : List String → List String → Ordering
  | [], [] => .eq
  | [], _ :: _ => .gt
  | _ :: _, [] => .lt
  | as, bs => compareLists as bs

/-- The total order of versions. -/
protected def compare (a b : Version) : Ordering :=
  (Ord.compare a.major b.major).then
    ((Ord.compare a.minor b.minor).then
      ((Ord.compare a.patch b.patch).then
        ((comparePrerelease a.prerelease b.prerelease).then (compareLists a.build b.build))))

instance : Ord Version := ⟨Version.compare⟩

/-- Whether one version comes strictly before another. -/
def before (a b : Version) : Bool :=
  Version.compare a b == .lt

/-- Whether one version comes before another or is equal to it. -/
def upTo (a b : Version) : Bool :=
  Version.compare a b != .gt

end Version

end Uplift
