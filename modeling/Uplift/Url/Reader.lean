import Uplift.Url.Basic

/-!
# Reading addresses

A text is read as an address, alone or relative to another one.  Blanks and controls around it and
line breaks and tabs within it count for nothing.  A text with a scheme of its own is an address of
its own, with one exception: a web scheme that is the scheme of the other address and is not
followed by two slashes.

Segments are resolved as they are read: a dot stands for nothing and two dots take the segment
before them away, also if they are escaped.  The first segment of a file may name a drive; the file
then has no host, and the drive is not taken away.
-/

set_option autoImplicit false

namespace Uplift.Url

/-! ## Pieces of a text -/

/-- A text divided at the query and the fragment. -/
structure Division where
  /-- What stands before the query and the fragment. -/
  main : List Char
  query : Option (List Char)
  fragment : Option (List Char)

/-- Divides a text at its first mark. -/
def divideAt (mark : Char) (text : List Char) : List Char × Option (List Char) :=
  match Text.splitOnce? mark text with
  | some (before, after) => (before, some after)
  | none => (text, none)

/-- Divides a text at the query and the fragment. -/
def Division.of (text : List Char) : Division :=
  let (rest, fragment) := divideAt '#' text
  let (main, query) := divideAt '?' rest
  ⟨main, query, fragment⟩

/-- A text without what counts for nothing. -/
def cleaned (text : List Char) : List Char :=
  let outer (c : Char) : Bool := c.toNat ≤ 0x20
  let trimmed := ((text.dropWhile outer).reverse.dropWhile outer).reverse
  trimmed.filter fun c => c ≠ '\t' && c ≠ '\n' && c ≠ '\r'

/-- The scheme at the start of a text, and what follows the colon after it. -/
def readScheme? (text : List Char) : Option (String × List Char) :=
  let allowed (c : Char) : Bool := c.isAlphanum || ['+', '-', '.'].contains c
  match text.dropWhile allowed with
  | ':' :: rest =>
    match text.takeWhile allowed with
    | c :: more =>
      if c.isAlpha then some (String.ofList ((c :: more).map Char.toLower), rest) else none
    | [] => none
  | _ => none

/-- The address with the query and the fragment of a division; it keeps its own query if the
division has none. -/
def withTail (url : Url) (division : Division) : Url :=
  let reserved (c : Char) : Bool :=
    reservedInQuery c || (c = '\'' && SchemeKind.of url.scheme ≠ .other)
  { url with
    query := match division.query with
      | some query => some (String.ofList (escape reserved query))
      | none => url.query
    fragment := division.fragment.map fun fragment =>
      String.ofList (escape reservedInFragment fragment) }

/-! ## Segments -/

/-- A text with escaped dots replaced by dots. -/
def withPlainDots : List Char → List Char
  | '%' :: '2' :: 'e' :: rest => '.' :: withPlainDots rest
  | '%' :: '2' :: 'E' :: rest => '.' :: withPlainDots rest
  | c :: rest => c :: withPlainDots rest
  | [] => []

/-- Whether a segment stands for nothing. -/
def isDot (segment : List Char) : Bool :=
  withPlainDots segment = ['.']

/-- Whether a segment takes the one before it away. -/
def isDoubleDot (segment : List Char) : Bool :=
  withPlainDots segment = ['.', '.']

/-- Whether a segment names a drive: a letter, and a colon or a bar. -/
def isDrive : List Char → Bool
  | [letter, mark] => letter.isAlpha && (mark = ':' || mark = '|')
  | _ => false

/-- The segments without the last one, which is kept if it is a drive of a file. -/
def shorten (kind : SchemeKind) (done : List String) : List String :=
  if kind = .file ∧ done.getLast?.any (fun name => isDrive name.toList) then done
  else done.dropLast

/-- A segment after those that are done, as it is written; a drive of a file has a colon. -/
def segmentText (kind : SchemeKind) (done : List String) (segment : List Char) : String :=
  if kind = .file ∧ done.isEmpty ∧ isDrive segment then String.ofList (segment.take 1 ++ [':'])
  else String.ofList (escape reservedInSegment segment)

/-- Resolves segments after those that are done.  A dot or two dots at the end leave an empty
segment. -/
def resolve (kind : SchemeKind) (done : List String) : List (List Char) → List String
  | [] => done
  | segment :: rest =>
    let ending := if rest.isEmpty then [""] else []
    if isDoubleDot segment then resolve kind (shorten kind done ++ ending) rest
    else if isDot segment then resolve kind (done ++ ending) rest
    else resolve kind (done ++ [segmentText kind done segment]) rest

/-- The pieces of a text between the characters that divide segments. -/
def pieces (kind : SchemeKind) (text : List Char) : List (List Char) :=
  Text.splitOn '/' (text.map fun c => if kind.divides c then '/' else c)

/-- Drops empty segments at the start of a file's route, except the last segment. -/
def dropLeadingEmpty : List String → List String
  | "" :: next :: rest => dropLeadingEmpty (next :: rest)
  | names => names

/-- The segments of a text after those that are done. -/
def segmentsAfter (kind : SchemeKind) (done : List String) (text : List Char) : Route :=
  let names := resolve kind done (pieces kind text)
  .segments (if kind = .file then dropLeadingEmpty names else names)

/-- The segments that follow a host. -/
def segmentsAfterHost (kind : SchemeKind) (text : List Char) : Route :=
  match text with
  | [] => if kind = .other then .segments [] else segmentsAfter kind [] []
  | c :: rest =>
    if kind.divides c then segmentsAfter kind [] rest else segmentsAfter kind [] (c :: rest)

/-! ## Hosts -/

/-- The user and the password in a text, escaped. -/
def readUser (text : List Char) : String × String :=
  let (user, password) := divideAt ':' text
  let shown (part : List Char) := String.ofList (escape reservedInUser part)
  (shown user, shown (password.getD []))

/-- The length of the host at the start of a text: up to a colon outside brackets. -/
def hostLength (bracketed : Bool) : List Char → Nat
  | [] => 0
  | c :: rest =>
    if c = ':' ∧ !bracketed then 0
    else hostLength (if c = '[' then true else if c = ']' then false else bracketed) rest + 1

/-- The number after a host, if it is not the usual one of the scheme.  A colon without a number is
allowed. -/
def readNumber (scheme : String) (text : List Char) : Except UrlError (Option Nat) :=
  match text with
  | [] => .ok none
  | _ :: digits =>
    match numeral? 10 digits with
    | none => .error .invalidPortNumber
    | some n =>
      if 65535 < n then .error .invalidPortNumber
      else .ok (if digits.isEmpty ∨ usualNumber? scheme = some n then none else some n)

/-- The address whose host, and what belongs to it, is in `authority`, and whose segments are in
`rest`. -/
def withAuthority (scheme : String) (authority rest : List Char) : Except UrlError Url := do
  let kind := SchemeKind.of scheme
  let (login, place) := match Text.splitLast? '@' authority with
    | some (login, place) => (some login, place)
    | none => (none, authority)
  let (user, password) := readUser (login.getD [])
  let length := hostLength false place
  let hostText := place.take length
  let number := place.drop length
  let needsHost := kind ≠ .other || login = some [] || user ≠ "" || password ≠ "" || !number.isEmpty
  if hostText.isEmpty && needsHost then .error .emptyHost
  else
    let host ← if kind = .other then otherHost hostText else webHost hostText
    let portNumber ← readNumber scheme number
    .ok { scheme, user, password, host := some host, portNumber,
          route := segmentsAfterHost kind rest }

/-- The address after a scheme and the slashes that announce a host. -/
def afterSlashes (scheme : String) (text : List Char) : Except UrlError Url :=
  let kind := SchemeKind.of scheme
  let inAuthority (c : Char) : Bool := !kind.divides c
  withAuthority scheme (text.takeWhile inAuthority) (text.dropWhile inAuthority)

/-! ## Addresses -/

/-- Whether a character is a slash or a backslash. -/
def isSlash (c : Char) : Bool :=
  c = '/' || c = '\\'

/-- The segments of an address; none if it is undivided. -/
def segments (url : Url) : List String :=
  match url.route with
  | .segments names => names
  | .undivided _ => []

/-- An address without its query and fragment, with other segments. -/
def withRoute (base : Url) (route : Route) : Url :=
  { base with route, query := none, fragment := none }

/-- The drive at the start of the segments of an address, if there is one. -/
def drive (url : Url) : List String :=
  (url.segments.take 1).filter fun name => isDrive name.toList

/-- Whether a text starts with a segment that names a drive. -/
def startsWithDrive (text : List Char) : Bool :=
  isDrive (text.takeWhile fun c => !isSlash c)

/-- A file without a host and without segments. -/
def plainFile : Url :=
  { scheme := "file", host := some (.name ""), route := .segments [] }

/-- The file on a host whose segments are in `rest`; a file on a drive has no host. -/
def fileOnHost (host : Host) (rest : List Char) : Url :=
  let url := { plainFile with route := segmentsAfterHost .file rest }
  if url.drive.isEmpty ∧ host ≠ .name "localhost" then { url with host := some host } else url

/-- The file whose segments follow the slash at the start of a text. -/
def fileFromRoot (base : Url) (rest : List Char) : Url :=
  if startsWithDrive rest then plainFile.withRoute (segmentsAfter .file [] rest)
  else if base.drive.isEmpty then base.withRoute (segmentsAfter .file [] rest)
  else plainFile.withRoute (segmentsAfter .file base.drive rest)

/-- The file that a text names beside another. -/
def fileBeside (base : Url) (text : List Char) : Url :=
  if startsWithDrive text then plainFile.withRoute (segmentsAfter .file [] text)
  else base.withRoute (segmentsAfter .file base.segments.dropLast text)

/-- The file that a text after the scheme names. -/
def readFile (base : Option Url) (text : List Char) : Except UrlError Url :=
  let base := base.getD plainFile
  match text with
  | a :: b :: rest =>
    if isSlash a ∧ isSlash b then
      let hostText := rest.takeWhile fun c => !isSlash c
      if isDrive hostText then .ok (fileOnHost (.name "") rest)
      else do
        let host ← if hostText.isEmpty then .ok (Host.name "") else webHost hostText
        .ok (fileOnHost host (rest.dropWhile fun c => !isSlash c))
    else if isSlash a then .ok (fileFromRoot base (b :: rest))
    else .ok (fileBeside base text)
  | [c] => .ok (if isSlash c then fileFromRoot base [] else fileBeside base text)
  | [] => .ok (if base.segments.isEmpty then base.withRoute (segmentsAfter .file [] []) else base)

/-- An address relative to a divided one; the query and the fragment are not there yet. -/
def readRelative (base : Url) (text : List Char) : Except UrlError Url :=
  let kind := SchemeKind.of base.scheme
  match text with
  | [] => .ok base
  | c :: rest =>
    if isSlash c then
      match rest with
      | d :: _ =>
        if isSlash d then
          let after := if c = '/' ∧ d = '/' then rest.drop 1 else text.dropWhile isSlash
          afterSlashes base.scheme after
        else .ok (base.withRoute (segmentsAfter kind [] rest))
      | [] => .ok (base.withRoute (segmentsAfter kind [] []))
    else .ok (base.withRoute (segmentsAfter kind base.segments.dropLast text))

/-- The address after a scheme that is neither a file's nor of the web. -/
def readOther (scheme : String) (text : List Char) : Except UrlError Url :=
  match text with
  | '/' :: '/' :: rest => afterSlashes scheme rest
  | '/' :: rest => .ok { scheme, route := segmentsAfter .other [] rest }
  | text => .ok { scheme, route := .undivided (String.ofList (escape isControl text)) }

/-- The address after a scheme. -/
def readAfterScheme (base : Option Url) (scheme : String) (text : List Char) :
    Except UrlError Url :=
  let base := base.filter fun base => base.scheme = scheme
  match SchemeKind.of scheme with
  | .file => readFile base text
  | .other => readOther scheme text
  | .web =>
    match base with
    | some base =>
      if (text.takeWhile isSlash).length < 2 then readRelative base text
      else afterSlashes scheme (text.dropWhile isSlash)
    | none => afterSlashes scheme (text.dropWhile isSlash)

/-- An address without a scheme of its own, relative to another one. -/
def readWithoutScheme (base : Url) (division : Division) : Except UrlError Url :=
  match base.route with
  | .undivided _ => .error .relativeWithUndividedBase
  | .segments _ =>
    if SchemeKind.of base.scheme = .file then readFile (some base) division.main
    else readRelative base division.main

/-- Reads an address, relative to another one if there is one. -/
def read (base : Option Url) (text : String) : Except UrlError Url := do
  let division := Division.of (cleaned text.toList)
  match readScheme? division.main, base with
  | some (scheme, rest), base => .ok ((← readAfterScheme base scheme rest).withTail division)
  | none, none => .error .relativeWithoutBase
  | none, some base =>
    if division.main.isEmpty ∧ division.query.isNone ∧ division.fragment.isSome then
      .ok (base.withTail division)
    else .ok ((← readWithoutScheme base division).withTail division)

/-- Reads an address that stands alone. -/
def parse (text : String) : Except UrlError Url :=
  read none text

/-- Reads an address relative to another one. -/
def join (base : Url) (text : String) : Except UrlError Url :=
  read (some base) text

end Uplift.Url
