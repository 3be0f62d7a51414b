import Uplift.Text.Search
import Uplift.Url.Percent
import Uplift.Url.Punycode

/-!
# Hosts

A host is a name, or a number of 32 bits, or eight numbers of 16 bits.  Names are written in small
ASCII letters.  A name whose last label is a number is an address of 32 bits or nothing.  Addresses
have one text each: four decimal numbers, or up to eight hexadecimal ones in brackets, of which the
longest run of zeros is left out.
-/

set_option autoImplicit false

namespace Uplift

/-- Why a text is no address. -/
inductive UrlError where
  | emptyHost
  | invalidName
  | invalidPortNumber
  | invalidIpv4Address
  | invalidIpv6Address
  | invalidHostCharacter
  | relativeWithoutBase
  | relativeWithUndividedBase
  deriving DecidableEq, Repr

/-- The wording of an error. -/
def UrlError.message : UrlError → String
  | .emptyHost => "empty host"
  | .invalidName => "invalid international domain name"
  | .invalidPortNumber => "invalid port number"
  | .invalidIpv4Address => "invalid IPv4 address"
  | .invalidIpv6Address => "invalid IPv6 address"
  | .invalidHostCharacter => "invalid domain character"
  | .relativeWithoutBase => "relative URL without a base"
  | .relativeWithUndividedBase => "relative URL with a cannot-be-a-base base"

namespace Url

/-- A host. -/
inductive Host where
  | name (text : String)
  | ipv4 (address : Nat)
  /-- The eight pieces of an address. -/
  | ipv6 (pieces : List Nat)
  deriving DecidableEq, Repr

/-! ## Text -/

/-- The length of the run of zeros at the start of a list. -/
def zerosAtStart (pieces : List Nat) : Nat :=
  (pieces.takeWhile (· = 0)).length

/-- The start and the length of the longest run of zeros, the first of several. -/
def longestZeros (pieces : List Nat) : Nat × Nat :=
  (List.range pieces.length).foldl (fun best start =>
    let length := zerosAtStart (pieces.drop start)
    if best.2 < length then (start, length) else best) (0, 0)

/-- Pieces with colons between them. -/
def piecesText (pieces : List Nat) : String :=
  ":".intercalate (pieces.map fun piece => String.ofList (Nat.toDigits 16 piece))

/-- The text of a host. -/
def Host.text : Host → String
  | .name text => text
  | .ipv4 address =>
    ".".intercalate ([24, 16, 8, 0].map fun shift => toString (address / Nat.pow 2 shift % 256))
  | .ipv6 pieces =>
    let (start, length) := longestZeros pieces
    if length < 2 then "[" ++ piecesText pieces ++ "]"
    else
      let later := pieces.drop (start + length)
      "[" ++ piecesText (pieces.take start) ++ "::" ++ piecesText later ++ "]"

/-! ## Numbers -/

/-- The number that digits of a base spell. -/
def numeral? (base : Nat) (digits : List Char) : Option Nat :=
  digits.foldlM (fun value c => do
    let digit ← hexValue? c
    if digit < base then some (value * base + digit) else none) 0

/-- A part of an address of 32 bits: hexadecimal after `0x`, octal after `0`, otherwise decimal. -/
def ipv4Number? : List Char → Option Nat
  | [] => none
  | '0' :: 'x' :: digits => numeral? 16 digits
  | '0' :: 'X' :: digits => numeral? 16 digits
  | '0' :: c :: digits => numeral? 8 (c :: digits)
  | digits => numeral? 10 digits

/-- The labels of a name without the empty one after a final dot. -/
def labelsOf (name : List Char) : List (List Char) :=
  let labels := Text.splitOn '.' name
  match labels.getLast? with
  | some [] => if labels.length = 1 then labels else labels.dropLast
  | _ => labels

/-- Whether a name has to be an address of 32 bits. -/
def endsInNumber (name : List Char) : Bool :=
  match (labelsOf name).getLast? with
  | some label =>
    (!label.isEmpty && label.all Char.isDigit) || (ipv4Number? label).isSome
  | none => false

/-- The address of 32 bits that a name is: the last part fills all bytes that are left. -/
def ipv4? (name : List Char) : Option Nat := do
  let labels := labelsOf name
  let numbers ← labels.mapM ipv4Number?
  let last ← numbers.getLast?
  let leading := numbers.dropLast
  if 4 < numbers.length ∨ leading.any (255 < ·) ∨ Nat.pow 256 (4 - leading.length) ≤ last then none
  else
    let high := (leading ++ List.replicate (4 - leading.length) 0).foldl (· * 256 + ·) 0
    some (high + last)

/-- A piece of an address of 128 bits: one to four hexadecimal digits. -/
def ipv6Piece? (digits : List Char) : Option Nat :=
  if digits.isEmpty ∨ 4 < digits.length then none else numeral? 16 digits

/-- A byte in decimal, without zeros before it. -/
def decimalByte? (digits : List Char) : Option Nat :=
  match digits with
  | [] => none
  | '0' :: _ :: _ => none
  | digits => (numeral? 10 digits).filter (· ≤ 255)

/-- The last part of an address, which may be four bytes that make two pieces. -/
def ipv6End? (part : List Char) : Option (List Nat) :=
  match (Text.splitOn '.' part).mapM decimalByte? with
  | some [a, b, c, d] => some [a * 256 + b, c * 256 + d]
  | _ => (ipv6Piece? part).map fun piece => [piece]

/-- Pieces between colons. -/
def ipv6Pieces? (text : List Char) : Option (List Nat) :=
  if text.isEmpty then some []
  else do
    let parts := Text.splitOn ':' text
    let leading ← parts.dropLast.mapM ipv6Piece?
    let last ← ipv6End? (parts.getLast?.getD [])
    some (leading ++ last)

/-- The text before the first two colons in a row, and the text after them. -/
def splitGap? : List Char → Option (List Char × List Char)
  | ':' :: ':' :: rest => some ([], rest)
  | c :: rest => (splitGap? rest).map fun (before, after) => (c :: before, after)
  | [] => none

/-- The address of 128 bits that a text is; two colons in a row stand for one zero or more. -/
def ipv6? (text : List Char) : Option (List Nat) :=
  match splitGap? text with
  | none => (ipv6Pieces? text).filter fun pieces => pieces.length = 8
  | some (before, after) => do
    if before.contains '.' then none
    else
      let before ← ipv6Pieces? before
      let after ← ipv6Pieces? after
      if before.length + after.length ≤ 7 then
        some (before ++ List.replicate (8 - before.length - after.length) 0 ++ after)
      else none

/-! ## Names -/

/-- What may not stand in a name. -/
def forbiddenInName (c : Char) : Bool :=
  c.toNat ≤ 0x20 || c.toNat = 0x7F ||
    ['%', '#', '/', ':', '<', '>', '?', '@', '[', '\\', ']', '^', '|'].contains c

/-- What may not stand in a name outside ASCII: controls, private characters and the replacement
character. -/
def forbiddenOutsideAscii (c : Char) : Bool :=
  (0x80 ≤ c.toNat && c.toNat < 0xA0) || (0xE000 ≤ c.toNat && c.toNat < 0xF900) ||
    c.toNat = 0xFFFD || 0xF0000 ≤ c.toNat

/-- A character that is a number of places further on. -/
def shifted (c : Char) (distance : Nat) : List Char :=
  [Char.ofNat (c.toNat + distance)]

/-- What a character of a name is written as.  Capitals of the Latin, Greek and Cyrillic alphabets
become small letters, wide forms of ASCII become ASCII, the full stops of other scripts become
dots, and characters without a form are left out.  Of the mapping of UTS 46 this is a part: capitals
of other scripts stay as they are, and nothing is composed or decomposed. -/
def foldCharacter (c : Char) : List Char :=
  let n := c.toNat
  let within (low high : Nat) : Bool := low ≤ n && n ≤ high
  if within 0x41 0x5A then shifted c 32
  else if n < 0x80 then [c]
  else if n = 0xAD ∨ n = 0x200B ∨ n = 0x2060 ∨ n = 0xFEFF ∨ within 0xFE00 0xFE0F then []
  else if n = 0x3002 ∨ n = 0xFF61 then ['.']
  else if n = 0xA0 ∨ n = 0x3000 ∨ within 0x2000 0x200A then [' ']
  else if within 0xFF21 0xFF3A then [Char.ofNat (n - 0xFEE0 + 32)]
  else if within 0xFF01 0xFF5E then [Char.ofNat (n - 0xFEE0)]
  else if n = 0xAA then ['a'] else if n = 0xBA then ['o']
  else if n = 0xB2 then ['2'] else if n = 0xB3 then ['3'] else if n = 0xB9 then ['1']
  else if within 0xC0 0xDE ∧ n ≠ 0xD7 then shifted c 32
  else if n = 0x178 then [Char.ofNat 0xFF]
  else if (within 0x100 0x137 ∨ within 0x14A 0x177) ∧ n % 2 = 0 then shifted c 1
  else if (within 0x139 0x148 ∨ within 0x179 0x17D) ∧ n % 2 = 1 then shifted c 1
  else if n = 0x386 then shifted c 38
  else if within 0x388 0x38A then shifted c 37
  else if n = 0x38C then shifted c 64
  else if within 0x38E 0x38F then shifted c 63
  else if within 0x391 0x3AB ∧ n ≠ 0x3A2 then shifted c 32
  else if within 0x400 0x40F then shifted c 80
  else if within 0x410 0x42F then shifted c 32
  else [c]

/-- What labels in ASCII that stand for others start with. -/
def asciiMark : List Char := "xn--".toList

/-- A label in ASCII.  A label that claims to stand for another has to stand for one that is
written in no other way. -/
def asciiLabel? (label : List Char) : Option (List Char) :=
  if label.any (0x80 ≤ ·.toNat) then
    if label.any forbiddenOutsideAscii then none else some (asciiMark ++ Punycode.encode label)
  else
    match Text.stripPrefix? asciiMark label with
    | none => some label
    | some rest => do
      let meant ← Punycode.decode? rest
      if meant.any (0x80 ≤ ·.toNat) ∧ !meant.any forbiddenOutsideAscii ∧
          meant.flatMap foldCharacter = meant then some label
      else none

/-- A name in ASCII. -/
def asciiName? (name : List Char) : Option (List Char) := do
  let folded := name.flatMap foldCharacter
  if folded.any forbiddenInName then none
  else
    let labels ← (Text.splitOn '.' folded).mapM asciiLabel?
    some (['.'].intercalate labels)

/-! ## Reading -/

/-- The address of 128 bits in brackets; `text` starts with the opening one. -/
def bracketedHost (text : List Char) : Except UrlError Host :=
  match text.getLast? with
  | some ']' =>
    match ipv6? (text.drop 1).dropLast with
    | some pieces => .ok (.ipv6 pieces)
    | none => .error .invalidIpv6Address
  | _ => .error .invalidIpv6Address

/-- The host that a text names on the web. -/
def webHost (text : List Char) : Except UrlError Host :=
  if text.head? = some '[' then bracketedHost text
  else
    match (Text.decode? ⟨(unescape text).toArray⟩).bind fun name => asciiName? name.toList with
    | none => .error .invalidName
    | some name =>
      if name.isEmpty then .error .emptyHost
      else if endsInNumber name then
        match ipv4? name with
        | some address => .ok (.ipv4 address)
        | none => .error .invalidIpv4Address
      else .ok (.name (String.ofList name))

/-- What may not stand in a host that is no web host. -/
def forbiddenInHost (c : Char) : Bool :=
  ['\x00', '\t', '\n', '\r', ' ', '#', '/', ':', '<', '>', '?', '@', '[', '\\', ']', '^',
    '|'].contains c

/-- The host that a text names elsewhere: it is not interpreted. -/
def otherHost (text : List Char) : Except UrlError Host :=
  if text.head? = some '[' then bracketedHost text
  else if text.any forbiddenInHost then .error .invalidHostCharacter
  else .ok (.name (String.ofList (escape isControl text)))

end Url

end Uplift
