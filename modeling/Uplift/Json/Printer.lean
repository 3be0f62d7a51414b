import Uplift.Decimal.Shortest
import Uplift.Json.Value

/-!
# Writing JSON

Two layouts: a compact one on a single line, and an indented one with two blanks per level, where
an empty array or object stays on one line.  Within strings only the quote, the backslash and the
control characters below U+0020 are escaped; every other character is written as itself.
-/

set_option autoImplicit false

namespace Uplift.Json

/-- One hexadecimal digit, in lower case. -/
def hexDigit (n : Nat) : Char :=
  Nat.digitChar n

/-- A character inside a string literal. -/
def escape (c : Char) : List Char :=
  if c = '"' then ['\\', '"']
  else if c = '\\' then ['\\', '\\']
  else if c.toNat = 8 then ['\\', 'b']
  else if c.toNat = 9 then ['\\', 't']
  else if c.toNat = 10 then ['\\', 'n']
  else if c.toNat = 12 then ['\\', 'f']
  else if c.toNat = 13 then ['\\', 'r']
  else if c.toNat < 32 then
    ['\\', 'u', '0', '0', hexDigit (c.toNat / 16), hexDigit (c.toNat % 16)]
  else [c]

/-- A string literal. -/
def quote (text : String) : List Char :=
  '"' :: text.toList.flatMap escape ++ ['"']

/-- An integer in decimal. -/
def printInteger (n : Int) : List Char :=
  match n with
  | .ofNat n => Nat.toDigits 10 n
  | .negSucc n => '-' :: Nat.toDigits 10 (n + 1)

/-- How a decimal is laid out: plainly from `10^-5` up to below `10^16`, always with a point and a
digit after it, and otherwise with an exponent that carries its sign. -/
def printScientific (decimal : Decimal.Scientific) : List Char :=
  let all := Nat.toDigits 10 decimal.digits
  let stripped := (all.reverse.dropWhile (· = '0')).reverse
  let digits := if stripped.isEmpty then ['0'] else stripped
  let exponent := decimal.exponent
  if exponent < -5 ∨ 15 < exponent then
    let sign := if exponent < 0 then '-' else '+'
    let fraction := match digits.drop 1 with
      | [] => []
      | more => '.' :: more
    digits.take 1 ++ fraction ++ 'e' :: sign :: Nat.toDigits 10 exponent.natAbs
  else if exponent < 0 then
    '0' :: '.' :: List.replicate (exponent.natAbs - 1) '0' ++ digits
  else
    let whole := exponent.toNat + 1
    let padded := digits ++ List.replicate (whole - digits.length) '0'
    let fraction := digits.drop whole
    padded.take whole ++ '.' :: (if fraction.isEmpty then ['0'] else fraction)

/-- A double in its shortest form; zero keeps its sign. -/
def printDouble (bits : UInt64) : List Char :=
  let sign := if bits >>> 63 = 1 then ['-'] else []
  if bits <<< 1 = 0 then sign ++ ['0', '.', '0']
  else sign ++ printScientific (Decimal.shortest bits)

/-- A number. -/
def printNumber : Number → List Char
  | .integer n => printInteger n
  | .double bits => printDouble bits

/-- A line break and the indentation of a level. -/
def newline (level : Nat) : List Char :=
  '\n' :: List.replicate (2 * level) ' '

mutual

/-- The indented layout of a value that starts at a level. -/
def pretty (level : Nat) : Value → List Char
  | .null => "null".toList
  | .bool true => "true".toList
  | .bool false => "false".toList
  | .number n => printNumber n
  | .string text => quote text
  | .array [] => ['[', ']']
  | .array (item :: items) =>
    '[' :: newline (level + 1) ++ pretty (level + 1) item ++ prettyItems (level + 1) items ++
      newline level ++ [']']
  | .object [] => ['{', '}']
  | .object ((key, value) :: fields) =>
    '{' :: newline (level + 1) ++ quote key ++ ':' :: ' ' :: pretty (level + 1) value ++
      prettyFields (level + 1) fields ++ newline level ++ ['}']
termination_by structural value => value

/-- The items after the first, each after its comma. -/
def prettyItems (level : Nat) : List Value → List Char
  | [] => []
  | item :: items => ',' :: newline level ++ pretty level item ++ prettyItems level items
termination_by structural items => items

/-- The fields after the first, each after its comma. -/
def prettyFields (level : Nat) : List (String × Value) → List Char
  | [] => []
  | (key, value) :: fields =>
    ',' :: newline level ++ quote key ++ ':' :: ' ' :: pretty level value ++
      prettyFields level fields
termination_by structural fields => fields

end

mutual

/-- The layout on one line, without blanks. -/
def compact : Value → List Char
  | .null => "null".toList
  | .bool true => "true".toList
  | .bool false => "false".toList
  | .number n => printNumber n
  | .string text => quote text
  | .array [] => ['[', ']']
  | .array (item :: items) => '[' :: compact item ++ compactItems items ++ [']']
  | .object [] => ['{', '}']
  | .object ((key, value) :: fields) =>
    '{' :: quote key ++ ':' :: compact value ++ compactFields fields ++ ['}']
termination_by structural value => value

/-- The items after the first, each after its comma. -/
def compactItems : List Value → List Char
  | [] => []
  | item :: items => ',' :: compact item ++ compactItems items
termination_by structural items => items

/-- The fields after the first, each after its comma. -/
def compactFields : List (String × Value) → List Char
  | [] => []
  | (key, value) :: fields => ',' :: quote key ++ ':' :: compact value ++ compactFields fields
termination_by structural fields => fields

end

/-- A value in the indented layout. -/
def Value.render (value : Value) : String :=
  String.ofList (pretty 0 value)

/-- A value on one line. -/
def Value.renderCompact (value : Value) : String :=
  String.ofList (compact value)

end Uplift.Json
