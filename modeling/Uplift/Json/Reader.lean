import Uplift.Text.Utf8
import Uplift.Json.Value

/-!
# Reading JSON

The reader goes from left to right and stops at the first fault.  Each function takes what is left
of the input and returns what it leaves; a fault carries the number of bytes that remain at the
place it is reported for, from which `Fault.locate` computes line and column.  Two conventions
give that place: a fault about the unit that comes next counts its first byte as read (`atNext`),
and one about what was just read does not (`atHere`).

Nesting is bounded: the recursion of `readValue` is on the number of levels still allowed, so the
limit and the termination argument are the same number.
-/

set_option autoImplicit false

namespace Uplift.Json

open Uplift.Text (Symbol)

/-! ## Faults -/

/-- Why a text is not a JSON document. -/
inductive Cause where
  | endInValue
  | endInList
  | endInObject
  | endInString
  | expectedValue
  | expectedIdent
  | expectedColon
  | expectedCommaOrBrace
  | expectedCommaOrBracket
  | keyNotString
  | trailingComma
  | trailingCharacters
  | invalidNumber
  | numberOutOfRange
  | invalidEscape
  | endOfHexEscape
  | loneSurrogate
  | controlCharacter
  | invalidUnicode
  | tooDeep
  /-- The text is JSON, but not of the shape asked for. -/
  | shape (description : String)
  deriving DecidableEq, Repr

/-- The wording of a cause. -/
def Cause.message : Cause → String
  | .endInValue => "EOF while parsing a value"
  | .endInList => "EOF while parsing a list"
  | .endInObject => "EOF while parsing an object"
  | .endInString => "EOF while parsing a string"
  | .expectedValue => "expected value"
  | .expectedIdent => "expected ident"
  | .expectedColon => "expected `:`"
  | .expectedCommaOrBrace => "expected `,` or `\x7d`"
  | .expectedCommaOrBracket => "expected `,` or `]`"
  | .keyNotString => "key must be a string"
  | .trailingComma => "trailing comma"
  | .trailingCharacters => "trailing characters"
  | .invalidNumber => "invalid number"
  | .numberOutOfRange => "number out of range"
  | .invalidEscape => "invalid escape"
  | .endOfHexEscape => "unexpected end of hex escape"
  | .loneSurrogate => "lone leading surrogate in hex escape"
  | .controlCharacter => "control character (\\u0000-\\u001F) found while parsing a string"
  | .invalidUnicode => "invalid unicode code point"
  | .tooDeep => "recursion limit exceeded"
  | .shape description => description

/-- A fault within a text, placed by the number of bytes that follow it. -/
structure Fault where
  cause : Cause
  remaining : Nat
  deriving DecidableEq, Repr

/-- A fault with its line and column. -/
structure Error where
  cause : Cause
  line : Nat
  column : Nat
  deriving DecidableEq, Repr

/-- The wording of an error. -/
def Error.message (error : Error) : String :=
  s!"{error.cause.message} at line {error.line} column {error.column}"

/-- The number of bytes of an input. -/
def byteLength (input : List Symbol) : Nat :=
  input.foldr (fun symbol total => symbol.width + total) 0

/-- Line and column of the place `offset` bytes into the input.  Lines count from one, and the
column is the number of bytes since the last line feed. -/
def position (offset : Nat) : Nat → Nat → List Symbol → Nat × Nat
  | line, column, [] => (line, column)
  | line, column, unit :: rest =>
    if offset ≤ unit.width then
      if unit.isChar '\n' ∧ offset = 1 then (line + 1, 0)
      else (line, column + offset)
    else if unit.isChar '\n' then position (offset - unit.width) (line + 1) 0 rest
    else position (offset - unit.width) line (column + unit.width) rest

/-- Places a fault in the input it was found in. -/
def Fault.locate (fault : Fault) (input : List Symbol) : Error :=
  let offset := byteLength input - fault.remaining
  let (line, column) := if offset = 0 then (1, 0) else position offset 1 0 input
  ⟨fault.cause, line, column⟩

/-- A fault about what was just read, before `rest`. -/
def atHere {α : Type} (cause : Cause) (rest : List Symbol) : Except Fault α :=
  .error ⟨cause, byteLength rest⟩

/-- A fault about the unit that `rest` starts with. -/
def atNext {α : Type} (cause : Cause) (rest : List Symbol) : Except Fault α :=
  .error ⟨cause, byteLength rest - 1⟩

/-! ## Blanks and words -/

/-- The four characters that may stand between tokens. -/
def isSpace : Symbol → Bool
  | .char c => c = ' ' || c = '\n' || c = '\t' || c = '\r'
  | .stray _ => false

/-- Skips the blanks before the next token. -/
def skipSpace (input : List Symbol) : List Symbol :=
  input.dropWhile isSpace

/-- Reads the rest of a fixed word. -/
def readWord : List Char → List Symbol → Except Fault (List Symbol)
  | [], rest => .ok rest
  | _ :: _, [] => atHere .endInValue []
  | c :: word, unit :: rest =>
    if unit.isChar c then readWord word rest else atNext .expectedIdent (unit :: rest)

/-! ## Strings -/

/-- The value of a hexadecimal digit. -/
def hexValue? : Symbol → Option Nat
  | .char c =>
    if c.isDigit then some (c.toNat - 48)
    else if 'a' ≤ c ∧ c ≤ 'f' then some (c.toNat - 87)
    else if 'A' ≤ c ∧ c ≤ 'F' then some (c.toNat - 55)
    else none
  | .stray _ => none

/-- Reads the four hexadecimal digits of an escape. -/
def readHex (input : List Symbol) : Except Fault (Nat × List Symbol) :=
  if byteLength input < 4 then atHere .endInString []
  else
    match input with
    | a :: b :: c :: d :: rest =>
      match hexValue? a, hexValue? b, hexValue? c, hexValue? d with
      | some a, some b, some c, some d => .ok (((a * 16 + b) * 16 + c) * 16 + d, rest)
      | _, _, _, _ => .error ⟨.invalidEscape, byteLength input - 4⟩
    | _ => .error ⟨.invalidEscape, byteLength input - 4⟩

/-- Reads what follows `\u`: one code unit, or the two of a surrogate pair. -/
def readUnicode (input : List Symbol) : Except Fault (Char × List Symbol) := do
  let (unit, rest) ← readHex input
  if 0xDC00 ≤ unit ∧ unit ≤ 0xDFFF then atHere .loneSurrogate rest
  else if unit < 0xD800 ∨ 0xDBFF < unit then pure (Char.ofNat unit, rest)
  else
    match rest with
    | [] => atHere .endInString []
    | .char '\\' :: [] => atHere .endInString []
    | .char '\\' :: .char 'u' :: rest =>
      let (second, rest) ← readHex rest
      if second < 0xDC00 ∨ 0xDFFF < second then atHere .loneSurrogate rest
      else pure (Char.ofNat ((unit - 0xD800) * 1024 + (second - 0xDC00) + 0x10000), rest)
    | .char '\\' :: rest => atNext .endOfHexEscape rest
    | rest => atNext .endOfHexEscape rest

/-- Reads an escape, after its backslash. -/
def readEscape : List Symbol → Except Fault (Char × List Symbol)
  | [] => atHere .endInString []
  | .char 'u' :: rest => readUnicode rest
  | .char '"' :: rest => .ok ('"', rest)
  | .char '\\' :: rest => .ok ('\\', rest)
  | .char '/' :: rest => .ok ('/', rest)
  | .char 'b' :: rest => .ok (Char.ofNat 8, rest)
  | .char 'f' :: rest => .ok (Char.ofNat 12, rest)
  | .char 'n' :: rest => .ok ('\n', rest)
  | .char 'r' :: rest => .ok ('\r', rest)
  | .char 't' :: rest => .ok ('\t', rest)
  | rest => atNext .invalidEscape rest

/-- Reads the characters of a string up to its closing quote.  `sound` tells whether no stray byte
was met; a string with one is refused once it is complete. -/
def readChars : Nat → Bool → List Char → List Symbol → Except Fault (String × List Symbol)
  | 0, _, _, rest => atHere .endInString rest
  | _ + 1, _, _, [] => atHere .endInString []
  | fuel + 1, sound, done, .stray _ :: rest => readChars fuel (sound && false) done rest
  | fuel + 1, sound, done, .char c :: rest =>
    if c = '"' then
      if sound then .ok (String.ofList done.reverse, rest) else atHere .invalidUnicode rest
    else if c = '\\' then
      match readEscape rest with
      | .ok (c, rest) => readChars fuel sound (c :: done) rest
      | .error fault => .error fault
    else if c.toNat < 32 then atHere .controlCharacter rest
    else readChars fuel sound (c :: done) rest

/-- Reads a string, after its opening quote. -/
def readString (input : List Symbol) : Except Fault (String × List Symbol) :=
  readChars (input.length + 1) true [] input

/-! ## Numbers -/

/-- The value of a decimal digit. -/
def digit? : Symbol → Option Nat
  | .char c => if c.isDigit then some (c.toNat - 48) else none
  | .stray _ => none

/-- The digits an input starts with, and the rest. -/
def takeDigits : List Symbol → List Nat × List Symbol
  | [] => ([], [])
  | unit :: rest =>
    match digit? unit with
    | some d => let (digits, rest) := takeDigits rest; (d :: digits, rest)
    | none => ([], unit :: rest)

/-- The largest significand. -/
def maxSignificand : Nat := 0xFFFFFFFFFFFFFFFF

/-- Appends digits to a significand as long as it fits in 64 bits; the others are left over. -/
def absorb (significand : Nat) : List Nat → Nat × List Nat
  | [] => (significand, [])
  | d :: digits =>
    if significand * 10 + d ≤ maxSignificand then absorb (significand * 10 + d) digits
    else (significand, d :: digits)

/-- Scales a double by a power of ten, in one step if the power is a finite double.  No result
means overflow. -/
def scale : Nat → Float → Int → Option Float
  | 0, f, _ => some f
  | fuel + 1, f, exponent =>
    if exponent.natAbs ≤ 308 then
      let power := Float.ofScientific 1 false exponent.natAbs
      if 0 ≤ exponent then
        let product := f * power
        if product.isInf then none else some product
      else some (f / power)
    else if f == 0.0 then some f
    else if 0 ≤ exponent then none
    else scale fuel (f / Float.ofScientific 1 false 308) (exponent + 308)

/-- The double of a significand and a decimal exponent. -/
def toDouble (negative : Bool) (significand : Nat) (exponent : Int) (rest : List Symbol) :
    Except Fault (Number × List Symbol) :=
  match scale (exponent.natAbs / 308 + 2) significand.toUInt64.toFloat exponent with
  | some f => .ok (.double (if negative then -f else f).toBits, rest)
  | none => atHere .numberOutOfRange rest

/-- Reads the digits of an exponent as long as they fit in 31 bits; none if they do not, with what
follows the digit that was too much. -/
def readExponentDigits : Nat → List Symbol → Except (List Symbol) (Nat × List Symbol)
  | exponent, [] => .ok (exponent, [])
  | exponent, unit :: rest =>
    match digit? unit with
    | some d =>
      if exponent * 10 + d < 0x80000000 then readExponentDigits (exponent * 10 + d) rest
      else .error rest
    | none => .ok (exponent, unit :: rest)

/-- Keeps a number within 32 signed bits. -/
def saturate (n : Int) : Int :=
  max (-0x80000000) (min 0x7FFFFFFF n)

/-- Reads an exponent, after its letter. -/
def readExponent (negative : Bool) (significand : Nat) (start : Int) (input : List Symbol) :
    Except Fault (Number × List Symbol) :=
  let (down, rest) := match input with
    | .char '+' :: rest => (false, rest)
    | .char '-' :: rest => (true, rest)
    | rest => (false, rest)
  match rest with
  | [] => atHere .endInValue []
  | unit :: _ =>
    match digit? unit with
    | none => atNext .invalidNumber rest
    | some _ =>
      match readExponentDigits 0 rest with
      | .ok (exponent, rest) =>
        let exponent := if down then start - exponent else start + exponent
        toDouble negative significand (saturate exponent) rest
      | .error rest =>
        if significand ≠ 0 ∧ down = false then atHere .numberOutOfRange rest
        else
          let zero : Float := if negative then -0.0 else 0.0
          .ok (.double zero.toBits, (takeDigits rest).2)

/-- Reads what may follow the digits of a number that is no integer any more. -/
def readScaled (negative : Bool) (significand : Nat) (exponent : Int) (input : List Symbol) :
    Except Fault (Number × List Symbol) :=
  match input with
  | .char 'e' :: rest => readExponent negative significand exponent rest
  | .char 'E' :: rest => readExponent negative significand exponent rest
  | rest => toDouble negative significand exponent rest

/-- Reads the fraction of a number, after its point. -/
def readFraction (negative : Bool) (significand : Nat) (exponent : Int) (input : List Symbol) :
    Except Fault (Number × List Symbol) :=
  let (digits, rest) := takeDigits input
  match digits with
  | [] =>
    match rest with
    | [] => atHere .endInValue []
    | _ => atNext .invalidNumber rest
  | _ =>
    let (significand, left) := absorb significand digits
    readScaled negative significand (exponent - ((digits.length - left.length : Nat) : Int)) rest

/-- An integer, unless its sign and size or the form `-0` make it a double. -/
def ofSignificand (negative : Bool) (significand : Nat) : Number :=
  if negative then
    if significand = 0 ∨ 0x8000000000000000 < significand then
      .double (-significand.toUInt64.toFloat).toBits
    else .integer (-significand)
  else .integer significand

/-- Reads a number, after its sign. -/
def readNumber (negative : Bool) (input : List Symbol) : Except Fault (Number × List Symbol) :=
  let (digits, rest) := takeDigits input
  match digits with
  | [] =>
    match rest with
    | [] => atHere .endInValue []
    | _ => atNext .invalidNumber rest
  | 0 :: _ :: _ => atNext .invalidNumber (input.drop 1)
  | _ =>
    let (significand, left) := absorb 0 digits
    match rest with
    | .char '.' :: rest => readFraction negative significand left.length rest
    | .char 'e' :: rest => readExponent negative significand left.length rest
    | .char 'E' :: rest => readExponent negative significand left.length rest
    | _ =>
      if left.isEmpty then .ok (ofSignificand negative significand, rest)
      else toDouble negative significand left.length rest

/-! ## Values -/

/-- Reads something from an input and leaves the rest. -/
abbrev Reader (α : Type) := List Symbol → Except Fault (α × List Symbol)

/-- Reads the items of a list up to its closing bracket. -/
def readItems {α : Type} (item : Reader α) : Nat → List α → Reader (List α)
  | 0, _, rest => atHere .endInList rest
  | fuel + 1, done, input => do
    let next (rest : List Symbol) : Except Fault (List α × List Symbol) := do
      let (value, rest) ← item rest
      readItems item fuel (value :: done) rest
    match skipSpace input with
    | [] => atHere .endInList []
    | .char ']' :: rest => pure (done.reverse, rest)
    | unit :: rest =>
      if done.isEmpty then next (unit :: rest)
      else if unit.isChar ',' then
        match skipSpace rest with
        | [] => atHere .endInValue []
        | .char ']' :: rest => atNext .trailingComma (.char ']' :: rest)
        | rest => next rest
      else atNext .expectedCommaOrBracket (unit :: rest)

/-- Reads the colon after a key. -/
def readColon (input : List Symbol) : Except Fault (List Symbol) :=
  match skipSpace input with
  | [] => atHere .endInObject []
  | .char ':' :: rest => .ok rest
  | rest => atNext .expectedColon rest

/-- Reads the fields of an object up to its closing brace.  `member` reads what follows a key,
given what the fields before it made; `first` tells whether no field came before. -/
def readMembers {α : Type} (member : String → α → Reader α) : Nat → Bool → α → Reader α
  | 0, _, _, rest => atHere .endInObject rest
  | fuel + 1, first, state, input => do
    let next (rest : List Symbol) : Except Fault (α × List Symbol) := do
      let (key, rest) ← readString rest
      let (state, rest) ← member key state rest
      readMembers member fuel false state rest
    match skipSpace input with
    | [] => atHere .endInObject []
    | .char '}' :: rest => pure (state, rest)
    | unit :: rest =>
      if first then
        if unit.isChar '"' then next rest else atNext .keyNotString (unit :: rest)
      else if unit.isChar ',' then
        match skipSpace rest with
        | [] => atHere .endInValue []
        | .char '"' :: rest => next rest
        | .char '}' :: rest => atNext .trailingComma (.char '}' :: rest)
        | rest => atNext .keyNotString rest
      else atNext .expectedCommaOrBrace (unit :: rest)

/-- Reads a value that may hold `depth - 1` levels of lists and objects. -/
def readValue : Nat → Reader Value
  | 0, input => atNext .tooDeep (skipSpace input)
  | depth + 1, input =>
    match skipSpace input with
    | [] => atHere .endInValue []
    | .char 'n' :: rest => do pure (.null, ← readWord "ull".toList rest)
    | .char 't' :: rest => do pure (.bool true, ← readWord "rue".toList rest)
    | .char 'f' :: rest => do pure (.bool false, ← readWord "alse".toList rest)
    | .char '-' :: rest => do
      let (number, rest) ← readNumber true rest
      pure (.number number, rest)
    | .char '"' :: rest => do
      let (text, rest) ← readString rest
      pure (.string text, rest)
    | .char '[' :: rest =>
      if depth = 0 then atNext .tooDeep (.char '[' :: rest)
      else do
        let (items, rest) ← readItems (readValue depth) (rest.length + 1) [] rest
        pure (.array items, rest)
    | .char '{' :: rest =>
      if depth = 0 then atNext .tooDeep (.char '{' :: rest)
      else do
        let member (key : String) (fields : Fields) : Reader Fields := fun rest => do
          let (value, rest) ← readValue depth (← readColon rest)
          pure (fields.insert key value, rest)
        let (fields, rest) ← readMembers member (rest.length + 1) true [] rest
        pure (.object fields, rest)
    | unit :: rest =>
      if (digit? unit).isSome then do
        let (number, rest) ← readNumber false (unit :: rest)
        pure (.number number, rest)
      else atNext .expectedValue (unit :: rest)

/-- The number of nested levels at which reading gives up. -/
def depthLimit : Nat := 128

/-- Nothing but blanks may follow a document. -/
def readEnd (input : List Symbol) : Except Fault Unit :=
  match skipSpace input with
  | [] => .ok ()
  | rest => atNext .trailingCharacters rest

/-- Runs a reader on a whole document. -/
def readDocument {α : Type} (reader : Reader α) (input : List Symbol) : Except Error α :=
  match (do let (value, rest) ← reader input; readEnd rest; pure value : Except Fault α) with
  | .ok value => .ok value
  | .error fault => .error (fault.locate input)

/-- The value of a document. -/
def parseSymbols (input : List Symbol) : Except Error Value :=
  readDocument (readValue depthLimit) input

/-- The value that a text spells. -/
def parse (text : String) : Except Error Value :=
  parseSymbols (text.toList.map .char)

/-- The value that bytes spell. -/
def parseBytes (bytes : ByteArray) : Except Error Value :=
  parseSymbols (Text.symbols bytes)

end Uplift.Json
