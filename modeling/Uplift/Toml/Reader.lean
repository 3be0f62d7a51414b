import Uplift.Text.Search
import Uplift.Toml.Value

/-!
# Reading TOML

A document is a list of lines, each of which defines a key or opens a table.  Readers take the
characters that remain and give what they read with what then remains, or nothing if the text is
not TOML.
-/

set_option autoImplicit false

namespace Uplift.Toml

/-- Reads something from the start of a text. -/
abbrev Reader (α : Type) := List Char → Option (α × List Char)

/-! ## Blanks and comments -/

/-- Whether a character may not stand in a document as it is. -/
def isControl (c : Char) : Bool :=
  (c.toNat < 32 && c != '\t') || c.toNat = 127

/-- Skips blanks. -/
def skipBlanks (text : List Char) : List Char :=
  text.dropWhile fun c => c = ' ' || c = '\t'

/-- What follows a line end. -/
def lineEnd? : List Char → Option (List Char)
  | '\n' :: rest => some rest
  | '\r' :: '\n' :: rest => some rest
  | _ => none

/-- Skips a comment, if there is one, up to the end of its line. -/
def skipComment (text : List Char) : List Char :=
  match text with
  | '#' :: rest => rest.dropWhile fun c => !isControl c
  | text => text

/-- Skips blanks, comments and line ends. -/
def skipLines : Nat → List Char → List Char
  | 0, text => text
  | fuel + 1, text =>
    let rest := skipComment (skipBlanks text)
    match lineEnd? rest with
    | some rest => skipLines fuel rest
    | none => rest

/-- Skips everything that may stand between the items of a list. -/
def skipBetween (text : List Char) : List Char :=
  skipLines (text.length + 1) text

/-- Ends a line, after blanks and a comment. -/
def endLine (text : List Char) : Option (List Char) :=
  match skipComment (skipBlanks text) with
  | [] => some []
  | rest => lineEnd? rest

/-! ## Texts -/

/-- The value of a hexadecimal digit. -/
def hexValue? (c : Char) : Option Nat :=
  if c.isDigit then some (c.toNat - 48)
  else if 'a' ≤ c ∧ c ≤ 'f' then some (c.toNat - 87)
  else if 'A' ≤ c ∧ c ≤ 'F' then some (c.toNat - 55)
  else none

/-- The character of a number of hexadecimal digits. -/
def readCode (count : Nat) (text : List Char) : Option (Char × List Char) := do
  let digits ← (text.take count).mapM hexValue?
  if digits.length ≠ count then none
  else
    let code := digits.foldl (fun value d => value * 16 + d) 0
    if code.isValidChar then some (Char.ofNat code, text.drop count) else none

/-- What an escape stands for, after its backslash. -/
def readEscape (text : List Char) : Option (Char × List Char) :=
  match text with
  | 'b' :: rest => some (Char.ofNat 8, rest)
  | 't' :: rest => some ('\t', rest)
  | 'n' :: rest => some ('\n', rest)
  | 'f' :: rest => some (Char.ofNat 12, rest)
  | 'r' :: rest => some ('\r', rest)
  | 'e' :: rest => some (Char.ofNat 27, rest)
  | '"' :: rest => some ('"', rest)
  | '\\' :: rest => some ('\\', rest)
  | 'x' :: rest => readCode 2 rest
  | 'u' :: rest => readCode 4 rest
  | 'U' :: rest => readCode 8 rest
  | _ => none

/-- Reads a text on one line, after its opening quote. -/
def readBasic : Nat → List Char → Reader String
  | 0, _, _ => none
  | _ + 1, _, [] => none
  | fuel + 1, done, c :: rest =>
    if c = '"' then some (String.ofList done.reverse, rest)
    else if c = '\\' then do
      let (c, rest) ← readEscape rest
      readBasic fuel (c :: done) rest
    else if isControl c then none
    else readBasic fuel (c :: done) rest

/-- Reads a plain text on one line, after its opening quote. -/
def readLiteral (text : List Char) : Option (String × List Char) := do
  let (inside, rest) ← Text.splitOnce? '\'' text
  if inside.any isControl then none else some (String.ofList inside, rest)

/-- The quotes at the end of a text over several lines: three close it, and up to two before them
belong to it. -/
def closeQuotes (quote : Char) (done : List Char) (text : List Char) :
    Option (String × List Char) :=
  let count := (text.takeWhile (· = quote)).length
  if 3 ≤ count ∧ count ≤ 5 then
    some (String.ofList ((List.replicate (count - 3) quote ++ done).reverse), text.drop count)
  else none

/-- Skips blanks and line ends after a backslash at the end of a line. -/
def skipFold (text : List Char) : Option (List Char) := do
  let rest ← lineEnd? (skipBlanks text)
  some (rest.dropWhile fun c => c = ' ' || c = '\t' || c = '\n' || c = '\r')

/-- Reads a text over several lines, after its opening quotes. -/
def readLong (quote : Char) : Nat → List Char → Reader String
  | 0, _, _ => none
  | _ + 1, _, [] => none
  | fuel + 1, done, c :: rest =>
    if c = quote then
      if rest.take 2 = [quote, quote] then closeQuotes quote done (c :: rest)
      else readLong quote fuel (c :: done) rest
    else if c = '\\' && quote = '"' then
      match skipFold rest with
      | some rest => readLong quote fuel done rest
      | none => do
        let (c, rest) ← readEscape rest
        readLong quote fuel (c :: done) rest
    else if c = '\n' then readLong quote fuel (c :: done) rest
    else if c = '\r' then
      match rest with
      | '\n' :: rest => readLong quote fuel ('\n' :: done) rest
      | _ => none
    else if isControl c then none
    else readLong quote fuel (c :: done) rest

/-- Drops a line end right after opening quotes. -/
def dropFirstLine (text : List Char) : List Char :=
  (lineEnd? text).getD text

/-- Reads a text in quotes of any kind. -/
def readText (text : List Char) : Option (String × List Char) :=
  match text with
  | '"' :: '"' :: '"' :: rest => readLong '"' (rest.length + 1) [] (dropFirstLine rest)
  | '\'' :: '\'' :: '\'' :: rest => readLong '\'' (rest.length + 1) [] (dropFirstLine rest)
  | '"' :: rest => readBasic (rest.length + 1) [] rest
  | '\'' :: rest => readLiteral rest
  | _ => none

/-! ## Keys -/

/-- Whether a character may stand in a key without quotes. -/
def isBare (c : Char) : Bool :=
  c.isAlphanum || c = '_' || c = '-'

/-- Reads one part of a key. -/
def readKeyPart (text : List Char) : Option (String × List Char) :=
  match text with
  | '"' :: rest => readBasic (rest.length + 1) [] rest
  | '\'' :: rest => readLiteral rest
  | text =>
    let bare := text.takeWhile isBare
    if bare.isEmpty then none else some (String.ofList bare, text.drop bare.length)

/-- Reads a key with its dots. -/
def readKey : Nat → Reader (List String)
  | 0, _ => none
  | fuel + 1, text => do
    let (first, rest) ← readKeyPart (skipBlanks text)
    match skipBlanks rest with
    | '.' :: rest => do
      let (others, rest) ← readKey fuel rest
      some (first :: others, rest)
    | rest => some ([first], rest)

/-! ## Numbers and moments -/

/-- Whether underscores stand only between digits, and there is a digit. -/
def wellSpaced (digit : Char → Bool) (text : List Char) : Bool :=
  (Text.splitOn '_' text).all fun part => !part.isEmpty && part.all digit

/-- The digits of a text without its underscores. -/
def digitsOf (text : List Char) : List Char :=
  text.filter (· != '_')

/-- The value of digits in a base. -/
def valueIn (base : Nat) (digits : List Char) : Nat :=
  digits.foldl (fun value d => value * base + (hexValue? d).getD 0) 0

/-- A number in a base other than ten. -/
def basedInteger? (text : List Char) : Option Int :=
  let read (base : Nat) (digit : Char → Bool) (digits : List Char) : Option Int :=
    if wellSpaced digit digits then some (valueIn base (digitsOf digits)) else none
  match text with
  | '0' :: 'x' :: digits => read 16 (fun c => (hexValue? c).isSome) digits
  | '0' :: 'o' :: digits => read 8 (fun c => '0' ≤ c && c ≤ '7') digits
  | '0' :: 'b' :: digits => read 2 (fun c => c = '0' || c = '1') digits
  | _ => none

/-- A sign, and what follows it. -/
def splitSign : List Char → Bool × List Char
  | '-' :: rest => (true, rest)
  | '+' :: rest => (false, rest)
  | rest => (false, rest)

/-- Whether a text is a whole number: digits without a leading zero. -/
def isWhole (text : List Char) : Bool :=
  wellSpaced Char.isDigit text && (text = ['0'] || text.head? != some '0')

/-- A number in base ten. -/
def integer? (text : List Char) : Option Int :=
  let (negative, digits) := splitSign text
  if isWhole digits then
    let value : Int := valueIn 10 (digitsOf digits)
    some (if negative then -value else value)
  else none

/-- Whether a text is an exponent. -/
def isExponent (text : List Char) : Bool :=
  wellSpaced Char.isDigit (splitSign text).2

/-- A text at its first mark of an exponent. -/
def splitExponent (text : List Char) : List Char × Option (List Char) :=
  let before := text.takeWhile fun c => c != 'e' && c != 'E'
  if before.length < text.length then (before, some (text.drop (before.length + 1)))
  else (before, none)

/-- Whether a text is a number with a fraction or an exponent. -/
def isFloat (text : List Char) : Bool :=
  let digits := (splitSign text).2
  if digits = "inf".toList ∨ digits = "nan".toList then true
  else
    let (mantissa, exponent) := splitExponent digits
    let exponentOk := match exponent with
      | some exponent => isExponent exponent
      | none => true
    match Text.splitOnce? '.' mantissa with
    | some (whole, fraction) =>
      isWhole whole && wellSpaced Char.isDigit fraction && exponentOk
    | none => isWhole mantissa && exponent.isSome && exponentOk

/-- Whether a text follows a pattern, in which `d` stands for a digit. -/
def follows : List Char → List Char → Bool
  | [], [] => true
  | p :: pattern, c :: text => (if p = 'd' then c.isDigit else p = c) && follows pattern text
  | _, _ => false

/-- The number that two digits spell. -/
def twoDigits (text : List Char) : Nat :=
  valueIn 10 (text.take 2)

/-- Whether a text is a date. -/
def isDate (text : List Char) : Bool :=
  follows "dddd-dd-dd".toList text && 1 ≤ twoDigits (text.drop 5) && twoDigits (text.drop 5) ≤ 12 &&
    1 ≤ twoDigits (text.drop 8) && twoDigits (text.drop 8) ≤ 31

/-- Whether a text is a time of day. -/
def isTime (text : List Char) : Bool :=
  let (main, fraction) := match Text.splitOnce? '.' text with
    | some (main, fraction) => (main, some fraction)
    | none => (text, none)
  let fractionOk := match fraction with
    | some digits => !digits.isEmpty && digits.all Char.isDigit
    | none => true
  let shape := follows "dd:dd:dd".toList main || (follows "dd:dd".toList main && fraction.isNone)
  shape && fractionOk && twoDigits main ≤ 23 && twoDigits (main.drop 3) ≤ 59 &&
    twoDigits (main.drop 6) ≤ 60

/-- A time without the offset after it. -/
def withoutOffset (text : List Char) : List Char :=
  match text.getLast? with
  | some 'Z' | some 'z' => text.dropLast
  | _ =>
    let start := text.take (text.length - 6)
    let offset := text.drop (text.length - 6)
    if follows "+dd:dd".toList offset || follows "-dd:dd".toList offset then start else text

/-- Whether a text is a date, a time or both. -/
def isMoment (text : List Char) : Bool :=
  let divided := match text.drop 10 with
    | c :: time => isDate (text.take 10) && (c = 'T' || c = 't' || c = ' ') &&
        isTime (withoutOffset time)
    | [] => false
  isDate text || isTime text || divided

/-- Whether a character may stand in a word, number or moment. -/
def isScalar (c : Char) : Bool :=
  c.isAlphanum || c = '_' || c = '-' || c = '+' || c = '.' || c = ':'

/-- The word, number or moment at the start of a text.  A date and a time may be divided by a
blank. -/
def scalarOf (text : List Char) : List Char :=
  let first := text.takeWhile isScalar
  match text.drop first.length with
  | ' ' :: rest =>
    if isDate first && (rest.head?.map Char.isDigit) = some true then
      first ++ ' ' :: rest.takeWhile isScalar
    else first
  | _ => first

/-- The value of a word, number or moment. -/
def scalarValue? (text : List Char) : Option Value :=
  if text = "true".toList then some (.boolean true)
  else if text = "false".toList then some (.boolean false)
  else
    match (integer? text).or (basedInteger? text) with
    | some n => some (.integer n)
    | none => if isFloat text then some .float else if isMoment text then some .moment else none

/-! ## Values -/

/-- Reads the items of a list up to its closing bracket. -/
def readItems (item : Reader Value) : Nat → Reader (List Value)
  | 0, _ => none
  | fuel + 1, text =>
    match skipBetween text with
    | ']' :: rest => some ([], rest)
    | text => do
      let (first, rest) ← item text
      match skipBetween rest with
      | ',' :: rest => do
        let (others, rest) ← readItems item fuel rest
        some (first :: others, rest)
      | ']' :: rest => some ([first], rest)
      | _ => none

/-- Reads a key with its value. -/
def readPair (value : Reader Value) (text : List Char) :
    Option ((List String × Value) × List Char) := do
  let (path, rest) ← readKey (text.length + 1) text
  match skipBlanks rest with
  | '=' :: rest => do
    let (value, rest) ← value (skipBlanks rest)
    some ((path, value), rest)
  | _ => none

/-- Reads the pairs of a table on one line up to its closing brace. -/
def readPairs (value : Reader Value) : Nat → Reader (List (List String × Value))
  | 0, _ => none
  | fuel + 1, text =>
    match skipBetween text with
    | '\x7d' :: rest => some ([], rest)
    | text => do
      let (first, rest) ← readPair value text
      match skipBetween rest with
      | ',' :: rest => do
        let (others, rest) ← readPairs value fuel rest
        some (first :: others, rest)
      | '\x7d' :: rest => some ([first], rest)
      | _ => none

/-- The table of pairs, if no key is defined twice. -/
def tableOf? (pairs : List (List String × Value)) : Option Value := do
  let _ ← pairs.foldlM (fun entries pair => Entries.define pair.2 pair.1 entries) []
  some (.table (pairs.map fun pair => (".".intercalate pair.1, pair.2)))

/-- Reads a value with lists and tables nested up to a depth. -/
def readValue : Nat → Reader Value
  | 0, _ => none
  | depth + 1, text =>
    match text with
    | '"' :: _ | '\'' :: _ => do
      let (content, rest) ← readText text
      some (.text content, rest)
    | '[' :: rest => do
      let (items, rest) ← readItems (readValue depth) (rest.length + 1) rest
      some (.list items, rest)
    | '\x7b' :: rest => do
      let (pairs, rest) ← readPairs (readValue depth) (rest.length + 1) rest
      some (← tableOf? pairs, rest)
    | text => do
      let scalar := scalarOf text
      some (← scalarValue? scalar, text.drop scalar.length)

/-- How deep lists and tables may nest. -/
def maxDepth : Nat := 80

/-! ## Documents -/

/-- Reads the path of a table up to a closing mark. -/
def readPath (close : List Char) (text : List Char) : Option (List String × List Char) := do
  let (path, rest) ← readKey (text.length + 1) text
  let rest ← Text.stripPrefix? close (skipBlanks rest)
  some (path, rest)

/-- Reads a statement. -/
def readStatement (text : List Char) : Option (Statement × List Char) :=
  match text with
  | '[' :: '[' :: rest => do
    let (path, rest) ← readPath [']', ']'] rest
    some (.openNext path, rest)
  | '[' :: rest => do
    let (path, rest) ← readPath [']'] rest
    some (.openTable path, rest)
  | text => do
    let ((path, value), rest) ← readPair (readValue maxDepth) text
    some (.define path value, rest)

/-- Reads the statements of a document, one to a line. -/
def readStatements : Nat → List Char → Option (List Statement)
  | 0, _ => none
  | fuel + 1, text =>
    match skipBetween text with
    | [] => some []
    | text => do
      let (first, rest) ← readStatement text
      let rest ← endLine rest
      some (first :: (← readStatements fuel rest))

/-- The entries of a document. -/
def parse? (text : String) : Option Entries := do
  let text := match text.toList with
    | '\ufeff' :: rest => rest
    | text => text
  build? (← readStatements (text.length + 1) text)

end Uplift.Toml
