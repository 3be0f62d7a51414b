import Uplift.Text.Search

/-!
# Words of shell scripts

A word is a list of pieces: text, variables, and scripts whose output takes their place.  A piece
is quoted or not; only unquoted pieces are split at blanks after they are expanded.
-/

set_option autoImplicit false

namespace Uplift.Shell

/-- A piece of a word. -/
inductive Piece where
  | text (content : List Char) (isQuoted : Bool)
  | variable (name : String) (isQuoted : Bool)
  /-- The output of a script. -/
  | output (script : List Char) (isQuoted : Bool)
  deriving DecidableEq, Repr

/-- A word before it is expanded. -/
abbrev Word := List Piece

/-- The text of a word without quotes and variables. -/
def Word.plain? : Word → Option (List Char)
  | [] => some []
  | .text content false :: rest => (Word.plain? rest).map (content ++ ·)
  | _ => none

/-- Whether a character may stand in the name of a variable. -/
def isNameChar (c : Char) : Bool :=
  c.isAlphanum || c = '_'

/-- Whether a character ends an unquoted word. -/
def endsWord (c : Char) : Bool :=
  c = ' ' || c = '\t' || c = '\n' || c = ';' || c = '|' || c = '&' || c = '<' || c = '>' ||
    c = '(' || c = ')'

/-- The text up to the parenthesis that closes an open one, and what follows it.  Quoted
parentheses do not count. -/
def closeParen : Nat → Nat → Option Char → List Char → List Char → Option (List Char × List Char)
  | 0, _, _, _, _ => none
  | _ + 1, _, _, _, [] => none
  | fuel + 1, depth, some quote, done, c :: rest =>
    closeParen fuel depth (if c = quote then none else some quote) (c :: done) rest
  | fuel + 1, depth, none, done, c :: rest =>
    if c = ')' then
      match depth with
      | 0 => some (done.reverse, rest)
      | depth + 1 => closeParen fuel depth none (c :: done) rest
    else if c = '(' then closeParen fuel (depth + 1) none (c :: done) rest
    else if c = '\'' ∨ c = '"' then closeParen fuel depth (some c) (c :: done) rest
    else closeParen fuel depth none (c :: done) rest

/-- What a dollar sign stands for, with what follows it. -/
def readDollar (isQuoted : Bool) (text : List Char) : Piece × List Char :=
  match text with
  | '(' :: rest =>
    match closeParen (rest.length + 1) 0 none [] rest with
    | some (script, rest) => (.output script isQuoted, rest)
    | none => (.text ['$'] isQuoted, text)
  | '\x7b' :: rest =>
    let name := rest.takeWhile isNameChar
    (.variable (String.ofList name) isQuoted, (rest.drop name.length).drop 1)
  | c :: rest =>
    if c = '$' ∨ c = '?' ∨ c = '#' ∨ c = '@' ∨ c = '*' ∨ c.isDigit then
      (.variable (String.singleton c) isQuoted, rest)
    else
      let name := text.takeWhile isNameChar
      if name.isEmpty then (.text ['$'] isQuoted, text)
      else (.variable (String.ofList name) isQuoted, text.drop name.length)
  | [] => (.text ['$'] isQuoted, [])

/-- The characters that a backslash protects between double quotes. -/
def isProtected (c : Char) : Bool :=
  c = '"' || c = '\\' || c = '$' || c = '\x60'

/-- The pieces between double quotes, and what follows the closing one. -/
def readDouble : Nat → List Char → Option (Word × List Char)
  | 0, _ => none
  | _ + 1, [] => none
  | _ + 1, '"' :: rest => some ([.text [] true], rest)
  | fuel + 1, '\\' :: '\n' :: rest => readDouble fuel rest
  | fuel + 1, '\\' :: c :: rest => do
    let (word, rest) ← readDouble fuel rest
    some (.text (if isProtected c then [c] else ['\\', c]) true :: word, rest)
  | fuel + 1, '$' :: rest => do
    let (piece, rest) := readDollar true rest
    let (word, rest) ← readDouble fuel rest
    some (piece :: word, rest)
  | fuel + 1, '\x60' :: rest => do
    let (script, rest) ← Text.splitOnce? '\x60' rest
    let (word, rest) ← readDouble fuel rest
    some (.output script true :: word, rest)
  | fuel + 1, c :: rest => do
    let (word, rest) ← readDouble fuel rest
    some (.text [c] true :: word, rest)

/-- The word that a text starts with, and what follows it. -/
def readWord : Nat → List Char → Option (Word × List Char)
  | 0, _ => none
  | _ + 1, [] => some ([], [])
  | fuel + 1, '\'' :: rest => do
    let (inside, rest) ← Text.splitOnce? '\'' rest
    let (word, rest) ← readWord fuel rest
    some (.text inside true :: word, rest)
  | fuel + 1, '"' :: rest => do
    let (inside, rest) ← readDouble (rest.length + 1) rest
    let (word, rest) ← readWord fuel rest
    some (inside ++ word, rest)
  | fuel + 1, '\\' :: '\n' :: rest => readWord fuel rest
  | fuel + 1, '\\' :: c :: rest => do
    let (word, rest) ← readWord fuel rest
    some (.text [c] true :: word, rest)
  | fuel + 1, '$' :: rest => do
    let (piece, rest) := readDollar false rest
    let (word, rest) ← readWord fuel rest
    some (piece :: word, rest)
  | fuel + 1, '\x60' :: rest => do
    let (script, rest) ← Text.splitOnce? '\x60' rest
    let (word, rest) ← readWord fuel rest
    some (.output script false :: word, rest)
  | fuel + 1, c :: rest =>
    if endsWord c then some ([], c :: rest)
    else do
      let (word, rest) ← readWord fuel rest
      some (.text [c] false :: word, rest)

/-- The pieces of a text in which variables count and quotes do not. -/
def readInset : Nat → List Char → Word
  | 0, _ => []
  | _ + 1, [] => []
  | fuel + 1, '\\' :: c :: rest =>
    .text (if isProtected c && c != '"' then [c] else ['\\', c]) true :: readInset fuel rest
  | fuel + 1, '$' :: rest =>
    let (piece, rest) := readDollar true rest
    piece :: readInset fuel rest
  | fuel + 1, c :: rest => .text [c] true :: readInset fuel rest

end Uplift.Shell
