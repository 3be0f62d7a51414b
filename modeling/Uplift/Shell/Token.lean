import Uplift.Shell.Word

/-!
# Lexemes of shell scripts

A script is read as words, operators and redirections.  A word knows its line, which the messages
about its command name.  Text that a script holds for a command to read, from the line after the
command to a line with an agreed end, becomes part of the redirection that asks for it.
-/

set_option autoImplicit false

namespace Uplift.Shell

/-- A lexeme of a script. -/
inductive Token where
  | word (word : Word) (line : Nat)
  | operator (text : String)
  /-- A redirection of a stream; its target is the word that follows. -/
  | redirect (stream : Nat) (operator : String)
  /-- Text in the script that a command reads. -/
  | inset (content : Word)
  deriving DecidableEq, Repr

/-- The operators, the longest first. -/
def operators : List String :=
  ["||", "&&", ";", "|", "&", "\n", "(", ")"]

/-- The operators of redirections, the longest first. -/
def redirections : List String :=
  [">>", ">&", "<&", ">", "<"]

/-- The operator of a list that a text starts with, and what follows it. -/
def readOperator? (list : List String) (text : List Char) : Option (String × List Char) :=
  list.findSome? fun operator =>
    (Text.stripPrefix? operator.toList text).map fun rest => (operator, rest)

/-- The stream that an operator redirects if none is given. -/
def defaultStream (operator : String) : Nat :=
  if Text.startsWith operator "<" then 0 else 1

/-- The redirection that a text starts with, and what follows it. -/
def readRedirect? (text : List Char) : Option (Token × List Char) :=
  match text with
  | c :: rest =>
    if c.isDigit then
      (readOperator? redirections rest).map fun (operator, rest) =>
        (.redirect (c.toNat - 48) operator, rest)
    else
      (readOperator? redirections text).map fun (operator, rest) =>
        (.redirect (defaultStream operator) operator, rest)
  | [] => none

/-! ## Insets -/

/-- The lines of a text before the first line that is the agreed end, and what follows that
line. -/
def linesBefore (stop : List Char) (dropTabs : Bool) :
    List (List Char) → List (List Char) × List (List Char)
  | [] => ([], [])
  | line :: rest =>
    let line := if dropTabs then line.dropWhile (· = '\t') else line
    if line = stop then ([], rest)
    else
      let (inside, after) := linesBefore stop dropTabs rest
      (line :: inside, after)

/-- Lines as a text in which each of them ends. -/
def endLines (lines : List (List Char)) : List Char :=
  (lines.map (· ++ ['\n'])).flatten

/-- Lines as a text in which only the last one does not end. -/
def joinLines : List (List Char) → List Char
  | [] => []
  | [line] => line
  | line :: rest => line ++ '\n' :: joinLines rest

/-- The text of a word, quoted or not. -/
def Word.letters : Word → List Char
  | [] => []
  | .text content _ :: rest => content ++ Word.letters rest
  | _ :: rest => Word.letters rest

/-- Whether part of a word is quoted. -/
def Word.hasQuotes (word : Word) : Bool :=
  word.plain?.isNone

/-- The inset that a text after its operator asks for, and the text without it. -/
def readInset? (text : List Char) : Option (Token × List Char) := do
  let (dropTabs, text) := match text with
    | '-' :: rest => (true, rest)
    | text => (false, text)
  let text := text.dropWhile fun c => c = ' ' || c = '\t'
  let (stop, text) ← readWord (text.length + 1) text
  let current := text.takeWhile (· != '\n')
  let below := Text.splitOn '\n' ((text.drop current.length).drop 1)
  let (inside, after) := linesBefore stop.letters dropTabs below
  let content := endLines inside
  let word :=
    if stop.hasQuotes then [.text content true] else readInset (content.length + 1) content
  some (.inset word, current ++ '\n' :: joinLines after)

/-! ## Scripts -/

/-- How many lines a text ends. -/
def lineCount (text : List Char) : Nat :=
  text.count '\n'

/-- The lexemes of a script that starts at a line. -/
def tokens : Nat → Nat → List Char → Option (List Token)
  | 0, _, _ => none
  | _ + 1, _, [] => some []
  | fuel + 1, line, '#' :: rest => tokens fuel line (rest.dropWhile (· != '\n'))
  | fuel + 1, line, '\\' :: '\n' :: rest => tokens fuel (line + 1) rest
  | fuel + 1, line, '<' :: '<' :: rest => do
    let (token, after) ← readInset? rest
    some (token :: (← tokens fuel line after))
  | fuel + 1, line, c :: rest =>
    if c = ' ' ∨ c = '\t' then tokens fuel line rest
    else
      match readRedirect? (c :: rest) with
      | some (token, rest) => do some (token :: (← tokens fuel line rest))
      | none =>
        match readOperator? operators (c :: rest) with
        | some (operator, rest) => do
          let line := if operator = "\n" then line + 1 else line
          some (.operator operator :: (← tokens fuel line rest))
        | none => do
          let (word, after) ← readWord (rest.length + 2) (c :: rest)
          let read := (c :: rest).take (rest.length + 1 - after.length)
          some (.word word line :: (← tokens fuel (line + lineCount read) after))

end Uplift.Shell
