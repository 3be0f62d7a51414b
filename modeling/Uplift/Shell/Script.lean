import Uplift.Shell.Token

/-!
# Shell scripts

A script is a tree of commands.  A simple command is a list of words with redirections; scripts are
put together one after the other, by success or failure of the first, by a pipe, as a group, as a
choice, or as a loop.
-/

set_option autoImplicit false

namespace Uplift.Shell

/-- A redirection: of which stream, how, and to what. -/
structure Redirection where
  stream : Nat
  operator : String
  target : Word
  deriving DecidableEq, Repr

/-- A script. -/
inductive Script where
  | nothing
  | simple (line : Nat) (words : List Word) (redirections : List Redirection)
  /-- One after the other. -/
  | seq (first second : Script)
  /-- The second one if the first succeeds. -/
  | both (first second : Script)
  /-- The second one if the first fails. -/
  | either (first second : Script)
  /-- Succeeds if the script fails. -/
  | negated (script : Script)
  /-- The second reads what the first writes. -/
  | pipe (first second : Script)
  /-- A script with its own streams. -/
  | group (script : Script) (redirections : List Redirection)
  /-- A script that leaves the variables around it alone. -/
  | apart (script : Script) (redirections : List Redirection)
  | branch (test yes no : Script)
  /-- Once for each word. -/
  | each (name : String) (words : List Word) (body : Script)
  /-- As long as the test succeeds. -/
  | loop (test body : Script)
  deriving Repr

/-! ## Reading -/

/-- The word that a lexeme spells without quotes. -/
def Token.plain? : Token → Option String
  | .word spelled _ => (Word.plain? spelled).map String.ofList
  | _ => none

/-- The words that close something. -/
def closers : List String :=
  ["then", "else", "elif", "fi", "do", "done", "\x7d"]

/-- Whether the lexemes at hand close what is being read. -/
def closes : List Token → Bool
  | [] => true
  | .operator ")" :: _ => true
  | token :: _ => match token.plain? with
    | some word => closers.contains word
    | none => false

/-- Drops the ends of lines. -/
def skipLines : List Token → List Token
  | .operator "\n" :: rest => skipLines rest
  | tokens => tokens

/-- Reads a word that has to stand here. -/
def expectWord? (word : String) : List Token → Option (List Token)
  | token :: rest => if token.plain? = some word then some rest else none
  | [] => none

/-- Reads an operator that has to stand here. -/
def expectOperator? (operator : String) : List Token → Option (List Token)
  | token :: rest => if token = .operator operator then some rest else none
  | [] => none

/-- Reads the redirection at hand, if there is one. -/
def readRedirection? : List Token → Option (Redirection × List Token)
  | .redirect stream operator :: .word target _ :: rest => some (⟨stream, operator, target⟩, rest)
  | .inset content :: rest => some (⟨0, "<<", content⟩, rest)
  | _ => none

/-- Reads redirections. -/
def readRedirections : Nat → List Token → List Redirection × List Token
  | 0, tokens => ([], tokens)
  | fuel + 1, tokens =>
    match readRedirection? tokens with
    | some (redirection, rest) =>
      let (others, rest) := readRedirections fuel rest
      (redirection :: others, rest)
    | none => ([], tokens)

/-- Reads the words and the redirections of a simple command. -/
def readSimple : Nat → List Token → List Word × List Redirection × List Token
  | 0, tokens => ([], [], tokens)
  | fuel + 1, tokens =>
    match tokens with
    | .word word _ :: rest =>
      let (words, redirections, rest) := readSimple fuel rest
      (word :: words, redirections, rest)
    | tokens =>
      match readRedirection? tokens with
      | some (redirection, rest) =>
        let (words, redirections, rest) := readSimple fuel rest
        (words, redirection :: redirections, rest)
      | none => ([], [], tokens)

/-- The line of the first word. -/
def lineOf : List Token → Nat
  | .word _ line :: _ => line
  | _ :: rest => lineOf rest
  | [] => 1

/-- Reads a simple command. -/
def readSimple? (tokens : List Token) : Option (Script × List Token) :=
  match readSimple tokens.length tokens with
  | ([], [], _) => none
  | (words, redirections, rest) => some (.simple (lineOf tokens) words redirections, rest)

/-- The words up to the end of a list. -/
def takeWords : List Token → List Word × List Token
  | .word word _ :: rest =>
    let (words, rest) := takeWords rest
    (word :: words, rest)
  | tokens => ([], tokens)

/-- Skips the end of a list of words. -/
def skipListEnd (tokens : List Token) : List Token :=
  match tokens with
  | .operator ";" :: rest => skipLines rest
  | tokens => skipLines tokens

mutual

/-- Reads commands up to a lexeme that closes them. -/
def readList? : Nat → List Token → Option (Script × List Token)
  | 0, _ => none
  | fuel + 1, tokens => do
    let tokens := skipLines tokens
    if closes tokens then some (.nothing, tokens)
    else
      let (first, tokens) ← readPiped? fuel tokens
      let (first, tokens) ← readChain? fuel first tokens
      match tokens with
      | .operator mark :: rest =>
        if mark = ";" ∨ mark = "\n" ∨ mark = "&" then
          if closes (skipLines rest) then some (first, skipLines rest)
          else
            let (second, tokens) ← readList? fuel rest
            some (.seq first second, tokens)
        else some (first, tokens)
      | tokens => some (first, tokens)

/-- Reads what follows a pipeline on success or on failure. -/
def readChain? : Nat → Script → List Token → Option (Script × List Token)
  | 0, _, _ => none
  | fuel + 1, first, tokens =>
    match tokens with
    | .operator "&&" :: rest => do
      let (second, tokens) ← readPiped? fuel (skipLines rest)
      readChain? fuel (.both first second) tokens
    | .operator "||" :: rest => do
      let (second, tokens) ← readPiped? fuel (skipLines rest)
      readChain? fuel (.either first second) tokens
    | tokens => some (first, tokens)

/-- Reads commands with pipes between them. -/
def readPiped? : Nat → List Token → Option (Script × List Token)
  | 0, _ => none
  | fuel + 1, tokens =>
    match expectWord? "!" tokens with
    | some rest => do
      let (script, tokens) ← readPiped? fuel rest
      some (.negated script, tokens)
    | none => do
      let (first, tokens) ← readCommand? fuel tokens
      match tokens with
      | .operator "|" :: rest =>
        let (second, tokens) ← readPiped? fuel (skipLines rest)
        some (.pipe first second, tokens)
      | tokens => some (first, tokens)

/-- Reads one command. -/
def readCommand? : Nat → List Token → Option (Script × List Token)
  | 0, _ => none
  | _ + 1, [] => none
  | fuel + 1, first :: rest =>
    if first = .operator "(" then do
      let (script, tokens) ← readList? fuel rest
      let tokens ← expectOperator? ")" tokens
      let (redirections, tokens) := readRedirections fuel tokens
      some (.apart script redirections, tokens)
    else
      match first.plain? with
      | some "\x7b" => do
        let (script, tokens) ← readList? fuel rest
        let tokens ← expectWord? "\x7d" tokens
        let (redirections, tokens) := readRedirections fuel tokens
        some (.group script redirections, tokens)
      | some "if" => do
        let (script, tokens) ← readBranch? fuel rest
        let (redirections, tokens) := readRedirections fuel tokens
        some (.group script redirections, tokens)
      | some "for" => do
        let (name, tokens) ← match rest with
          | token :: tokens => token.plain?.map fun name => (name, tokens)
          | [] => none
        let tokens ← expectWord? "in" tokens
        let (words, tokens) := takeWords tokens
        let tokens ← expectWord? "do" (skipListEnd tokens)
        let (body, tokens) ← readList? fuel tokens
        let tokens ← expectWord? "done" tokens
        let (redirections, tokens) := readRedirections fuel tokens
        some (.group (.each name words body) redirections, tokens)
      | some "while" => do
        let (test, tokens) ← readList? fuel rest
        let tokens ← expectWord? "do" tokens
        let (body, tokens) ← readList? fuel tokens
        let tokens ← expectWord? "done" tokens
        let (redirections, tokens) := readRedirections fuel tokens
        some (.group (.loop test body) redirections, tokens)
      | some word => if closers.contains word then none else readSimple? (first :: rest)
      | none => readSimple? (first :: rest)

/-- Reads a choice after its first word. -/
def readBranch? : Nat → List Token → Option (Script × List Token)
  | 0, _ => none
  | fuel + 1, tokens => do
    let (test, tokens) ← readList? fuel tokens
    let tokens ← expectWord? "then" tokens
    let (yes, tokens) ← readList? fuel tokens
    match expectWord? "elif" tokens with
    | some tokens =>
      let (no, tokens) ← readBranch? fuel tokens
      some (.branch test yes no, tokens)
    | none =>
      match expectWord? "else" tokens with
      | some tokens =>
        let (no, tokens) ← readList? fuel tokens
        let tokens ← expectWord? "fi" tokens
        some (.branch test yes no, tokens)
      | none =>
        let tokens ← expectWord? "fi" tokens
        some (.branch test yes .nothing, tokens)

end

/-- The script that a text stands for, if it can be read. -/
def Script.read? (text : List Char) : Option Script := do
  let tokens ← tokens (text.length + 2) 1 text
  match ← readList? (4 * tokens.length + 4) tokens with
  | (script, []) => some script
  | _ => none

end Uplift.Shell
