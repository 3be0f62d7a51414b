import Uplift.Text.Search

/-!
# Lexemes

A place in a source text always stands in front of a lexeme: blanks and comments before it are
already skipped, and it is only remembered whether they held a line end or a comment.  Lexemes are
read where the grammar asks for them, because the same characters mean different things in an
expression, in a type, in a template or between the tags of an element.
-/

set_option autoImplicit false

namespace Uplift.Source

/-- A place in a source text, in front of a lexeme. -/
structure Place where
  rest : List Char
  /-- The number of characters before. -/
  offset : Nat
  /-- Where the lexeme before ended. -/
  lexemeEnd : Nat
  /-- Whether a line ended since the lexeme before. -/
  newline : Bool
  /-- Where a comment since the lexeme before starts and ends, if there is one. -/
  comment? : Option (Nat × Nat)
  deriving Inhabited

/-- Reads something at a place, or fails. -/
abbrev Parser := StateT Place Option

/-! ## Characters -/

/-- Whether a character ends a line. -/
def isLineEnd (c : Char) : Bool :=
  c = '\n' || c = '\r' || c = '\u2028' || c = '\u2029'

/-- Whether a character separates lexemes. -/
def isSpace (c : Char) : Bool :=
  isLineEnd c || c = ' ' || c = '\t' || c = '\x0b' || c = '\x0c' || c = '\u00a0' || c = '\u1680' ||
    ('\u2000' ≤ c && c ≤ '\u200b') || c = '\u202f' || c = '\u205f' || c = '\u2060' ||
    c = '\u3000' || c = '\ufeff'

/-- The characters that are punctuation. -/
def punctuation : List Char :=
  ":;`\"'@#.,|^&<=>+-*/\\%?!~()[]\x7b\x7d".toList

/-- Whether a character may stand in a word. -/
def isWordChar (c : Char) : Bool :=
  !(c.toNat < 32) && !isSpace c && !punctuation.contains c

/-- Whether a character may start a word. -/
def isWordStart (c : Char) : Bool :=
  isWordChar c && !c.isDigit

/-- Whether a character is a hexadecimal digit. -/
def isHexDigit (c : Char) : Bool :=
  c.isDigit || ('a' ≤ c && c ≤ 'f') || ('A' ≤ c && c ≤ 'F')

/-! ## Blanks and comments -/

/-- What is being skipped. -/
inductive Skipping where
  | blanks
  | lineComment (start : Nat)
  | blockComment (start : Nat)
  deriving DecidableEq, Repr

/-- Skips blanks and comments up to the next lexeme.  A block comment must be closed. -/
def skipFrom (lexemeEnd : Nat) : Skipping → Nat → Bool → Option (Nat × Nat) → List Char →
    Option Place
  | .blanks, offset, newline, comment?, '/' :: '/' :: rest =>
    skipFrom lexemeEnd (.lineComment offset) (offset + 2) newline comment? rest
  | .blanks, offset, newline, comment?, '/' :: '*' :: rest =>
    skipFrom lexemeEnd (.blockComment offset) (offset + 2) newline comment? rest
  | .blanks, offset, newline, comment?, c :: rest =>
    if isSpace c then
      skipFrom lexemeEnd .blanks (offset + 1) (newline || isLineEnd c) comment? rest
    else some ⟨c :: rest, offset, lexemeEnd, newline, comment?⟩
  | .blanks, offset, newline, comment?, [] => some ⟨[], offset, lexemeEnd, newline, comment?⟩
  | .lineComment start, offset, newline, comment?, c :: rest =>
    if isLineEnd c then
      skipFrom lexemeEnd .blanks (offset + 1) true (comment?.or (some (start, offset))) rest
    else skipFrom lexemeEnd (.lineComment start) (offset + 1) newline comment? rest
  | .lineComment start, offset, newline, comment?, [] =>
    some ⟨[], offset, lexemeEnd, newline, comment?.or (some (start, offset))⟩
  | .blockComment start, offset, newline, comment?, '*' :: '/' :: rest =>
    skipFrom lexemeEnd .blanks (offset + 2) newline (comment?.or (some (start, offset + 2))) rest
  | .blockComment start, offset, newline, comment?, c :: rest =>
    skipFrom lexemeEnd (.blockComment start) (offset + 1) (newline || isLineEnd c) comment? rest
  | .blockComment _, _, _, _, [] => none
termination_by _ _ _ _ rest => rest.length

/-- The place in front of the first lexeme of a text. -/
def Place.ofText? (text : List Char) : Option Place :=
  skipFrom 0 .blanks 0 true none text

/-! ## Moving -/

/-- The place itself. -/
def here : Parser Place :=
  get

/-- The offset of the next lexeme. -/
def offset : Parser Nat := do
  return (← here).offset

/-- Fails. -/
def refuse {α : Type} : Parser α :=
  fun _ => none

/-- Fails unless a condition holds. -/
def require (condition : Bool) : Parser Unit :=
  if condition then pure () else refuse

/-- Takes a number of characters and stops right after them. -/
def takeRaw (count : Nat) : Parser Unit := do
  let place ← here
  let stop := place.offset + count
  set (Place.mk (place.rest.drop count) stop stop false none)

/-- Skips blanks and comments. -/
def skipBlanks : Parser Unit := do
  let place ← here
  match skipFrom place.lexemeEnd .blanks place.offset place.newline place.comment? place.rest with
  | some place => set place
  | none => refuse

/-- Takes a lexeme of the given length. -/
def take (count : Nat) : Parser Unit := do
  takeRaw count
  skipBlanks

/-- The next character. -/
def peekChar? : Parser (Option Char) := do
  return (← here).rest.head?

/-- Whether the text is at its end. -/
def atEnd : Parser Bool := do
  return (← here).rest.isEmpty

/-! ## Alternatives and repetition -/

/-- Reads something if it is there. -/
def optional {α : Type} (parser : Parser α) : Parser (Option α) :=
  (some <$> parser) <|> pure none

/-- Whether something can be read here; nothing is taken. -/
def ahead {α : Type} (parser : Parser α) : Parser Bool :=
  fun place => some ((parser place).isSome, place)

/-- Repeats a parser as long as it reads something, at most `fuel` times. -/
def manyUpTo {α : Type} (parser : Parser α) : Nat → Parser (List α)
  | 0 => refuse
  | fuel + 1 => do
    match ← optional parser with
    | none => return []
    | some item => return item :: (← manyUpTo parser fuel)

/-- Repeats a parser as long as it succeeds.  A parser that takes something each time succeeds at
most once for each remaining character. -/
def many {α : Type} (parser : Parser α) : Parser (List α) := do
  manyUpTo parser ((← here).rest.length + 1)

/-! ## Punctuation -/

/-- The punctuators of more than one character, the longest first. -/
def longPunctuators : List String :=
  [">>>=", "...", "===", "!==", "**=", "<<=", ">>=", ">>>", "&&=", "||=", "??=", "=>", "==", "!=",
    "<=", ">=", "&&", "||", "??", "?.", "++", "--", "+=", "-=", "*=", "/=", "%=", "&=", "|=", "^=",
    "<<", ">>", "**"]

/-- Whether a question mark and dot are followed by a digit; then they are two lexemes. -/
def splitsOptional : List Char → Bool
  | '?' :: '.' :: c :: _ => c.isDigit
  | _ => false

/-- The punctuator at the start of a text, as long as possible. -/
def punctuatorOf? (text : List Char) : Option String :=
  let starts (p : String) : Bool :=
    p.toList.isPrefixOf text && !(p = "?." && splitsOptional text)
  match longPunctuators.find? starts with
  | some found => some found
  | none =>
    match text with
    | c :: _ => if punctuation.contains c then some (String.singleton c) else none
    | [] => none

/-- The next punctuator. -/
def peekPunctuator? : Parser (Option String) := do
  return punctuatorOf? (← here).rest

/-- Whether the next lexeme is a punctuator. -/
def sees (text : String) : Parser Bool := do
  return (← peekPunctuator?) = some text

/-- Takes a punctuator. -/
def punctuator (text : String) : Parser Unit := do
  require (← sees text)
  take text.length

/-- Takes one of several punctuators. -/
def oneOf (texts : List String) : Parser Unit := do
  match ← peekPunctuator? with
  | some text => require (texts.contains text); take text.length
  | none => refuse

/-- Takes a punctuator if it is next, and says whether it was. -/
def takes (text : String) : Parser Bool := do
  if ← sees text then
    take text.length
    return true
  else return false

/-- Takes an angle bracket that closes a list; the characters after it belong to other lexemes. -/
def closeAngle : Parser Unit := do
  require ((← peekChar?) = some '>')
  take 1

/-! ## Words -/

/-- The length of an escape for one character of a word: `\u` and four digits, or digits in
braces. -/
def wordEscapeLength? : List Char → Option Nat
  | '\\' :: 'u' :: '\x7b' :: rest =>
    let digits := rest.takeWhile isHexDigit
    if !digits.isEmpty && (rest.drop digits.length).head? = some '\x7d' then
      some (digits.length + 4)
    else none
  | '\\' :: 'u' :: rest =>
    if (rest.take 4).length = 4 && (rest.take 4).all isHexDigit then some 6 else none
  | _ => none

/-- The length of the part of a word at the start of a text. -/
def wordLength : Nat → List Char → Nat
  | 0, _ => 0
  | fuel + 1, text =>
    let plain := (text.takeWhile isWordChar).length
    match wordEscapeLength? (text.drop plain) with
    | some escape => plain + escape + wordLength fuel (text.drop (plain + escape))
    | none => plain

/-- The word at the start of a text. -/
def wordOf? (text : List Char) : Option String :=
  match text with
  | [] => none
  | c :: _ =>
    if isWordStart c || (wordEscapeLength? text).isSome then
      some (String.ofList (text.take (wordLength text.length text)))
    else none

/-- The next word, if the next lexeme is one. -/
def peekWord? : Parser (Option String) := do
  return wordOf? (← here).rest

/-- Takes a word. -/
def word : Parser String := do
  match ← peekWord? with
  | some text => take text.length; return text
  | none => refuse

/-- Whether the next lexeme is a certain word. -/
def seesWord (text : String) : Parser Bool := do
  return (← peekWord?) = some text

/-- Takes a certain word. -/
def keyword (text : String) : Parser Unit := do
  require (← seesWord text)
  take text.length

/-- Takes a certain word if it is next, and says whether it was. -/
def takesWord (text : String) : Parser Bool := do
  if ← seesWord text then
    take text.length
    return true
  else return false

/-- Words that are never names. -/
def reserved : List String :=
  ["break", "case", "catch", "class", "const", "continue", "debugger", "default", "delete", "do",
    "else", "enum", "export", "extends", "false", "finally", "for", "function", "if", "import",
    "in", "instanceof", "new", "null", "return", "super", "switch", "this", "throw", "true", "try",
    "typeof", "var", "void", "while", "with"]

/-- Takes a word that may be a name. -/
def nameWord : Parser String := do
  let text ← word
  require (!reserved.contains text)
  return text

/-! ## Numbers -/

/-- The length of a run of digits and underscores. -/
def digitsLength (digit : Char → Bool) (text : List Char) : Nat :=
  (text.takeWhile fun c => digit c || c = '_').length

/-- The length of an exponent, with its mark. -/
def exponentLength : List Char → Nat
  | mark :: sign :: rest =>
    if mark = 'e' ∨ mark = 'E' then
      let digits := digitsLength Char.isDigit
      if sign = '+' ∨ sign = '-' then
        if 0 < digits rest then digits rest + 2 else 0
      else if 0 < digits (sign :: rest) then digits (sign :: rest) + 1 else 0
    else 0
  | _ => 0

/-- The length of a number in decimal notation. -/
def decimalLength (text : List Char) : Nat :=
  let whole := digitsLength Char.isDigit text
  let rest := text.drop whole
  let fraction :=
    match rest with
    | '.' :: rest => digitsLength Char.isDigit rest + 1
    | _ => 0
  if whole + fraction ≤ 1 ∧ text.head? = some '.' then 0
  else
    let length := whole + fraction
    length + exponentLength (text.drop length)

/-- The digits of the notation that a letter after a leading zero announces. -/
def radixDigits? (c : Char) : Option (Char → Bool) :=
  if c = 'x' ∨ c = 'X' then some isHexDigit
  else if c = 'o' ∨ c = 'O' then some fun d => '0' ≤ d && d ≤ '7'
  else if c = 'b' ∨ c = 'B' then some fun d => d = '0' || d = '1'
  else none

/-- The length of the number at the start of a text, zero if there is none. -/
def numberLength (text : List Char) : Nat :=
  let plain :=
    match text with
    | '0' :: mark :: rest =>
      match radixDigits? mark with
      | some digit =>
        let digits := digitsLength digit rest
        if digits = 0 then 0 else digits + 2
      | none => decimalLength text
    | _ => decimalLength text
  if plain = 0 then 0
  else if (text.drop plain).head? = some 'n' then plain + 1
  else plain

/-- Takes a number; no word may follow it directly. -/
def number : Parser Unit := do
  let text := (← here).rest
  let length := numberLength text
  require (length != 0)
  require (((text.drop length).head?.map isWordChar) != some true)
  take length

/-! ## Quoted text -/

/-- The length of an escape after its backslash. -/
def escapeLength? : List Char → Option Nat
  | [] => none
  | 'x' :: rest => if (rest.take 2).length = 2 && (rest.take 2).all isHexDigit then some 3 else none
  | 'u' :: rest => (wordEscapeLength? ('\\' :: 'u' :: rest)).map (· - 1)
  | '\r' :: '\n' :: _ => some 2
  | _ :: _ => some 1

/-- The length of a string in quotes, counted from after the opening quote to after the closing
one.  A line end must be escaped. -/
def quotedLength? (quote : Char) : Nat → List Char → Option Nat
  | 0, _ => none
  | _ + 1, [] => none
  | fuel + 1, c :: rest =>
    if c = quote then some 1
    else if c = '\\' then do
      let escape ← escapeLength? rest
      return (← quotedLength? quote fuel (rest.drop escape)) + escape + 1
    else if c = '\n' ∨ c = '\r' then none
    else do return (← quotedLength? quote fuel rest) + 1

/-- The length of the string at the start of a text, with its quotes. -/
def stringLength? : List Char → Option Nat
  | quote :: rest =>
    if quote = '"' ∨ quote = '\'' then (quotedLength? quote (rest.length + 1) rest).map (· + 1)
    else none
  | [] => none

/-- Where the text of a template stops. -/
inductive TemplateStop where
  | closed
  /-- At a dollar sign and an opening brace. -/
  | hole
  deriving DecidableEq, Repr

/-- The length of template text up to and including what stops it. -/
def templateText? : Nat → List Char → Option (Nat × TemplateStop)
  | 0, _ => none
  | _ + 1, [] => none
  | _ + 1, '\x60' :: _ => some (1, .closed)
  | _ + 1, '$' :: '\x7b' :: _ => some (2, .hole)
  | fuel + 1, '\\' :: rest => do
    let escape ← escapeLength? rest
    let (length, stop) ← templateText? fuel (rest.drop escape)
    return (length + escape + 1, stop)
  | fuel + 1, _ :: rest => do
    let (length, stop) ← templateText? fuel rest
    return (length + 1, stop)

/-- The length of a pattern between slashes, counted from after the opening slash to after the
closing one.  `inClass` says whether the place is between square brackets. -/
def regexLength? (inClass : Bool) : Nat → List Char → Option Nat
  | 0, _ => none
  | _ + 1, [] => none
  | fuel + 1, c :: rest =>
    if c = '\n' ∨ c = '\r' then none
    else if c = '\\' then
      match rest with
      | [] => none
      | e :: rest =>
        if e = '\n' ∨ e = '\r' then none else (regexLength? inClass fuel rest).map (· + 2)
    else if c = '/' && !inClass then some 1
    else if c = '[' then (regexLength? true fuel rest).map (· + 1)
    else if c = ']' then (regexLength? false fuel rest).map (· + 1)
    else (regexLength? inClass fuel rest).map (· + 1)

/-- Takes a pattern between slashes with its flags. -/
def regex : Parser Unit := do
  match (← here).rest with
  | '/' :: rest =>
    require (rest.head? != some '/' && rest.head? != some '*')
    match regexLength? false (rest.length + 1) rest with
    | some length =>
      let flags := ((rest.drop length).takeWhile fun c => 'a' ≤ c && c ≤ 'z').length
      take (1 + length + flags)
    | none => refuse
  | _ => refuse

end Uplift.Source
