import Uplift.Source.Lexeme
import Uplift.Source.Tree

/-!
# Parts shared by all constructs

The constructs of the language refer to each other, so each rule is written against a table of
rules for its parts and the table is closed at the end.  Here are the categories that such a table
covers, and the shapes that occur everywhere: lists, names, strings and templates.
-/

set_option autoImplicit false

namespace Uplift.Source

/-- Which constructs a text may use. -/
inductive Dialect where
  /-- Types, with assertions in angle brackets. -/
  | typed
  /-- Types, with elements in angle brackets. -/
  | markup
  deriving DecidableEq, Repr

/-- The constructs that others refer to. -/
inductive Category where
  | statement
  /-- Expressions separated by commas. -/
  | expression
  /-- One expression without a comma outside of brackets. -/
  | assignment
  /-- An operand with the operators before it. -/
  | unary
  /-- An operand with what is taken or called of it. -/
  | chain
  /-- What is built by `new`. -/
  | construction
  /-- What a declaration or a parameter binds. -/
  | binding
  | type
  /-- A type without infix operators. -/
  | typeOperand
  /-- A tag with its contents. -/
  | element
  deriving DecidableEq, Repr

/-- A table of rules. -/
abbrev Rules := Category → Parser Node

namespace Grammar

/-- A node of a kind that starts at an offset and ends with the last lexeme. -/
def finish (kind : Kind) (start : Nat) (children : List Node) : Parser Node := do
  return .mk ⟨kind, .plain, start, (← here).lexemeEnd⟩ children

/-- A node without a meaning of its own. -/
def group (start : Nat) (children : List Node) : Parser Node :=
  finish .group start children

/-- A node for what can be assigned to. -/
def target (start : Nat) (children : List Node) : Parser Node :=
  finish .target start children

/-- Whether a construct can be assigned to. -/
def isTarget (node : Node) : Bool :=
  node.label.kind = .identifier || node.label.kind = .target

/-- The items of a list up to its closing lexeme; a comma may follow the last one. -/
def itemsUpTo (item : Parser Node) (close : Parser Unit) : Nat → Parser (List Node)
  | 0 => refuse
  | fuel + 1 => do
    if (← optional close).isSome then return []
    let first ← item
    if ← takes "," then return first :: (← itemsUpTo item close fuel)
    close
    return [first]

/-- The items of a list up to its closing lexeme. -/
def items (item : Parser Node) (close : Parser Unit) : Parser (List Node) := do
  itemsUpTo item close ((← here).rest.length + 1)

/-- One or more items with a separator between them. -/
def separated (item : Parser Node) (separator : Parser Unit) : Parser (List Node) := do
  let first ← item
  let rest ← many (do separator; item)
  return first :: rest

/-- A name. -/
def name : Parser Node := do
  let start ← offset
  let _ ← nameWord
  finish .identifier start []

/-- Any word. -/
def anyWord : Parser Node := do
  let start ← offset
  let _ ← word
  finish .identifier start []

/-- A string literal. -/
def stringLiteral : Parser Node := do
  let start ← offset
  match stringLength? (← here).rest with
  | some length => take length; finish .string start []
  | none => refuse

/-- A number. -/
def numberLiteral : Parser Node := do
  let start ← offset
  number
  group start []

/-- The rest of a template, with what stands in its holes. -/
def templateRest (hole : Parser Node) : Nat → Parser (List Node)
  | 0 => refuse
  | fuel + 1 => do
    let text := (← here).rest
    match templateText? (text.length + 1) text with
    | none => refuse
    | some (length, .closed) => take length; return []
    | some (length, .hole) =>
      take length
      let inner ← hole
      require ((← peekChar?) = some '\x7d')
      takeRaw 1
      return inner :: (← templateRest hole fuel)

/-- A template. -/
def template (hole : Parser Node) : Parser Node := do
  let start ← offset
  require ((← peekChar?) = some '\x60')
  takeRaw 1
  group start (← templateRest hole ((← here).rest.length + 1))

/-- A private name. -/
def privateName : Parser Node := do
  let start ← offset
  require ((← peekChar?) = some '#')
  takeRaw 1
  let _ ← word
  group start []

/-- Whether a character may start the name of a member. -/
def startsMember (c : Char) : Bool :=
  isWordStart c || c.isDigit || c = '"' || c = '\'' || c = '[' || c = '#' || c = '*' || c = '\\'

/-- One of the words that say something of the member after them. -/
def modifier (words : List String) : Parser Unit := do
  let text ← word
  require (words.contains text)
  require (((← peekChar?).map startsMember) = some true)

/-- Ends a statement: by a semicolon, or in front of a closing brace, a new line or the end. -/
def endStatement : Parser Unit := do
  if ← takes ";" then return ()
  let place ← here
  require (place.newline || place.rest.isEmpty || place.rest.head? = some '\x7d')

/-- The arguments of a call.  A comment in front of the first counts as one of them. -/
def arguments (rules : Rules) : Parser Node := do
  let start ← offset
  require ((← peekChar?) = some '(')
  take 1
  let opening := Node.leaf .openParen start (start + 1)
  let notes := (← here).comment?.toList.map fun (start, stop) => Node.leaf .comment start stop
  let argument := do
    let start ← offset
    if ← takes "..." then group start [← rules .assignment] else rules .assignment
  let list ← items argument (punctuator ")")
  finish .arguments start (opening :: notes ++ list)

/-- A call of something. -/
def call (start : Nat) (callee : Node) (between : List Node) (arguments : Node) : Parser Node :=
  finish .call start (callee.withRole .callee :: between ++ [arguments])

end Grammar

end Uplift.Source
