import Uplift.Source.Grammar.Types

/-!
# Expressions

Infix operators are not ranked: a chain of operands with operators between them is one group,
because no rule asks how it nests.  A list in parentheses is read once, in a form that covers both
an expression in parentheses and the parameters of a function, and an arrow after it decides.
-/

set_option autoImplicit false

namespace Uplift.Source.Grammar

/-! ## Functions -/

/-- Statements in braces. -/
def block (rules : Rules) : Parser Node := do
  let start ← offset
  punctuator "\x7b"
  let statements ← many (rules .statement)
  punctuator "\x7d"
  group start statements

/-- What follows the arrow of a function. -/
def arrowBody (rules : Rules) : Parser Node := do
  if ← sees "\x7b" then block rules else rules .assignment

/-- The arrow of a function and what follows it. -/
def arrow (rules : Rules) : Parser Node := do
  punctuator "=>"
  arrowBody rules

/-- A function with its keyword.  `body` reads what it does. -/
def functionWith (rules : Rules) (body : Parser (List Node)) : Parser Node := do
  let start ← offset
  let _ ← takesWord "async"
  keyword "function"
  let _ ← takes "*"
  let own ← optional name
  let shape ← signature rules
  let body ← body
  group start (own.toList ++ shape :: body)

/-- A function as an expression. -/
def function (rules : Rules) : Parser Node :=
  functionWith rules (do return [← block rules])

/-- A function of parameters for types. -/
def genericArrow (rules : Rules) : Parser Node := do
  let start ← offset
  let generic ← typeParameters rules
  let taken ← parameters rules
  let given ← optional (typeMark rules)
  let body ← arrow rules
  group start (generic :: taken :: given.toList ++ [body])

/-- A function that waits. -/
def asyncArrow (rules : Rules) : Parser Node := do
  let start ← offset
  keyword "async"
  require !(← here).newline
  let plain := do
    let parameter ← name
    return [parameter, ← arrow rules]
  let full := do
    let shape ← signature rules
    return [shape, ← arrow rules]
  group start (← plain <|> full)

/-- A function of one parameter without parentheses. -/
def nameArrow (rules : Rules) : Parser Node := do
  let start ← offset
  let parameter ← name
  let body ← arrow rules
  group start [parameter, body]

/-! ## Parentheses -/

/-- An item of a list in parentheses.  The flag says that only a parameter can be written so. -/
def coverItem (rules : Rules) : Parser (Node × Bool) := do
  let start ← offset
  let spread ← takes "..."
  let value ← rules .assignment
  let mayMiss ← takes "?"
  let type ← optional (typeMark rules)
  let default ← if ← takes "=" then some <$> rules .assignment else pure none
  let onlyParameter := spread || mayMiss || default.isSome
  match type.toList ++ default.toList with
  | [] => return (value, onlyParameter)
  | more => return (← group start (value :: more), onlyParameter)

/-- The items of a list in parentheses.  The flag says that only parameters can be written so. -/
def coverItems (rules : Rules) : Nat → Parser (List Node × Bool)
  | 0 => refuse
  | fuel + 1 => do
    if ← takes ")" then return ([], true)
    let (first, onlyParameter) ← coverItem rules
    if ← takes "," then
      let (rest, onlyParameters) ← coverItems rules fuel
      return (first :: rest, onlyParameter || onlyParameters)
    punctuator ")"
    return ([first], onlyParameter)

/-- An expression in parentheses, or a function of the parameters in them. -/
def parenthesized (rules : Rules) : Parser Node := do
  let start ← offset
  punctuator "("
  let opening := Node.leaf .openParen start (start + 1)
  let (list, onlyParameters) ← coverItems rules ((← here).rest.length + 1)
  let typedArrow := do
    let given ← typeMark rules
    let body ← arrow rules
    return [given, body]
  if ← sees "=>" then group start (opening :: list ++ [← arrow rules])
  else
    match ← if ← sees ":" then optional typedArrow else pure none with
    | some rest => group start (opening :: list ++ rest)
    | none =>
      require !onlyParameters
      target start (opening :: list)

/-! ## Literals -/

/-- A list in brackets; places in it may be empty. -/
def arrayItems (rules : Rules) : Nat → Parser (List Node)
  | 0 => refuse
  | fuel + 1 => do
    if ← takes "]" then return []
    if ← takes "," then return ← arrayItems rules fuel
    let start ← offset
    let first ← if ← takes "..." then group start [← rules .assignment] else rules .assignment
    if ← takes "," then return first :: (← arrayItems rules fuel)
    punctuator "]"
    return [first]

/-- A list in brackets. -/
def array (rules : Rules) : Parser Node := do
  let start ← offset
  punctuator "["
  target start (← arrayItems rules ((← here).rest.length + 1))

/-- A method after the words in front of it. -/
def method (rules : Rules) : Parser Node := do
  let start ← offset
  let _ ← many (modifier ["async", "get", "set"])
  let _ ← takes "*"
  let key ← memberName rules
  let shape ← signature rules
  let body ← block rules
  group start [key, shape, body]

/-- A member of an object. -/
def objectMember (rules : Rules) : Parser Node := do
  let start ← offset
  if ← takes "..." then group start [← rules .assignment]
  else
    let pair := do
      let key ← memberName rules
      punctuator ":"
      let value ← rules .assignment
      group start [key, value]
    let short := do
      let key ← name
      require ((← sees ",") || (← sees "\x7d") || (← sees "="))
      let default ← if ← takes "=" then some <$> rules .assignment else pure none
      group start (key :: default.toList)
    let plainKey := ahead (do let _ ← memberName rules; punctuator ":")
    if ← plainKey then pair else short <|> method rules

/-- An object. -/
def object (rules : Rules) : Parser Node := do
  let start ← offset
  punctuator "\x7b"
  target start (← items (objectMember rules) (punctuator "\x7d"))

/-- What a declaration or a parameter binds: a name, or names inside an object or a list. -/
def binding (rules : Rules) : Parser Node := do
  match ← peekChar? with
  | some '\x7b' => object rules
  | some '[' => array rules
  | _ => if ← seesWord "this" then anyWord else name

/-! ## Classes -/

/-- The words in front of a member of a class. -/
def classModifiers : List String :=
  ["public", "private", "protected", "static", "abstract", "override", "readonly", "declare",
    "async", "accessor", "get", "set"]

/-- A block that runs when a class is made. -/
def staticBlock (rules : Rules) : Parser Node := do
  keyword "static"
  block rules

/-- A method or field of a class. -/
def classField (rules : Rules) : Parser Node := do
  let start ← offset
  let _ ← takes "*"
  let key ← indexKey rules <|> memberName rules
  let _ ← optional (oneOf ["?", "!"])
  if (← sees "(") || (← sees "<") then
    let shape ← signature rules
    let body ← if ← sees "\x7b" then some <$> block rules else do endStatement; pure none
    group start (key :: shape :: body.toList)
  else
    let type ← optional (typeMark rules)
    let value ← if ← takes "=" then some <$> rules .assignment else pure none
    if !(← takes ",") then endStatement
    group start (key :: type.toList ++ value.toList)

/-- A member of a class. -/
def classMember (rules : Rules) : Parser Node := do
  let _ ← many (punctuator ";")
  let start ← offset
  let marks ← decorators rules
  let plain := do
    let _ ← many (modifier classModifiers)
    let field ← classField rules
    group start (marks ++ [field])
  staticBlock rules <|> plain

/-- The members of a class in braces. -/
def classBody (rules : Rules) : Parser Node := do
  let start ← offset
  punctuator "\x7b"
  let members ← many (classMember rules)
  let _ ← many (punctuator ";")
  punctuator "\x7d"
  group start members

/-- What a class is built on. -/
def heritage (rules : Rules) : Parser (List Node) := do
  let base ←
    if ← takesWord "extends" then do
      let base ← rules .chain
      let given ← optional (typeArguments rules)
      pure (base :: given.toList)
    else pure []
  let promised ←
    if ← takesWord "implements" then separated (rules .type) (punctuator ",") else pure []
  return base ++ promised

/-- A class. -/
def classConstruct (rules : Rules) : Parser Node := do
  let start ← offset
  let marks ← decorators rules
  let _ ← takesWord "abstract"
  keyword "class"
  let own ←
    if (← seesWord "extends") || (← seesWord "implements") then pure none else optional name
  let generic ← optional (typeParameters rules)
  let built ← heritage rules
  let body ← classBody rules
  group start (marks ++ own.toList ++ generic.toList ++ built ++ [body])

/-! ## Operands -/

/-- Words that are values though they are never names. -/
def valueWords : List String :=
  ["this", "super", "null", "true", "false"]

/-- An operand that starts with a word. -/
def wordOperand (rules : Rules) : Parser Node := do
  match ← peekWord? with
  | some "function" => function rules
  | some "class" => classConstruct rules
  | some "new" => rules .construction
  | some "import" => importWord
  | some "async" => function rules <|> asyncArrow rules <|> name
  | some text =>
    if valueWords.contains text then
      let start ← offset
      let _ ← word
      group start []
    else nameArrow rules <|> name
  | none => refuse

/-- A tag with its contents, where blanks after it mean nothing. -/
def element (rules : Rules) : Parser Node := do
  let node ← rules .element
  skipBlanks
  return node

/-- An operand before anything is taken or called of it. -/
def primary (dialect : Dialect) (rules : Rules) : Parser Node := do
  let start ← offset
  match ← peekChar? with
  | some '(' => parenthesized rules
  | some '[' => array rules
  | some '\x7b' => object rules
  | some '"' | some '\'' => stringLiteral
  | some '\x60' => template (rules .expression)
  | some '/' => regex; group start []
  | some '#' => privateName
  | some '@' => classConstruct rules
  | some '<' =>
    match dialect with
    | .markup => genericArrow rules <|> element rules
    | .typed => genericArrow rules
  | some c => if c.isDigit || c = '.' then numberLiteral else wordOperand rules
  | none => refuse

/-- Type arguments in front of what they are for. -/
def givenTypes (rules : Rules) : Parser Node := do
  let given ← typeArguments rules
  require ((← sees "(") || (← peekChar?) = some '\x60')
  return given

/-- What is taken of an operand, or called if `callable`. -/
def chainRest (callable : Bool) (rules : Rules) (start : Nat) : Nat → Node → Parser Node
  | 0, _ => refuse
  | fuel + 1, left => do
    let continued (node : Node) := chainRest callable rules start fuel node
    let index := do
      punctuator "["
      let key ← rules .expression
      punctuator "]"
      target start [left, key]
    match ← peekPunctuator? with
    | some "." =>
      punctuator "."
      let _ ← privateName <|> anyWord
      continued (← target start [left])
    | some "[" => continued (← index)
    | some "\x60" =>
      let text ← template (rules .expression)
      continued (← group start [left, text])
    | some "!" =>
      if (← here).newline then return left
      punctuator "!"
      continued (← target start [left])
    | some "?." =>
      require callable
      punctuator "?."
      if ← sees "(" then continued (← call start left [] (← arguments rules))
      else if ← sees "[" then continued (← index)
      else
        match ← optional (givenTypes rules) with
        | some given => continued (← call start left [given] (← arguments rules))
        | none =>
          let _ ← privateName <|> anyWord
          continued (← target start [left])
    | some "(" =>
      if callable then continued (← call start left [] (← arguments rules)) else return left
    | some "<" =>
      match ← if callable then optional (givenTypes rules) else pure none with
      | some given =>
        if ← sees "(" then continued (← call start left [given] (← arguments rules))
        else continued (← group start [left, given])
      | none => return left
    | _ => return left

/-- An operand with what is taken or called of it. -/
def chain (dialect : Dialect) (rules : Rules) : Parser Node := do
  let start ← offset
  let left ← primary dialect rules
  chainRest true rules start ((← here).rest.length + 1) left

/-- What is built by `new`. -/
def construction (dialect : Dialect) (rules : Rules) : Parser Node := do
  let start ← offset
  keyword "new"
  if ← takes "." then
    let _ ← word
    group start []
  else
    let inner ← offset
    let head ← primary dialect rules
    let built ← chainRest false rules inner ((← here).rest.length + 1) head
    let given ← optional (typeArguments rules)
    let taken ← if ← sees "(" then some <$> arguments rules else pure none
    group start (built :: given.toList ++ taken.toList)

/-- An operand with an operator before it. -/
def prefixed (rules : Rules) : Parser Node := do
  let start ← offset
  match ← peekWord? with
  | some text => take text.length
  | none => oneOf ["!", "~", "+", "-", "++", "--"]
  group start [← rules .unary]

/-- A type in angle brackets with the operand it is asserted of. -/
def assertion (rules : Rules) : Parser Node := do
  let start ← offset
  let type ← typeArguments rules
  let operand ← rules .unary
  group start [type, operand]

/-- The operators that assign. -/
def assignmentOperators : List String :=
  ["=", "+=", "-=", "*=", "/=", "%=", "**=", "<<=", ">>=", ">>>=", "&=", "|=", "^=", "&&=", "||=",
    "??="]

/-- Takes the operator of an assignment to an operand, if one stands here. -/
def takesAssignment (operand : Node) : Parser Bool := do
  match ← peekPunctuator? with
  | some text =>
    if isTarget operand && assignmentOperators.contains text then
      take text.length
      return true
    else return false
  | none => return false

/-- An operand with the operator after it.  What is assigned to an operand belongs to it, so that
the operators before it apply to the whole assignment. -/
def postfixed (rules : Rules) : Parser Node := do
  let start ← offset
  let operand ← rules .chain
  if ← takesAssignment operand then group start [operand, ← rules .assignment]
  else if (← here).newline then return operand
  else if (← takes "++") || (← takes "--") then group start [operand]
  else return operand

/-- The word `await` as a name: nothing that it could wait for follows it. -/
def awaitName : Parser Unit := do
  keyword "await"
  match ← peekPunctuator? with
  | some text => require ([")", "]", "\x7d", ";", ",", ".", ":", "=", "=>", "?."].contains text)
  | none => require (← atEnd)

/-- An operand with the operators around it. -/
def unary (dialect : Dialect) (rules : Rules) : Parser Node := do
  match dialect, ← peekChar? with
  | .typed, some '<' => postfixed rules <|> assertion rules
  | _, _ =>
    let operator ← match ← peekWord? with
      | some text => do
        pure (["typeof", "void", "delete"].contains text ||
          (text = "await" && !(← ahead awaitName)))
      | none => do
        pure (["!", "~", "+", "-", "++", "--"].contains ((← peekPunctuator?).getD ""))
    if operator then prefixed rules else postfixed rules

/-! ## Operators -/

/-- The infix operators that are punctuation. -/
def infixOperators : List String :=
  ["||", "&&", "??", "|", "^", "&", "==", "!=", "===", "!==", "<", ">", "<=", ">=", "<<", ">>",
    ">>>", "+", "-", "*", "/", "%", "**"]

/-- An infix operator with what stands after it. -/
def infixPart (rules : Rules) : Parser Node := do
  match ← peekWord? with
  | some text =>
    if text = "in" ∨ text = "instanceof" then
      take text.length
      rules .unary
    else
      require (text = "as" || text = "satisfies")
      require !(← here).newline
      take text.length
      rules .type
  | none =>
    oneOf infixOperators
    rules .unary

/-- Operands with infix operators between them. -/
def operation (rules : Rules) : Parser Node := do
  let start ← offset
  let first ← rules .unary
  let rest ← many (infixPart rules)
  if rest.isEmpty then return first else group start (first :: rest)

/-- A question mark that belongs to a parameter. -/
def parameterMark : Parser Unit := do
  punctuator "?"
  oneOf [":", ",", ")", "="]

/-- A value handed out of a function that goes on. -/
def yielded (rules : Rules) : Parser Node := do
  let start ← offset
  keyword "yield"
  if ← takes "*" then group start [← rules .assignment]
  else if (← here).newline then group start []
  else
    let value ← optional (rules .assignment)
    group start value.toList

/-- One expression. -/
def assignment (rules : Rules) : Parser Node := do
  if ← seesWord "yield" then yielded rules
  else
    let start ← offset
    let left ← operation rules
    if (← sees "?") && !(← ahead parameterMark) then
      punctuator "?"
      let yes ← rules .assignment
      punctuator ":"
      let no ← rules .assignment
      group start [left, yes, no]
    else return left

/-- Expressions separated by commas. -/
def expression (rules : Rules) : Parser Node := do
  let start ← offset
  match ← separated (rules .assignment) (punctuator ",") with
  | [single] => return single
  | several => group start several

/-! ## Elements -/

/-- The name of a tag or of an attribute. -/
def tagName : Parser Unit := do
  let part := do
    let text := (← here).rest
    require ((text.head?.map isWordStart) = some true)
    take (text.takeWhile fun c => isWordChar c || c = '-').length
  part
  let _ ← many (do oneOf [".", ":"]; part)

/-- A quoted value of an attribute; it ends at the same quote and has no escapes. -/
def attributeText : Parser Node := do
  let start ← offset
  match (← here).rest with
  | quote :: rest =>
    require (quote = '"' || quote = '\'')
    let length := (rest.takeWhile (· != quote)).length
    require (length < rest.length)
    take (length + 2)
    finish .string start []
  | [] => refuse

/-- An expression in braces; `close` takes the closing brace. -/
def contained (rules : Rules) (close : Parser Unit) : Parser Node := do
  let start ← offset
  punctuator "\x7b"
  let _ ← takes "..."
  let inner ← optional (rules .expression)
  require ((← peekChar?) = some '\x7d')
  close
  group start inner.toList

/-- An attribute of a tag. -/
def tagAttribute (rules : Rules) : Parser Node := do
  if ← sees "\x7b" then contained rules (take 1)
  else
    let start ← offset
    tagName
    let value ←
      if ← takes "=" then
        some <$> (attributeText <|> contained rules (take 1) <|> element rules)
      else pure none
    group start value.toList

/-- A part of the contents of an element.  Blanks after it are text. -/
def elementChild (rules : Rules) : Parser Node := do
  match ← peekChar? with
  | some '\x7b' => contained rules (takeRaw 1)
  | some '<' => rules .element
  | _ => refuse

/-- The contents of an element up to its closing tag. -/
def elementChildren (rules : Rules) : Nat → Parser (List Node)
  | 0 => refuse
  | fuel + 1 => do
    let text := (← here).rest.takeWhile fun c =>
      c != '<' && c != '>' && c != '\x7b' && c != '\x7d'
    takeRaw text.length
    if (← here).rest.take 2 = ['<', '/'] then return []
    let child ← elementChild rules
    return child :: (← elementChildren rules fuel)

/-- A tag with its contents.  The place after it is right after its closing bracket. -/
def rawElement (rules : Rules) : Parser Node := do
  let start ← offset
  require ((← peekChar?) = some '<')
  take 1
  let opened ← optional tagName
  let given ← if opened.isSome then optional (typeArguments rules) else pure none
  let attributes ← if opened.isSome then many (tagAttribute rules) else pure []
  if opened.isSome && (← sees "/") then
    take 1
    require ((← peekChar?) = some '>')
    takeRaw 1
    group start (given.toList ++ attributes)
  else
    require ((← peekChar?) = some '>')
    takeRaw 1
    let children ← elementChildren rules ((← here).rest.length + 1)
    take 2
    if opened.isSome then tagName
    require ((← peekChar?) = some '>')
    takeRaw 1
    group start (given.toList ++ attributes ++ children)

end Uplift.Source.Grammar
