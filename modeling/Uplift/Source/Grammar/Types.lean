import Uplift.Source.Grammar.Basic

/-!
# Types

Annotations, type parameters and arguments, parameter lists, and the types themselves.
-/

set_option autoImplicit false

namespace Uplift.Source.Grammar

/-- Types in angle brackets after a name. -/
def typeArguments (rules : Rules) : Parser Node := do
  let start ← offset
  punctuator "<"
  group start (← items (rules .type) closeAngle)

/-- One parameter that stands for a type. -/
def typeParameter (rules : Rules) : Parser Node := do
  let start ← offset
  let _ ← many (modifier ["const", "in", "out"])
  let parameter ← name
  let bound ← optional (do keyword "extends"; rules .type)
  let default ← optional (do punctuator "="; rules .type)
  group start (parameter :: bound.toList ++ default.toList)

/-- The parameters of a construct that stand for types. -/
def typeParameters (rules : Rules) : Parser Node := do
  let start ← offset
  punctuator "<"
  group start (← items (typeParameter rules) closeAngle)

/-- A type after a colon. -/
def typeMark (rules : Rules) : Parser Node := do
  punctuator ":"
  rules .type

/-- The annotations in front of a declaration. -/
def decorators (rules : Rules) : Parser (List Node) :=
  many (do punctuator "@"; rules .chain)

/-- The words in front of a parameter that make it a member. -/
def parameterModifier : Parser Unit := do
  let text ← word
  require (["public", "private", "protected", "override", "readonly"].contains text)
  match ← peekChar? with
  | some c => require (isWordStart c || c = '\x7b' || c = '[')
  | none => refuse

/-- One parameter of a function. -/
def parameter (rules : Rules) : Parser Node := do
  let start ← offset
  let marks ← decorators rules
  let _ ← many parameterModifier
  let _ ← takes "..."
  let target ← rules .binding
  let _ ← takes "?"
  let type ← optional (typeMark rules)
  let default ← if ← takes "=" then some <$> rules .assignment else pure none
  group start (marks ++ target :: type.toList ++ default.toList)

/-- The parameters of a function. -/
def parameters (rules : Rules) : Parser Node := do
  let start ← offset
  punctuator "("
  group start (← items (parameter rules) (punctuator ")"))

/-- What a function takes and gives. -/
def signature (rules : Rules) : Parser Node := do
  let start ← offset
  let generic ← optional (typeParameters rules)
  let taken ← parameters rules
  let given ← optional (typeMark rules)
  group start (generic.toList ++ taken :: given.toList)

/-! ## Members of object types -/

/-- The name of a member. -/
def memberName (rules : Rules) : Parser Node := do
  match ← peekChar? with
  | some '"' | some '\'' => stringLiteral
  | some '#' => privateName
  | some '[' =>
    let start ← offset
    punctuator "["
    let key ← rules .expression
    punctuator "]"
    group start [key]
  | some c => if c.isDigit || c = '.' then numberLiteral else anyWord
  | none => refuse

/-- A key between brackets with its type, or one that runs over a type. -/
def indexKey (rules : Rules) : Parser Node := do
  let start ← offset
  punctuator "["
  let key ← name
  let types ←
    if ← takes ":" then pure [← rules .type]
    else do
      keyword "in"
      let keys ← rules .type
      let renamed ← optional (do keyword "as"; rules .type)
      pure (keys :: renamed.toList)
  punctuator "]"
  group start (key :: types)

/-- A mark that a member may be missing. -/
def optionalMark : Parser Unit := do
  let _ ← optional (oneOf ["+", "-"])
  punctuator "?"

/-- The words in front of a member of an object type. -/
def typeModifiers : List String :=
  ["readonly", "static", "public", "private", "protected", "override", "get", "set", "declare",
    "abstract", "async"]

/-- A member of an object type. -/
def typeMember (rules : Rules) : Parser Node := do
  let start ← offset
  let _ ← optional (oneOf ["+", "-"])
  let _ ← many (modifier typeModifiers)
  if (← sees "(") || (← sees "<") then signature rules
  else
    let build := do
      keyword "new"
      let inner ← signature rules
      group start [inner]
    let field := do
      let key ← indexKey rules <|> memberName rules
      let _ ← optional optionalMark
      let type ← optional (signature rules <|> typeMark rules)
      group start (key :: type.toList)
    build <|> field

/-- Ends a member of an object type. -/
def endMember : Parser Unit := do
  if (← takes ",") || (← takes ";") then return ()
  let place ← here
  require (place.newline || place.rest.head? = some '\x7d')

/-- The members of an object type in braces. -/
def objectType (rules : Rules) : Parser Node := do
  let start ← offset
  punctuator "\x7b"
  let members ← many (do
    let _ ← many (oneOf [",", ";"])
    let member ← typeMember rules
    endMember
    return member)
  let _ ← many (oneOf [",", ";"])
  punctuator "\x7d"
  group start members

/-! ## Types -/

/-- A member of a tuple. -/
def tupleMember (rules : Rules) : Parser Node := do
  let start ← offset
  let _ ← takes "..."
  let named := do
    let label ← name
    let _ ← takes "?"
    let type ← typeMark rules
    group start [label, type]
  let plain := do
    let type ← rules .type
    let _ ← takes "?"
    group start [type]
  named <|> plain

/-- Words that are types though they are never names. -/
def typeWords : List String :=
  ["void", "null", "this", "true", "false", "const"]

/-- A named type. -/
def typeReference (rules : Rules) : Parser Node := do
  let start ← offset
  let head ← word
  require (!reserved.contains head || typeWords.contains head)
  let _ ← many (do punctuator "."; let _ ← word)
  let predicate ←
    if (← seesWord "is") && !(← here).newline then do
      keyword "is"
      some <$> rules .type
    else pure none
  let given ← if (← here).newline then pure none else optional (typeArguments rules)
  group start (predicate.toList ++ given.toList)

/-- The word `import` in front of something that is called or taken of it. -/
def importWord : Parser Node := do
  let start ← offset
  keyword "import"
  require ((← sees "(") || (← sees "."))
  finish .importKeyword start []

/-- What is called or taken of a value named in a type. -/
def queryRest (rules : Rules) (start : Nat) : Nat → Node → Parser Node
  | 0, _ => refuse
  | fuel + 1, left => do
    if ← takes "." then
      let _ ← privateName <|> anyWord
      queryRest rules start fuel (← group start [left])
    else if ← sees "(" then
      let given ← arguments rules
      queryRest rules start fuel (← call start left [] given)
    else return left

/-- A value named in a type. -/
def query (rules : Rules) (head : Parser Node) : Parser Node := do
  let start ← offset
  let left ← head
  queryRest rules start ((← here).rest.length + 1) left

/-- The type of a value. -/
def typeQuery (rules : Rules) : Parser Node := do
  let start ← offset
  keyword "typeof"
  let this := do
    let start ← offset
    keyword "this"
    group start []
  let value ← query rules (importWord <|> this <|> name)
  let given ← if (← here).newline then pure none else optional (typeArguments rules)
  group start (value :: given.toList)

/-- A type that brackets may follow. -/
def primaryType (rules : Rules) : Parser Node := do
  let start ← offset
  match ← peekChar? with
  | some '(' =>
    punctuator "("
    let inner ← rules .type
    punctuator ")"
    group start [inner]
  | some '\x7b' => objectType rules
  | some '[' =>
    punctuator "["
    group start (← items (tupleMember rules) (punctuator "]"))
  | some '"' | some '\'' => group start [← stringLiteral]
  | some '\x60' => template (rules .type)
  | some '-' =>
    punctuator "-"
    group start [← numberLiteral]
  | some c =>
    if c.isDigit || c = '.' then numberLiteral
    else if ← seesWord "typeof" then typeQuery rules
    else typeReference rules
  | none => refuse

/-- Brackets after a type. -/
def typeBrackets (rules : Rules) : Parser (List Node) := do
  require !(← here).newline
  punctuator "["
  if ← takes "]" then return []
  let key ← rules .type
  punctuator "]"
  return [key]

/-- A type with the brackets after it. -/
def postfixType (rules : Rules) : Parser Node := do
  let start ← offset
  let left ← primaryType rules
  let brackets ← many (typeBrackets rules)
  if brackets.isEmpty then return left else group start (left :: brackets.flatten)

/-- The type of functions or of what `new` takes. -/
def functionType (rules : Rules) : Parser Node := do
  let start ← offset
  if ← takesWord "abstract" then require (← seesWord "new")
  let _ ← takesWord "new"
  let generic ← optional (typeParameters rules)
  let taken ← parameters rules
  punctuator "=>"
  let given ← rules .type
  group start (generic.toList ++ [taken, given])

/-- A type behind a word that makes another type of it. -/
def prefixedType (rules : Rules) : Parser Node := do
  let start ← offset
  let text ← word
  if text = "infer" then
    let bound ← name
    let limit ← optional (do
      keyword "extends"
      let limit ← rules .typeOperand
      require !(← sees "?")
      return limit)
    group start (bound :: limit.toList)
  else
    require (["keyof", "readonly", "unique", "asserts"].contains text)
    group start [← rules .typeOperand]

/-- A type without infix operators. -/
def typeOperand (rules : Rules) : Parser Node :=
  functionType rules <|> query rules importWord <|> prefixedType rules <|> postfixType rules

/-- A type. -/
def type (rules : Rules) : Parser Node := do
  let start ← offset
  let _ ← optional (oneOf ["|", "&"])
  let operands ← separated (rules .typeOperand) (oneOf ["|", "&"])
  if (← seesWord "extends") && !(← here).newline then
    keyword "extends"
    let limit ← rules .type
    punctuator "?"
    let yes ← rules .type
    punctuator ":"
    let no ← rules .type
    group start (operands ++ [limit, yes, no])
  else
    match operands with
    | [single] => return single
    | operands => group start operands

end Uplift.Source.Grammar
