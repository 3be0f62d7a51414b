import Uplift.Source.Grammar.Expressions

/-!
# Statements

Declarations, control flow, and the statements that name other modules.  The string that names the
module of an import or export statement is the child in the role of source; every other string in
such a statement, such as an exported name in quotes, has no role.
-/

set_option autoImplicit false

namespace Uplift.Source.Grammar

/-! ## Modules -/

/-- The module that a statement names. -/
def moduleSource : Parser Node := do
  return (← stringLiteral).withRole .source

/-- The word `from` with the module that a statement names. -/
def fromModule : Parser Node := do
  keyword "from"
  moduleSource

/-- What is said about an import in braces at its end. -/
def importAttributes (rules : Rules) : Parser Node := do
  require ((← seesWord "with") || (← seesWord "assert"))
  let _ ← word
  object rules

/-- A name that modules exchange; it may be in quotes. -/
def exchangedName : Parser Node :=
  stringLiteral <|> anyWord

/-- One of the names in braces that modules exchange. -/
def exchanged : Parser Node := do
  let start ← offset
  let renamed := do
    let outer ← exchangedName
    keyword "as"
    let inner ← exchangedName
    require ((← sees ",") || (← sees "\x7d"))
    return [outer, inner]
  let typed := do
    let _ ← word
    let names ← renamed <|> (do return [← exchangedName])
    require ((← sees ",") || (← sees "\x7d"))
    return names
  let plain := do
    let names ← renamed <|> (do return [← exchangedName])
    require ((← sees ",") || (← sees "\x7d"))
    return names
  if (← seesWord "type") || (← seesWord "typeof") then group start (← plain <|> typed)
  else group start (← plain)

/-- The names in braces that modules exchange. -/
def exchangedNames : Parser Node := do
  let start ← offset
  punctuator "\x7b"
  group start (← items exchanged (punctuator "\x7d"))

/-- All of a module under one name. -/
def wholeModule : Parser Node := do
  let start ← offset
  punctuator "*"
  keyword "as"
  let own ← name
  group start [own]

/-- What an import statement binds. -/
def importClause : Parser Node := do
  let start ← offset
  let bundle := wholeModule <|> exchangedNames
  let single := do
    let own ← name
    let more ← if ← takes "," then some <$> bundle else pure none
    return own :: more.toList
  group start (← (do return [← bundle]) <|> single)

/-- The right side of `import a = require("b")`. -/
def importRequire : Parser Node := do
  let start ← offset
  let own ← name
  punctuator "="
  keyword "require"
  punctuator "("
  let source ← stringLiteral
  punctuator ")"
  finish .importRequire start [own, source]

/-- What follows the first words of an import statement. -/
def importRest (rules : Rules) : Parser (List Node) := do
  let bound := do
    let clause ← importClause
    let source ← fromModule
    return [clause, source]
  let required := do return [← importRequire]
  let bare := do return [← moduleSource]
  let parts ← bound <|> required <|> bare
  let said ← optional (importAttributes rules)
  endStatement
  return parts ++ said.toList

/-- Another name for something inside a namespace. -/
def importAlias : Parser Node := do
  let start ← offset
  keyword "import"
  let own ← name
  punctuator "="
  let _ ← separated name (punctuator ".")
  endStatement
  group start [own]

/-- An import statement. -/
def importStatement (rules : Rules) : Parser Node := do
  let start ← offset
  let plain := do
    keyword "import"
    importRest rules
  let typed := do
    keyword "import"
    require ((← seesWord "type") || (← seesWord "typeof"))
    let _ ← word
    importRest rules
  let full := do finish .importStatement start (← plain <|> typed)
  full <|> importAlias

/-! ## Declarations -/

/-- One of the names that a declaration binds, with its value. -/
def declarator (rules : Rules) : Parser Node := do
  let start ← offset
  let target ← rules .binding
  let _ ← takes "!"
  let type ← optional (typeMark rules)
  let value ← if ← takes "=" then some <$> rules .assignment else pure none
  group start (target :: type.toList ++ value.toList)

/-- The word that starts a declaration of names. -/
def declarationWord : Parser Unit := do
  let text ← word
  require (["var", "let", "const"].contains text)

/-- A declaration of names. -/
def declaration (rules : Rules) : Parser Node := do
  let start ← offset
  declarationWord
  let list ← separated (declarator rules) (punctuator ",")
  endStatement
  group start list

/-- A function as a statement; without a body it only declares one. -/
def functionStatement (rules : Rules) : Parser Node :=
  functionWith rules (do
    if ← sees "\x7b" then return [← block rules]
    endStatement
    return [])

/-- Another name for a type. -/
def typeAlias (rules : Rules) : Parser Node := do
  let start ← offset
  keyword "type"
  let own ← name
  let generic ← optional (typeParameters rules)
  punctuator "="
  let type ← rules .type
  endStatement
  group start (own :: generic.toList ++ [type])

/-- A named object type. -/
def interfaceStatement (rules : Rules) : Parser Node := do
  let start ← offset
  keyword "interface"
  let own ← name
  let generic ← optional (typeParameters rules)
  let bases ← if ← takesWord "extends" then separated (rules .type) (punctuator ",") else pure []
  let body ← objectType rules
  group start (own :: generic.toList ++ bases ++ [body])

/-- One of the values of an enumeration. -/
def enumMember (rules : Rules) : Parser Node := do
  let start ← offset
  let own ← memberName rules
  let value ← if ← takes "=" then some <$> rules .assignment else pure none
  group start (own :: value.toList)

/-- An enumeration. -/
def enumStatement (rules : Rules) : Parser Node := do
  let start ← offset
  let _ ← takesWord "const"
  keyword "enum"
  let own ← name
  punctuator "\x7b"
  let members ← items (enumMember rules) (punctuator "\x7d")
  group start (own :: members)

/-- A namespace, or what is declared of a module. -/
def namespaceStatement (rules : Rules) : Parser Node := do
  let start ← offset
  let text ← word
  let own ←
    if text = "global" then pure []
    else do
      require (text = "namespace" || text = "module")
      require !(← here).newline
      (do return [← stringLiteral]) <|> separated name (punctuator ".")
  if ← sees "\x7b" then group start (own ++ [← block rules])
  else
    require (text = "module")
    endStatement
    group start own

/-- A declaration of something that is defined elsewhere. -/
def ambientStatement (rules : Rules) : Parser Node := do
  let start ← offset
  keyword "declare"
  require !(← here).newline
  match ← peekWord? with
  | some text =>
    require (["var", "let", "const", "function", "async", "class", "abstract", "enum", "namespace",
      "module", "global", "type", "interface"].contains text)
    let inner ← if text = "global" then namespaceStatement rules else rules .statement
    group start [inner]
  | none => refuse

/-! ## Exports -/

/-- The words that start a declaration which may be exported. -/
def exportableWords : List String :=
  ["var", "let", "const", "function", "async", "class", "abstract", "enum", "namespace", "module",
    "type", "interface", "declare"]

/-- Exports everything of a module. -/
def exportAll : Parser (List Node) := do
  let start ← offset
  punctuator "*"
  let own ← if ← takesWord "as" then some <$> group start [← exchangedName] else pure none
  let source ← fromModule
  endStatement
  return own.toList ++ [source]

/-- Exports names, perhaps of another module. -/
def exportNames (rules : Rules) : Parser (List Node) := do
  let names ← exchangedNames
  let source ← optional fromModule
  let said ← optional (importAttributes rules)
  endStatement
  return names :: source.toList ++ said.toList

/-- Exports a value without a name. -/
def exportDefault (rules : Rules) : Parser (List Node) := do
  keyword "default"
  let declared := functionStatement rules <|> classConstruct rules <|> interfaceStatement rules
  let plain := do
    let value ← rules .assignment
    endStatement
    return value
  return [← declared <|> plain]

/-- What follows the word `export`. -/
def exportRest (rules : Rules) : Parser (List Node) := do
  match ← peekPunctuator? with
  | some "*" => exportAll
  | some "\x7b" => exportNames rules
  | some "=" =>
    punctuator "="
    let value ← rules .expression
    endStatement
    return [value]
  | some "@" => return [← classConstruct rules]
  | _ =>
    match ← peekWord? with
    | some "default" => exportDefault rules
    | some "import" => return [← importAlias]
    | some "as" =>
      keyword "as"
      keyword "namespace"
      let own ← name
      endStatement
      return [own]
    | some text =>
      let declared := do
        require (exportableWords.contains text)
        return [← rules .statement]
      let typed := do
        keyword "type"
        exportNames rules <|> exportAll
      if text = "type" then typed <|> declared else declared
    | none => refuse

/-- An export statement. -/
def exportStatement (rules : Rules) : Parser Node := do
  let start ← offset
  keyword "export"
  finish .exportStatement start (← exportRest rules)

/-! ## Control flow -/

/-- An expression in parentheses after the word of a statement. -/
def condition (rules : Rules) : Parser Node := do
  let start ← offset
  punctuator "("
  let inner ← rules .expression
  punctuator ")"
  group start [inner]

/-- A choice between two statements. -/
def ifStatement (rules : Rules) : Parser Node := do
  let start ← offset
  keyword "if"
  let test ← condition rules
  let yes ← rules .statement
  let no ← if ← takesWord "else" then some <$> rules .statement else pure none
  group start (test :: yes :: no.toList)

/-- The head of a loop over the items of something. -/
def eachHead (rules : Rules) : Parser (List Node) := do
  let declared := do
    declarationWord
    rules .binding
  let item ← declared <|> rules .chain
  require ((← seesWord "of") || (← seesWord "in"))
  let _ ← word
  let all ← rules .expression
  punctuator ")"
  return [item, all]

/-- The head of a loop with a start, a test and a step. -/
def countHead (rules : Rules) : Parser (List Node) := do
  let first ←
    if ← takes ";" then pure none
    else do
      let start ← offset
      let declared := do
        declarationWord
        group start (← separated (declarator rules) (punctuator ","))
      let first ← declared <|> rules .expression
      punctuator ";"
      pure (some first)
  let test ← if ← sees ";" then pure none else some <$> rules .expression
  punctuator ";"
  let step ← if ← sees ")" then pure none else some <$> rules .expression
  punctuator ")"
  return first.toList ++ test.toList ++ step.toList

/-- A loop with a head. -/
def forStatement (rules : Rules) : Parser Node := do
  let start ← offset
  keyword "for"
  let _ ← takesWord "await"
  punctuator "("
  let head ← eachHead rules <|> countHead rules
  let body ← rules .statement
  group start (head ++ [body])

/-- A loop with a test before it. -/
def whileStatement (rules : Rules) : Parser Node := do
  let start ← offset
  keyword "while"
  let test ← condition rules
  let body ← rules .statement
  group start [test, body]

/-- A loop with a test after it. -/
def doStatement (rules : Rules) : Parser Node := do
  let start ← offset
  keyword "do"
  let body ← rules .statement
  keyword "while"
  let test ← condition rules
  let _ ← takes ";"
  group start [body, test]

/-- The statements for one value of a switch. -/
def switchCase (rules : Rules) : Parser Node := do
  let start ← offset
  let value ←
    if ← takesWord "default" then pure none
    else do
      keyword "case"
      some <$> rules .expression
  punctuator ":"
  let statements ← many (rules .statement)
  group start (value.toList ++ statements)

/-- A choice by value. -/
def switchStatement (rules : Rules) : Parser Node := do
  let start ← offset
  keyword "switch"
  let value ← condition rules
  punctuator "\x7b"
  let cases ← many (switchCase rules)
  punctuator "\x7d"
  group start (value :: cases)

/-- What catches a failure. -/
def catchClause (rules : Rules) : Parser Node := do
  let start ← offset
  keyword "catch"
  let caught ←
    if ← takes "(" then do
      let target ← rules .binding
      let type ← optional (typeMark rules)
      punctuator ")"
      pure (target :: type.toList)
    else pure []
  let body ← block rules
  group start (caught ++ [body])

/-- Statements whose failure is caught. -/
def tryStatement (rules : Rules) : Parser Node := do
  let start ← offset
  keyword "try"
  let body ← block rules
  let caught ← optional (catchClause rules)
  let last ← optional (do keyword "finally"; block rules)
  require (caught.isSome || last.isSome)
  group start (body :: caught.toList ++ last.toList)

/-- A word with an expression after it on the same line; `needed` says that there must be one. -/
def jump (rules : Rules) (text : String) (needed : Bool) : Parser Node := do
  let start ← offset
  keyword text
  let place ← here
  let bare := place.newline || place.rest.isEmpty || place.rest.head? = some ';' ||
    place.rest.head? = some '\x7d'
  require !(needed && bare)
  let value ← if bare then pure none else some <$> rules .expression
  endStatement
  group start value.toList

/-- A word that leaves a statement, with the label of that statement. -/
def leave (text : String) : Parser Node := do
  let start ← offset
  keyword text
  let label ← if (← here).newline then pure none else optional name
  endStatement
  group start label.toList

/-- A statement with a label. -/
def labelled (rules : Rules) : Parser Node := do
  let start ← offset
  let label ← name
  punctuator ":"
  let body ← rules .statement
  group start [label, body]

/-- An expression as a statement. -/
def expressionStatement (rules : Rules) : Parser Node := do
  let start ← offset
  let value ← rules .expression
  endStatement
  group start [value]

/-- A statement in which only an expression is evaluated, perhaps with a label. -/
def plainStatement (rules : Rules) : Parser Node := do
  if ← ahead (do let _ ← name; punctuator ":") then labelled rules else expressionStatement rules

/-- A statement that starts with a word. -/
def wordStatement (rules : Rules) (text : String) : Parser Node := do
  match text with
  | "import" => importStatement rules <|> expressionStatement rules
  | "export" => exportStatement rules
  | "const" => enumStatement rules <|> declaration rules
  | "var" | "let" => declaration rules
  | "function" => functionStatement rules
  | "async" => functionStatement rules <|> plainStatement rules
  | "class" => classConstruct rules
  | "abstract" => classConstruct rules <|> plainStatement rules
  | "enum" => enumStatement rules
  | "interface" => interfaceStatement rules <|> plainStatement rules
  | "type" => typeAlias rules <|> plainStatement rules
  | "namespace" | "module" => namespaceStatement rules <|> plainStatement rules
  | "declare" => ambientStatement rules <|> plainStatement rules
  | "if" => ifStatement rules
  | "for" => forStatement rules
  | "while" => whileStatement rules
  | "do" => doStatement rules
  | "switch" => switchStatement rules
  | "try" => tryStatement rules
  | "return" => jump rules "return" false
  | "throw" => jump rules "throw" true
  | "break" => leave "break"
  | "continue" => leave "continue"
  | "debugger" => leave "debugger"
  | "with" => do
    let start ← offset
    keyword "with"
    let value ← condition rules
    let body ← rules .statement
    group start [value, body]
  | _ => plainStatement rules

/-- A declaration with annotations in front of it. -/
def decorated (rules : Rules) : Parser Node := do
  let start ← offset
  let exported := do
    let marks ← decorators rules
    let inner ← exportStatement rules
    group start (marks ++ [inner])
  classConstruct rules <|> exported

/-- A statement. -/
def statement (rules : Rules) : Parser Node := do
  match ← peekChar? with
  | some '\x7b' => block rules
  | some '@' => decorated rules
  | some ';' =>
    let start ← offset
    punctuator ";"
    group start []
  | some _ =>
    match ← peekWord? with
    | some text => wordStatement rules text
    | none => expressionStatement rules
  | none => refuse

end Uplift.Source.Grammar
