import Uplift.Source.Tree

/-!
# Module specifiers

A string literal is a module specifier if it stands where a module is named: as the source of a
statement that imports or exports, in `import a = require("b")`, or as the first argument of a
call of `import` or of the name `require`.  Everywhere else it is plain text, whatever it says.
-/

set_option autoImplicit false

namespace Uplift.Source

/-- The characters of a text from one offset up to another. -/
def slice (text : List Char) (start stop : Nat) : List Char :=
  (text.drop start).take (stop - start)

/-- The characters a node covers. -/
def Node.text (text : List Char) (node : Node) : List Char :=
  slice text node.label.start node.label.stop

/-- Whether the word `import` comes before a node, with nothing but opening parentheses between
them.  The siblings are given nearest first. -/
def followsImport : List Node → Bool
  | [] => false
  | sibling :: rest =>
    match sibling.kind with
    | .openParen => followsImport rest
    | .importKeyword => true
    | _ => false

/-- Whether a call with such a callee names a module by its first argument. -/
def namesModule (text : List Char) (callee : Node) : Bool :=
  match callee.kind with
  | .importKeyword => true
  | .identifier => callee.text text = "require".toList
  | _ => false

/-- Whether the arguments below a crumb are those of a call that names a module. -/
def callNamesModule (text : List Char) : List Crumb → Bool
  | [] => false
  | call :: _ =>
    if call.label.kind = .call then
      match call.before.reverse.find? fun node => node.role = .callee with
      | some callee => namesModule text callee
      | none => followsImport call.before
    else followsImport call.before

/-- Whether a string literal names a module. -/
def Spot.isSpecifier (text : List Char) (spot : Spot) : Bool :=
  match spot.crumbs with
  | [] => false
  | parent :: above =>
    match parent.label.kind with
    | .importStatement | .exportStatement => spot.node.role = .source
    | .importRequire => true
    | .arguments =>
      parent.before.all (fun sibling => !sibling.kind.isNamed) && callNamesModule text above
    | _ => followsImport parent.before

end Uplift.Source
