import Uplift.Path.Basic
import Uplift.Source.Grammar
import Uplift.Source.Specifier
import Uplift.Table

/-!
# Relocating module specifiers

A relocation table maps module specifiers to their replacements.  Relocating a source replaces the
specifiers that are in the table and keeps every other character.  It also tells which keys of the
table occur as plain text, and which specifiers are not in the table: both are reasons to keep a
dependency.
-/

set_option autoImplicit false

namespace Uplift.Source

/-- How source texts are read.  Relocation does not depend on the grammar. -/
abbrev Reading := Dialect → List Char → Option Node

/-- The dialect of a file, if it is a source file. -/
def Dialect.ofPath? (path : Path) : Option Dialect := do
  let extension ← path.extension?
  if ["ts", "mts", "cts"].contains extension then some .typed
  else if ["tsx", "js", "jsx", "mjs", "cjs"].contains extension then some .markup
  else none

/-- The quote of a string literal and what stands between its quotes. -/
def unquote? : List Char → Option (Char × List Char)
  | quote :: rest =>
    if (quote = '"' ∨ quote = '\'') ∧ rest.getLast? = some quote then some (quote, rest.dropLast)
    else none
  | [] => none

/-- A literal of a source: where it stands, its quote and its content, and whether it names a
module. -/
structure Literal where
  start : Nat
  stop : Nat
  quote : Char
  content : String
  isSpecifier : Bool
  deriving DecidableEq, Repr

/-- The literal at a spot. -/
def literalAt? (text : List Char) (spot : Spot) : Option Literal := do
  let (quote, content) ← unquote? (spot.node.text text)
  some ⟨spot.node.label.start, spot.node.label.stop, quote, String.ofList content,
    spot.isSpecifier text⟩

/-- The literals of a source in order. -/
def literals (text : List Char) (tree : Node) : List Literal :=
  (stringSpots tree).filterMap (literalAt? text)

/-- Characters to put in place of a range. -/
structure Replacement where
  start : Nat
  stop : Nat
  content : List Char
  deriving DecidableEq, Repr

/-- The replacement of a literal, if it is a specifier in the table. -/
def Literal.replacement? (relocations : Table String) (literal : Literal) : Option Replacement :=
  if literal.isSpecifier then
    (relocations.get? literal.content).map fun target =>
      ⟨literal.start, literal.stop, literal.quote :: target.toList ++ [literal.quote]⟩
  else none

/-- Puts the characters of a replacement in place of its range. -/
def Replacement.apply (text : List Char) (replacement : Replacement) : List Char :=
  text.take replacement.start ++ replacement.content ++ text.drop replacement.stop

/-- Applies replacements from the last to the first, so that the ranges of those still to come are
not moved. -/
def applyAll (text : List Char) (replacements : List Replacement) : List Char :=
  (replacements.mergeSort fun a b => b.start ≤ a.start).foldl Replacement.apply text

/-- What relocation makes of a source. -/
structure Relocated where
  output : String
  /-- The number of specifiers that were replaced. -/
  replaced : Nat
  /-- The keys of the table that occur as plain text. -/
  residual : NameSet
  /-- The specifiers that are not in the table. -/
  retained : NameSet

/-- The set of some names. -/
def nameSet (names : List String) : NameSet :=
  Table.ofList (names.map fun name => (name, ()))

/-- Relocates the specifiers of a source with a known tree. -/
def relocateTree (text : List Char) (tree : Node) (relocations : Table String) : Relocated :=
  let all := literals text tree
  let replacements := all.filterMap (Literal.replacement? relocations)
  { output := String.ofList (applyAll text replacements)
    replaced := replacements.length
    residual := nameSet ((all.filter fun literal =>
      !literal.isSpecifier && relocations.contains literal.content).map Literal.content)
    retained := nameSet ((all.filter fun literal =>
      literal.isSpecifier && !relocations.contains literal.content).map Literal.content) }

/-- Why a source cannot be relocated. -/
inductive SourceError where
  | syntaxError
  deriving DecidableEq, Repr

/-- The wording of a cause. -/
def SourceError.message : SourceError → String
  | .syntaxError => "syntax error"

/-- Relocates the specifiers of a source. -/
def relocate (read : Reading) (dialect : Dialect) (source : String) (relocations : Table String) :
    Except SourceError Relocated :=
  match read dialect source.toList with
  | some tree => .ok (relocateTree source.toList tree relocations)
  | none => .error .syntaxError

end Uplift.Source
