import Uplift.Source.Grammar.Statements

/-!
# The grammar

The rules of all categories, closed by a bound on how deep they refer to each other.  Between two
references without a lexeme taken there are only a few others, so a bound in proportion to the
length of the text is never met before the text is.
-/

set_option autoImplicit false

namespace Uplift.Source

/-- One layer of rules over those of the layer below. -/
def Grammar.layer (dialect : Dialect) (rules : Rules) : Rules
  | .statement => Grammar.statement rules
  | .expression => Grammar.expression rules
  | .assignment => Grammar.assignment rules
  | .unary => Grammar.unary dialect rules
  | .chain => Grammar.chain dialect rules
  | .construction => Grammar.construction dialect rules
  | .binding => Grammar.binding rules
  | .type => Grammar.type rules
  | .typeOperand => Grammar.typeOperand rules
  | .element => Grammar.rawElement rules

/-- The rules up to a depth. -/
def Grammar.rules (dialect : Dialect) : Nat → Rules
  | 0, _ => refuse
  | depth + 1, category => layer dialect (rules dialect depth) category

/-- A line that names the program to run a file with. -/
def Grammar.hashbang : Parser Unit := do
  let text := (← here).rest
  require (text.take 2 = ['#', '!'])
  takeRaw (text.takeWhile fun c => c != '\n').length
  skipBlanks

/-- The tree of a whole text. -/
def Grammar.program (rules : Rules) : Parser Node := do
  let start ← offset
  let _ ← optional hashbang
  let statements ← many (rules .statement)
  require (← atEnd)
  finish .program start statements

/-- The tree of a source text, if it follows the grammar. -/
def parse? (dialect : Dialect) (text : List Char) : Option Node := do
  let place ← Place.ofText? text
  let (tree, _) ← Grammar.program (Grammar.rules dialect (8 * text.length + 32)) place
  return tree

end Uplift.Source
