import Uplift.Text.DecimalDigit
import Uplift.Text.Search

/-!
# Version ranges of manifests

Only ranges around a single version are understood: an optional `workspace:`, an optional
operator, and a full version of three numbers with an optional suffix.  Everything else, such as
`1.x`, `*`, tags and addresses, is left alone.  A range keeps its three parts, so that putting
them together again gives the text it was read from, and replacing the version keeps the rest.
-/

set_option autoImplicit false

namespace Uplift

/-- The operators a range may start with. -/
inductive RangeOperator where
  | none
  | atLeast
  | atMost
  | caret
  | tilde
  | above
  | below
  | exactly
  deriving DecidableEq, Repr, Inhabited

/-- How an operator is written. -/
def RangeOperator.text : RangeOperator → String
  | .none => ""
  | .atLeast => ">="
  | .atMost => "<="
  | .caret => "^"
  | .tilde => "~"
  | .above => ">"
  | .below => "<"
  | .exactly => "="

/-- A range around a single version. -/
structure Range where
  workspace : Bool
  operator : RangeOperator
  version : String
  deriving DecidableEq, Repr, Inhabited

namespace Range

/-- The mark of ranges that refer to members of the same workspace. -/
def protocol : String := "workspace:"

/-- Reads an operator; the two-character ones are tried first. -/
def readOperator : List Char → RangeOperator × List Char
  | '>' :: '=' :: rest => (.atLeast, rest)
  | '<' :: '=' :: rest => (.atMost, rest)
  | '^' :: rest => (.caret, rest)
  | '~' :: rest => (.tilde, rest)
  | '>' :: rest => (.above, rest)
  | '<' :: rest => (.below, rest)
  | '=' :: rest => (.exactly, rest)
  | rest => (.none, rest)

/-- What follows a nonempty run of decimal digits. -/
def skipDigits? (text : List Char) : Option (List Char) :=
  if (text.head?.map Text.isDecimalDigit).getD false then
    some (text.dropWhile Text.isDecimalDigit)
  else none

/-- What follows a dot. -/
def skipDot? : List Char → Option (List Char)
  | '.' :: rest => some rest
  | _ => none

/-- The characters of a suffix. -/
def isSuffixChar (c : Char) : Bool :=
  c.isAlphanum || c = '.' || c = '+' || c = '-'

/-- Whether a text is empty or a suffix: a hyphen or a plus, then suffix characters. -/
def isSuffix : List Char → Bool
  | [] => true
  | c :: rest => (c = '-' || c = '+') && rest.all isSuffixChar

/-- Whether a text is a full version: three numbers and an optional suffix. -/
def isFullVersion (text : List Char) : Bool :=
  match (do skipDigits? (← skipDot? (← skipDigits? (← skipDot? (← skipDigits? text)))) :
      Option (List Char)) with
  | some rest => isSuffix rest
  | none => false

/-- The range a text spells. -/
def parse? (text : String) : Option Range :=
  let (workspace, rest) := match Text.stripPrefix? protocol.toList text.toList with
    | some rest => (true, rest)
    | none => (false, text.toList)
  let (operator, rest) := readOperator rest
  if isFullVersion rest then some ⟨workspace, operator, String.ofList rest⟩ else none

/-- What stands before the version. -/
def lead (range : Range) : String :=
  (if range.workspace then protocol else "") ++ range.operator.text

/-- The text of a range. -/
def text (range : Range) : String :=
  range.lead ++ range.version

/-- The text of the range with another version. -/
def retarget (range : Range) (version : String) : String :=
  range.lead ++ version

end Range

end Uplift
