import Uplift.Text.Lines

/-!
# Edit scripts

An edit script turns one list of lines into another by keeping, removing and adding lines.  The
script computed here is a shortest one: common lines at both ends are set aside, and the rest is
walked along a table of longest common subsequence lengths.  Where removing and adding are equally
good, removing comes first.
-/

set_option autoImplicit false

namespace Uplift.Patch

/-- One step of an edit script. -/
inductive Edit (α : Type) where
  | keep (line : α)
  | remove (line : α)
  | add (line : α)
  deriving DecidableEq, Repr

namespace Edit

variable {α : Type}

/-- The line a step is about. -/
def line : Edit α → α
  | .keep line | .remove line | .add line => line

/-- Whether a step leaves the line as it is. -/
def isKeep : Edit α → Bool
  | .keep _ => true
  | _ => false

/-- Whether a step uses up a line of the old list. -/
def usesOld : Edit α → Bool
  | .add _ => false
  | _ => true

/-- Whether a step yields a line of the new list. -/
def yieldsNew : Edit α → Bool
  | .remove _ => false
  | _ => true

end Edit

section Script

variable {α : Type} [DecidableEq α]

/-- The old list of a script. -/
def oldLines (script : List (Edit α)) : List α :=
  (script.filter Edit.usesOld).map Edit.line

/-- The new list of a script. -/
def newLines (script : List (Edit α)) : List α :=
  (script.filter Edit.yieldsNew).map Edit.line

/-! ## The table -/

/-- One row of the table: the lengths for an old list that starts with `line`, against every
suffix of the new list, from the row `below` of the old list without that line. -/
def tableRow (line : α) : List α → List Nat → List Nat
  | new :: rest, here :: below =>
    let right := tableRow line rest below
    (if line = new then below.headD 0 + 1 else max here (right.headD 0)) :: right
  | _, _ => [0]

/-- The rows of the table, one for every suffix of the old list. -/
def table (old new : List α) : List (List Nat) :=
  match old with
  | [] => [List.replicate (new.length + 1) 0]
  | line :: rest =>
    let rows := table rest new
    tableRow line new (rows.headD []) :: rows

/-- An entry of the first of some rows. -/
def entry (rows : List (List Nat)) (column : Nat) : Nat :=
  (rows.headD []).getD column 0

/-- Follows the table from a place: `rows` are those of the old lines left, and `column` is the
number of new lines used. -/
def walk (old new : List α) (column : Nat) (rows : List (List Nat)) : List (Edit α) :=
  match old, new with
  | [], new => new.map .add
  | old, [] => old.map .remove
  | a :: as, b :: bs =>
    if a = b then .keep a :: walk as bs (column + 1) (rows.drop 1)
    else if entry rows (column + 1) ≤ entry (rows.drop 1) column then
      .remove a :: walk as (b :: bs) column (rows.drop 1)
    else .add b :: walk (a :: as) bs (column + 1) rows
termination_by old.length + new.length

/-! ## Setting common ends aside -/

/-- The number of lines at the start that two lists share. -/
def commonLength : List α → List α → Nat
  | a :: as, b :: bs => if a = b then commonLength as bs + 1 else 0
  | _, _ => 0

/-- A shortest edit script from one list to another. -/
def editScript (old new : List α) : List (Edit α) :=
  let start := commonLength old new
  let oldRest := old.drop start
  let newRest := new.drop start
  let finish := commonLength oldRest.reverse newRest.reverse
  let oldCore := oldRest.take (oldRest.length - finish)
  let newCore := newRest.take (newRest.length - finish)
  (old.take start).map .keep ++ walk oldCore newCore 0 (table oldCore newCore) ++
    (oldRest.drop (oldRest.length - finish)).map .keep

end Script

/-- A line with its terminator. -/
abbrev Line := List Char

/-- The edit script between two texts, line by line, with line ends folded to line feeds. -/
def textScript (before after : String) : List (Edit Line) :=
  editScript (Text.splitLines (Text.foldCrlf before.toList))
    (Text.splitLines (Text.foldCrlf after.toList))

end Uplift.Patch
