import Uplift.Patch.EditScript

/-!
# Unified diffs

The changes of an edit script are grouped into hunks with up to three kept lines around them.  Two
changes share a hunk when at most six kept lines lie between them.  A hunk's header gives for each
side the number of its first line and how many lines it covers; a side that covers none gives the
number of the line before.
-/

set_option autoImplicit false

namespace Uplift.Patch

/-- The number of kept lines around a change. -/
def context : Nat := 3

/-- A contiguous piece of an edit script, from `start` up to, not including, `stop`. -/
structure Hunk where
  start : Nat
  stop : Nat
  deriving DecidableEq, Repr

variable {α : Type}

/-- The places of the changes in a script, counted from `offset`. -/
def changePlaces (offset : Nat) : List (Edit α) → List Nat
  | [] => []
  | edit :: rest =>
    if edit.isKeep then changePlaces (offset + 1) rest
    else offset :: changePlaces (offset + 1) rest

/-- Groups ascending places; a place joins the group before it unless more than twice the context
lies between.  Each group is given by its first and last place. -/
def groupPlaces (first last : Nat) : List Nat → List (Nat × Nat)
  | [] => [(first, last)]
  | place :: rest =>
    if 2 * context < place - last - 1 then (first, last) :: groupPlaces place place rest
    else groupPlaces first place rest

/-- The hunk of a group, with its context as far as the script goes. -/
def hunkOf (length first last : Nat) : Hunk :=
  ⟨first - context, min (last + context + 1) length⟩

/-- The hunks of a script, in order. -/
def hunks (script : List (Edit α)) : List Hunk :=
  match changePlaces 0 script with
  | [] => []
  | first :: rest =>
    (groupPlaces first first rest).map fun group => hunkOf script.length group.1 group.2

/-- How many steps use up an old line. -/
def oldCount (script : List (Edit α)) : Nat :=
  script.countP Edit.usesOld

/-- How many steps yield a new line. -/
def newCount (script : List (Edit α)) : Nat :=
  script.countP Edit.yieldsNew

/-- What follows a line that lacks its terminator. -/
def noNewlineMarker : List Char :=
  "\n\\ No newline at end of file\n".toList

/-- A line of a hunk's body: the mark of its kind, the line, and a note if it is unterminated. -/
def renderEdit (edit : Edit Line) : List Char :=
  let mark := match edit with
    | .keep _ => ' '
    | .remove _ => '-'
    | .add _ => '+'
  mark :: edit.line ++ (if edit.line.getLast? = some '\n' then [] else noNewlineMarker)

/-- The number a header gives for a side that `before` lines precede and that covers `count`. -/
def headerStart (before count : Nat) : Nat :=
  if count = 0 then before else before + 1

/-- The header of a hunk. -/
def renderHeader (oldBefore oldCount newBefore newCount : Nat) : List Char :=
  (s!"@@ -{headerStart oldBefore oldCount},{oldCount}" ++
    s!" +{headerStart newBefore newCount},{newCount} @@\n").toList

/-- A hunk of a script. -/
def renderHunk (script : List (Edit Line)) (hunk : Hunk) : List Char :=
  let before := script.take hunk.start
  let body := (script.take hunk.stop).drop hunk.start
  renderHeader (oldCount before) (oldCount body) (newCount before) (newCount body) ++
    body.flatMap renderEdit

/-- The diff of a script: nothing if nothing changes. -/
def renderScript (path : String) (script : List (Edit Line)) : List Char :=
  match hunks script with
  | [] => []
  | hunks =>
    s!"--- a/{path}\n+++ b/{path}\n".toList ++ hunks.flatMap (renderHunk script)

/-- The unified diff of two texts under a name. -/
def unified (path before after : String) : String :=
  String.ofList (renderScript path (textScript before after))

end Uplift.Patch
