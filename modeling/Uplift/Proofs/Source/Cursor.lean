import Mathlib.Logic.Function.Iterate
import Uplift.Source.Tree

/-!
# The cursor loop over a tree

The strings of a tree are collected by a loop that moves one cursor and keeps no stack: it enters
the first child of a node unless the node is a string, and otherwise goes to the next sibling, or
back to the parents until one of them has a next sibling (`Stage.next`).

What the loop will have found in the end is known at each of its stages: what it has found, and the
outermost strings still ahead of the cursor (`Stage.result`).  A move does not change that
(`Stage.result_next`).  A move also leaves less to do, counting each node not reached yet twice, once
for entering and once for leaving it, and each ancestor once (`Stage.work_next_lt`).  So the loop
ends within twice as many moves as the tree has nodes, and ends with the outermost strings of the
tree, in order (`iterate_next`).

A bounded number of steps of a walk that climbs in one step finds the same, if the bound allows for
every node not reached yet (`stringsFrom_eq`).
-/

set_option autoImplicit false

namespace Uplift.Source

/-! ## The strings ahead -/

namespace Spot

mutual

/-- The outermost strings in a node with the given ancestors, in order. -/
def stringsIn : Node → List Crumb → List Spot
  | .mk label children, above =>
    if label.kind = .string then [⟨.mk label children, above⟩]
    else stringsAmong label [] children above
termination_by structural node => node

/-- The outermost strings in the children of a node from one child on.  The children before are
given, the nearest first. -/
def stringsAmong (label : Label) (before : List Node) : List Node → List Crumb → List Spot
  | [], _ => []
  | child :: after, above =>
    stringsIn child (⟨label, before, after⟩ :: above) ++
      stringsAmong label (child :: before) after above
termination_by structural children => children

end

theorem stringsIn_of_string {node : Node} (string : node.kind = .string) (above : List Crumb) :
    stringsIn node above = [⟨node, above⟩] := by
  cases node with
  | mk label children => exact if_pos string

theorem stringsIn_of_other {node : Node} (other : node.kind ≠ .string) (above : List Crumb) :
    stringsIn node above = stringsAmong node.label [] node.children above := by
  cases node with
  | mk label children => exact if_neg other

/-- The outermost strings behind a node, by its ancestors. -/
def stringsAfter : Node → List Crumb → List Spot
  | _, [] => []
  | node, ⟨label, before, after⟩ :: above =>
    stringsAmong label (node :: before) after above ++
      stringsAfter (.mk label (before.reverse ++ node :: after)) above

/-- The outermost strings in a node and behind it. -/
def ahead (spot : Spot) : List Spot :=
  stringsIn spot.node spot.crumbs ++ stringsAfter spot.node spot.crumbs

/-! ### What is ahead, by the moves of a cursor -/

section Moves

variable {spot next : Spot}

theorem ahead_of_string (string : spot.node.kind = .string) :
    spot.ahead = spot :: stringsAfter spot.node spot.crumbs := by
  rw [ahead, stringsIn_of_string string]
  rfl

theorem ahead_of_firstChild (other : spot.node.kind ≠ .string)
    (first : spot.firstChild? = some next) : spot.ahead = next.ahead := by
  obtain ⟨⟨label, children⟩, crumbs⟩ := spot
  cases children with
  | nil => cases first
  | cons child rest =>
      cases first
      rw [ahead, stringsIn_of_other other, Node.children, stringsAmong, List.append_assoc, ahead,
        stringsAfter]
      rfl

theorem ahead_of_childless (other : spot.node.kind ≠ .string) (childless : spot.firstChild? = none) :
    spot.ahead = stringsAfter spot.node spot.crumbs := by
  obtain ⟨⟨label, children⟩, crumbs⟩ := spot
  cases children with
  | nil =>
      rw [ahead, stringsIn_of_other other]
      rfl
  | cons child rest => cases childless

theorem stringsAfter_of_nextSibling (sibling : spot.nextSibling? = some next) :
    stringsAfter spot.node spot.crumbs = next.ahead := by
  obtain ⟨node, _ | ⟨⟨label, before, _ | ⟨after, rest⟩⟩, above⟩⟩ := spot
  · cases sibling
  · cases sibling
  · cases sibling
    rw [stringsAfter, stringsAmong, List.append_assoc, ahead, stringsAfter, List.reverse_cons,
      List.append_assoc]
    rfl

theorem stringsAfter_of_parent (last : spot.nextSibling? = none)
    (parent : spot.parent? = some next) :
    stringsAfter spot.node spot.crumbs = stringsAfter next.node next.crumbs := by
  obtain ⟨node, _ | ⟨⟨label, before, _ | ⟨after, rest⟩⟩, above⟩⟩ := spot
  · cases parent
  · cases parent
    rfl
  · cases last

theorem stringsAfter_of_top (top : spot.parent? = none) :
    stringsAfter spot.node spot.crumbs = [] := by
  obtain ⟨node, _ | ⟨crumb, above⟩⟩ := spot
  · rfl
  · cases top

end Moves

/-- Behind a node is what is ahead of where climbing from it leads. -/
theorem stringsAfter_eq (node : Node) (crumbs : List Crumb) :
    stringsAfter node crumbs = ((climb node crumbs).map ahead).getD [] := by
  fun_induction climb node crumbs with
  | case1 node => rfl
  | case2 node label before next after above =>
      have sibling : nextSibling? ⟨node, ⟨label, before, next :: after⟩ :: above⟩ =
        some ⟨next, ⟨label, node :: before, after⟩ :: above⟩ := rfl
      exact stringsAfter_of_nextSibling sibling
  | case3 node label before above ih => exact ih

/-- **What is ahead of a spot** is the spot itself, if it is a string, and what is ahead of where a
walk goes next. -/
theorem ahead_eq (spot : Spot) :
    spot.ahead = (if spot.node.kind = .string then [spot] else []) ++
      (spot.advance?.map ahead).getD [] := by
  rw [advance?]
  split
  next string =>
    rw [ahead_of_string string, stringsAfter_eq]
    rfl
  next other =>
    cases first : spot.firstChild? with
    | some child => exact ahead_of_firstChild other first
    | none =>
        rw [ahead_of_childless other first, stringsAfter_eq]
        rfl

/-! ## What is left of a walk -/

/-- The number of nodes behind a node, by its ancestors. -/
def behind : List Crumb → Nat
  | [] => 0
  | crumb :: above => Node.sizeAll crumb.after + behind above

/-- The number of nodes that a walk has not left yet. -/
def remaining (spot : Spot) : Nat :=
  spot.node.size + behind spot.crumbs

/-- Where climbing leads is the first of the nodes behind. -/
theorem remaining_of_climb {node : Node} {crumbs : List Crumb} {next : Spot}
    (climbed : climb node crumbs = some next) : next.remaining = behind crumbs := by
  fun_induction climb node crumbs with
  | case1 node => cases climbed
  | case2 node label before sibling after above =>
      cases climbed
      simp only [remaining, behind, Node.sizeAll]
      omega
  | case3 node label before above ih =>
      rw [ih climbed]
      simp only [behind, Node.sizeAll, Nat.zero_add]

theorem size_pos (node : Node) : 0 < node.size := by
  cases node with
  | mk label children =>
      rw [Node.size]
      exact Nat.succ_pos _

/-- A walk leaves something behind with every step. -/
theorem remaining_of_advance {spot next : Spot} (step : spot.advance? = some next) :
    next.remaining < spot.remaining := by
  obtain ⟨⟨label, children⟩, crumbs⟩ := spot
  have climbing : ∀ next, climb ⟨label, children⟩ crumbs = some next →
      next.remaining < remaining ⟨⟨label, children⟩, crumbs⟩ := by
    intro next climbed
    rw [remaining_of_climb climbed, remaining]
    exact Nat.lt_add_of_pos_left (size_pos _)
  rw [advance?] at step
  split at step
  next => exact climbing next step
  next =>
    cases children with
    | nil => exact climbing next step
    | cons child rest =>
        cases step
        simp only [remaining, behind, Node.size, Node.sizeAll]
        omega

/-- **A walk that may take as many steps as nodes are left finds everything ahead.** -/
theorem stringsFrom_eq {steps : Nat} {spot : Spot} (enough : spot.remaining ≤ steps) :
    stringsFrom steps spot = spot.ahead := by
  induction steps generalizing spot with
  | zero =>
      have := size_pos spot.node
      rw [remaining] at enough
      omega
  | succ steps ih =>
      rw [stringsFrom, ahead_eq]
      cases step : spot.advance? with
      | none => split <;> rfl
      | some next =>
          have := remaining_of_advance step
          have later : stringsFrom steps next = next.ahead := ih (by omega)
          simp only [later]
          split <;> rfl

end Spot

/-- The string literals of a tree are its outermost strings. -/
theorem stringSpots_eq (tree : Node) : stringSpots tree = Spot.stringsIn tree [] := by
  have enough : (Spot.top tree).remaining ≤ tree.size := Nat.le_refl _
  rw [stringSpots, Spot.stringsFrom_eq enough]
  exact List.append_nil _

/-! ## The loop -/

/-- A stage of the loop, with the strings found before. -/
inductive Stage where
  /-- The cursor has reached a node. -/
  | arriving (spot : Spot) (found : List Spot)
  /-- Nothing is left to do in a node. -/
  | leaving (spot : Spot) (found : List Spot)
  | done (found : List Spot)

namespace Stage

open Spot

/-- One move of the cursor. -/
def next : Stage → Stage
  | .arriving spot found =>
    if spot.node.kind = .string then .leaving spot (found ++ [spot])
    else
      match spot.firstChild? with
      | some child => .arriving child found
      | none => .leaving spot found
  | .leaving spot found =>
    match spot.nextSibling? with
    | some sibling => .arriving sibling found
    | none =>
      match spot.parent? with
      | some parent => .leaving parent found
      | none => .done found
  | .done found => .done found

/-- What the loop will have found in the end. -/
def result : Stage → List Spot
  | .arriving spot found => found ++ spot.ahead
  | .leaving spot found => found ++ stringsAfter spot.node spot.crumbs
  | .done found => found

/-- The moves that ancestors and the nodes behind may still take. -/
def workBehind : List Crumb → Nat
  | [] => 0
  | crumb :: above => 2 * Node.sizeAll crumb.after + 1 + workBehind above

/-- The moves that the loop may still take. -/
def work : Stage → Nat
  | .arriving spot _ => 2 * spot.node.size + workBehind spot.crumbs
  | .leaving spot _ => workBehind spot.crumbs + 1
  | .done _ => 0

/-- **A move does not change what will have been found.** -/
theorem result_next (stage : Stage) : stage.next.result = stage.result := by
  cases stage with
  | done found => rfl
  | arriving spot found =>
      rw [next]
      split
      next string =>
        rw [result, result, ahead_of_string string, List.append_assoc]
        rfl
      next other =>
        cases first : spot.firstChild? with
        | some child => rw [result, result, ahead_of_firstChild other first]
        | none => rw [result, result, ahead_of_childless other first]
  | leaving spot found =>
      rw [next]
      cases sibling : spot.nextSibling? with
      | some next => rw [result, result, stringsAfter_of_nextSibling sibling]
      | none =>
          cases up : spot.parent? with
          | some parent => rw [result, result, stringsAfter_of_parent sibling up]
          | none => rw [result, result, stringsAfter_of_top up, List.append_nil]

/-- **A move leaves less to do**, until the loop is done. -/
theorem work_next_lt {stage : Stage} (going : stage.work ≠ 0) : stage.next.work < stage.work := by
  cases stage with
  | done found => exact absurd rfl going
  | arriving spot found =>
      obtain ⟨⟨label, children⟩, crumbs⟩ := spot
      have := size_pos ⟨label, children⟩
      rw [next]
      split
      next => simp only [work]; omega
      next =>
        cases children with
        | nil => simp only [firstChild?, work]; omega
        | cons child rest =>
            simp only [firstChild?, work, workBehind, Node.size, Node.sizeAll]
            omega
  | leaving spot found =>
      obtain ⟨node, crumbs⟩ := spot
      cases crumbs with
      | nil => exact Nat.zero_lt_succ _
      | cons crumb above =>
          obtain ⟨label, before, after⟩ := crumb
          cases after with
          | nil =>
              simp only [next, nextSibling?, parent?, work, workBehind, Node.sizeAll]
              omega
          | cons sibling after =>
              simp only [next, nextSibling?, work, workBehind, Node.sizeAll]
              omega

theorem eq_done_of_work {stage : Stage} (nothing : stage.work = 0) :
    stage = .done stage.result := by
  cases stage with
  | done found => rfl
  | arriving spot found =>
      have := size_pos spot.node
      simp only [work] at nothing
      omega
  | leaving spot found => cases nothing

/-- **The loop ends**, after no more moves than there is work, with what it was going to find. -/
theorem iterate_next {stage : Stage} {moves : Nat} (enough : stage.work ≤ moves) :
    next^[moves] stage = .done stage.result := by
  induction moves generalizing stage with
  | zero => exact eq_done_of_work (Nat.le_zero.1 enough)
  | succ moves ih =>
      rw [Function.iterate_succ_apply, ih, result_next]
      by_cases going : stage.work = 0
      · rw [eq_done_of_work going]
        exact Nat.zero_le _
      · have := work_next_lt going
        omega

/-- The loop over a tree ends with the string literals of the tree. -/
theorem iterate_next_top (tree : Node) :
    next^[2 * tree.size] (.arriving (top tree) []) = .done (stringSpots tree) := by
  have enough : work (.arriving (top tree) []) ≤ 2 * tree.size := Nat.le_refl _
  rw [iterate_next enough, stringSpots_eq]
  exact congrArg done (List.append_nil _)

end Stage

end Uplift.Source
