import Mathlib.Data.List.Sort
import Mathlib.Data.String.Basic
import Uplift.Proofs.Path.Spelling

/-!
# The order of paths

Paths are compared component by component, components by rank and names by their text.  That is a
total preorder, in which two paths are equivalent exactly if they have the same components
(`compare_eq_iff_same`), so that sorting by it puts paths with the same components side by side.
-/

set_option autoImplicit false

namespace Uplift.Path

/-- Components compare by their ranks first, and then by their names. -/
theorem Component.compare_eq : Component.compare =
    compareLex (compareOn Component.rank) (compareOn fun component => component.name?.getD "") := by
  funext first second
  cases first <;> cases second <;> rfl

instance : Std.TransCmp Component.compare := by
  rw [Component.compare_eq]
  infer_instance

instance : Std.LawfulEqCmp Component.compare where
  compare_self := by
    intro component
    rw [Component.compare_eq]
    exact Std.ReflCmp.compare_self
  eq_of_compare := by
    intro first second equal
    cases first <;> cases second <;>
      simp_all [Component.compare, Component.rank]

theorem compareComponents_eq : compareComponents = List.compareLex Component.compare := by
  funext first second
  induction first generalizing second with
  | nil => cases second <;> rfl
  | cons component first ih =>
      cases second with
      | nil => rfl
      | cons other second => rw [compareComponents, List.compareLex_cons_cons, ih]

/-- Paths are equivalent in the order exactly if they have the same components. -/
theorem compare_eq_iff_same {first second : Path} :
    Path.compare first second = .eq ↔ first.same second = true := by
  rw [Path.compare, compareComponents_eq, same_iff]
  exact Std.LawfulEqCmp.compare_eq_iff_eq

theorem upTo_iff {first second : Path} :
    first.upTo second = true ↔ (Path.compare first second).isLE = true := by
  rw [upTo]
  cases Path.compare first second <;> decide

theorem upTo_trans {first second third : Path} (early : first.upTo second = true)
    (late : second.upTo third = true) : first.upTo third = true := by
  rw [upTo_iff, Path.compare, compareComponents_eq] at *
  exact Std.TransCmp.isLE_trans early late

theorem upTo_total (first second : Path) : (first.upTo second || second.upTo first) = true := by
  have swap : Path.compare first second = (Path.compare second first).swap := by
    rw [Path.compare, Path.compare, compareComponents_eq]
    exact Std.OrientedCmp.eq_swap
  rw [upTo, upTo, swap]
  cases Path.compare second first <;> rfl

/-- A path that comes up to another comes before it, or has the same components. -/
theorem compare_of_upTo {first second : Path} (upTo : first.upTo second = true)
    (different : first.same second = false) : Path.compare first second = .lt := by
  rw [upTo_iff] at upTo
  cases order : Path.compare first second with
  | lt => rfl
  | eq =>
      rw [compare_eq_iff_same.1 order] at different
      cases different
  | gt =>
      rw [order] at upTo
      cases upTo

theorem lt_of_lt_of_upTo {first second third : Path} (before : Path.compare first second = .lt)
    (late : second.upTo third = true) : Path.compare first third = .lt := by
  rw [upTo_iff] at late
  rw [Path.compare, compareComponents_eq] at *
  exact Std.TransCmp.lt_of_lt_of_isLE before late

/-- Sorting puts paths in order. -/
theorem pairwise_mergeSort (paths : List Path) :
    (paths.mergeSort Path.upTo).Pairwise fun first second => first.upTo second = true := by
  refine List.pairwise_mergeSort ?_ upTo_total paths
  exact fun _ _ _ early late => upTo_trans early late

/-! ## Siblings -/

theorem compareComponents_append (above first second : List Component) :
    compareComponents (above ++ first) (above ++ second) = compareComponents first second := by
  induction above with
  | nil => rfl
  | cons component above ih =>
      have equal : component.compare component = .eq := Std.ReflCmp.compare_self
      rw [List.cons_append, List.cons_append, compareComponents, equal, ih]
      rfl

/-- Files of one name in two directories beside each other are in the order of the directories. -/
theorem lt_of_compare_beside {first second : Path} {place : List String}
    {name other file : String} (spells : first.Spells (place ++ [name, file]))
    (spelled : second.Spells (place ++ [other, file]))
    (before : Path.compare first second = .lt) : name < other := by
  have order : Path.compare first second = compareComponents [.normal name, .normal file]
      [.normal other, .normal file] := by
    rw [Path.compare, spells, spelled, List.map_append, List.map_append, ← List.cons_append,
      ← List.cons_append, compareComponents_append]
    rfl
  have equal : compareComponents [.normal file] [.normal file] = .eq := by
    rw [compareComponents_eq]
    exact Std.ReflCmp.compare_self
  rw [order, compareComponents, equal, Ordering.then_eq] at before
  exact compare_lt_iff_lt.1 before

end Uplift.Path
