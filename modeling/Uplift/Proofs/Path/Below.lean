import Uplift.Proofs.FileTree.Names
import Uplift.Proofs.Path.Spelling

/-!
# Paths below a base

Joining names one after another adds them to the components of a path (`components_below`).  The
parents of the path so made are spelled like it, without the last names, until the base is reached
(`enclosing_append`); there idle pieces at the end are dropped, and the components stay
(`components_enclosing`).
-/

set_option autoImplicit false

namespace Uplift.Path

open FileTree (IsEntryName)

/-! ## Components by pieces -/

/-- The components of a path that has some pieces and no slash at its end. -/
def componentsOf : List String → List Component
  | [] => []
  | first :: rest =>
    (if first = "" then [.root] else (leadingComponent? first).toList) ++
      rest.filterMap innerComponent?

theorem openEnd_cons_cons (first second : String) (rest : List String) :
    openEnd (first :: second :: rest) = first :: openEnd (second :: rest) := by
  rw [openEnd, openEnd, List.getLast?_cons_cons]
  split
  · rw [List.dropLast_cons_cons]
  · rfl

/-- A slash at the end of a path means nothing, but for the root. -/
theorem components_eq_componentsOf (path : Path) :
    path.components = componentsOf (openEnd path.pieces) := by
  obtain ⟨pieces⟩ := path
  match pieces with
  | [] => rfl
  | [piece] =>
      by_cases empty : piece = ""
      · subst empty
        rfl
      · have opened : openEnd [piece] = [piece] :=
          openEnd_of_busy fun last => empty (Option.some.inj last)
        rw [opened, componentsOf, if_neg empty]
        exact (List.append_nil _).symm
  | first :: second :: rest =>
      rw [openEnd_cons_cons, componentsOf, filterMap_openEnd]
      by_cases rooted : first = ""
      · subst rooted
        exact components_absolute rfl
      · rw [if_neg rooted]
        exact components_relative rfl (by simp [isAbsolute, rooted])

theorem componentsOf_concat (front : List String) {name : String} (isName : IsName name) :
    componentsOf (front ++ [name]) = componentsOf front ++ [.normal name] := by
  cases front with
  | nil =>
      simp [componentsOf, isName.1, leadingComponent?_of_isName isName]
  | cons first rest =>
      rw [List.cons_append, componentsOf, componentsOf, List.filterMap_append,
        List.filterMap_cons_some (innerComponent?_of_isName isName), List.append_assoc]
      rfl

theorem componentsOf_trimAbove (front : List String) :
    componentsOf (trimAbove front) = componentsOf front := by
  cases front with
  | nil => rfl
  | cons first rest => rw [trimAbove, componentsOf, componentsOf, filterMap_dropIdleEnd]

/-! ## Joining names -/

/-- The path of names below a base. -/
def below (base : Path) (names : List String) : Path :=
  names.foldl joinText base

theorem below_concat (base : Path) (names : List String) (name : String) :
    base.below (names ++ [name]) = (base.below names).joinText name := by
  rw [below, List.foldl_append]
  rfl

theorem openEnd_joinText (base : Path) {name : String} (isName : IsEntryName name) :
    openEnd (base.joinText name).pieces = openEnd base.pieces ++ [name] := by
  rw [pieces_joinText isName.2]
  refine openEnd_of_busy ?_
  rw [List.getLast?_concat]
  exact fun same => isName.1.1 (Option.some.inj same)

theorem components_joinText (base : Path) {name : String} (isName : IsEntryName name) :
    (base.joinText name).components = base.components ++ [.normal name] := by
  rw [components_eq_componentsOf, components_eq_componentsOf, openEnd_joinText base isName,
    componentsOf_concat _ isName.1]

section Below

variable {base : Path} {names : List String} (isName : ∀ name ∈ names, IsEntryName name)
include isName

theorem openEnd_below : openEnd (base.below names).pieces = openEnd base.pieces ++ names := by
  induction names generalizing base with
  | nil => exact (List.append_nil _).symm
  | cons name names ih =>
      obtain ⟨here, later⟩ := List.forall_mem_cons.1 isName
      have whole : openEnd ((base.joinText name).below names).pieces =
          openEnd (base.joinText name).pieces ++ names := ih later
      rw [openEnd_joinText base here, List.append_assoc] at whole
      exact whole

/-- **Joining names adds them to the components.** -/
theorem components_below :
    (base.below names).components = base.components ++ names.map .normal := by
  induction names generalizing base with
  | nil => exact (List.append_nil _).symm
  | cons name names ih =>
      obtain ⟨here, later⟩ := List.forall_mem_cons.1 isName
      have whole : ((base.joinText name).below names).components =
          (base.joinText name).components ++ names.map .normal := ih later
      rw [components_joinText base here, List.append_assoc] at whole
      exact whole

theorem pieces_below_concat {name : String} (last : IsEntryName name) :
    (base.below (names ++ [name])).pieces = (openEnd base.pieces ++ names) ++ [name] := by
  rw [below_concat, pieces_joinText last.2, openEnd_below isName]

end Below

/-! ## Parents -/

/-- A path that ends in a name is spelled in full. -/
theorem enclosing_concat (front : List String) {name : String} (isName : IsName name) :
    enclosing (front ++ [name]) = ⟨front ++ [name]⟩ := by
  cases front with
  | nil => simp [enclosing, isName.1, dropIdleEnd]
  | cons first rest =>
      have kept : dropIdleEnd (rest ++ [name]) = rest ++ [name] := by
        simp [dropIdleEnd, isName.not_isIdle]
      rw [List.cons_append, enclosing, kept]
      split
      next rooted =>
        subst rooted
        cases rest <;> rfl
      next => rfl

/-- **The directory of a path has its components.** -/
theorem components_enclosing (front : List String) :
    (enclosing front).components = componentsOf front := by
  rw [components_eq_componentsOf, openEnd_enclosing, componentsOf_trimAbove]

end Uplift.Path
