import Uplift.Patch.Unified

/-!
# The two sides of an edit script

A script has an old side, the lines it keeps or removes, and a new side, the lines it keeps or
adds.  The script computed for two lists has exactly these lists as its sides
(`oldLines_editScript`, `newLines_editScript`): the lines set aside at both ends are common to the
two lists, and the walk along the table uses up each list once, whatever the table says.

A script without changes has equal sides, and the script of a list with itself has no changes, so
that a script without changes is exactly one between equal lists (`editScript_unchanged_iff`).
-/

set_option autoImplicit false

namespace Uplift.Patch

/-! ## Sides -/

section Sides

variable {α : Type}

@[simp] theorem oldLines_nil : oldLines ([] : List (Edit α)) = [] := rfl

@[simp] theorem newLines_nil : newLines ([] : List (Edit α)) = [] := rfl

@[simp] theorem oldLines_keep (line : α) (script : List (Edit α)) :
    oldLines (.keep line :: script) = line :: oldLines script := rfl

@[simp] theorem oldLines_remove (line : α) (script : List (Edit α)) :
    oldLines (.remove line :: script) = line :: oldLines script := rfl

@[simp] theorem oldLines_add (line : α) (script : List (Edit α)) :
    oldLines (.add line :: script) = oldLines script := rfl

@[simp] theorem newLines_keep (line : α) (script : List (Edit α)) :
    newLines (.keep line :: script) = line :: newLines script := rfl

@[simp] theorem newLines_remove (line : α) (script : List (Edit α)) :
    newLines (.remove line :: script) = newLines script := rfl

@[simp] theorem newLines_add (line : α) (script : List (Edit α)) :
    newLines (.add line :: script) = line :: newLines script := rfl

@[simp] theorem oldLines_append (first second : List (Edit α)) :
    oldLines (first ++ second) = oldLines first ++ oldLines second := by
  simp [oldLines]

@[simp] theorem newLines_append (first second : List (Edit α)) :
    newLines (first ++ second) = newLines first ++ newLines second := by
  simp [newLines]

theorem oldLines_map_keep (lines : List α) : oldLines (lines.map .keep) = lines := by
  induction lines with
  | nil => rfl
  | cons line rest ih => rw [List.map_cons, oldLines_keep, ih]

theorem newLines_map_keep (lines : List α) : newLines (lines.map .keep) = lines := by
  induction lines with
  | nil => rfl
  | cons line rest ih => rw [List.map_cons, newLines_keep, ih]

/-- The lines a script is about are those of its two sides. -/
theorem line_mem_sides {script : List (Edit α)} {edit : Edit α} (member : edit ∈ script) :
    edit.line ∈ oldLines script ∨ edit.line ∈ newLines script := by
  cases edit with
  | keep line => exact .inl (List.mem_map.2 ⟨_, List.mem_filter.2 ⟨member, rfl⟩, rfl⟩)
  | remove line => exact .inl (List.mem_map.2 ⟨_, List.mem_filter.2 ⟨member, rfl⟩, rfl⟩)
  | add line => exact .inr (List.mem_map.2 ⟨_, List.mem_filter.2 ⟨member, rfl⟩, rfl⟩)

@[simp] theorem length_oldLines (script : List (Edit α)) :
    (oldLines script).length = oldCount script := by
  rw [oldLines, oldCount, List.length_map, List.countP_eq_length_filter]

@[simp] theorem length_newLines (script : List (Edit α)) :
    (newLines script).length = newCount script := by
  rw [newLines, newCount, List.length_map, List.countP_eq_length_filter]

@[simp] theorem oldCount_keep (line : α) (script : List (Edit α)) :
    oldCount (.keep line :: script) = oldCount script + 1 :=
  List.countP_cons_of_pos rfl

@[simp] theorem oldCount_remove (line : α) (script : List (Edit α)) :
    oldCount (.remove line :: script) = oldCount script + 1 :=
  List.countP_cons_of_pos rfl

@[simp] theorem oldCount_add (line : α) (script : List (Edit α)) :
    oldCount (.add line :: script) = oldCount script :=
  List.countP_cons_of_neg nofun

@[simp] theorem newCount_keep (line : α) (script : List (Edit α)) :
    newCount (.keep line :: script) = newCount script + 1 :=
  List.countP_cons_of_pos rfl

@[simp] theorem newCount_remove (line : α) (script : List (Edit α)) :
    newCount (.remove line :: script) = newCount script :=
  List.countP_cons_of_neg nofun

@[simp] theorem newCount_add (line : α) (script : List (Edit α)) :
    newCount (.add line :: script) = newCount script + 1 :=
  List.countP_cons_of_pos rfl

@[simp] theorem oldCount_append (first second : List (Edit α)) :
    oldCount (first ++ second) = oldCount first + oldCount second :=
  List.countP_append

@[simp] theorem newCount_append (first second : List (Edit α)) :
    newCount (first ++ second) = newCount first + newCount second :=
  List.countP_append

@[simp] theorem oldCount_nil : oldCount ([] : List (Edit α)) = 0 := rfl

@[simp] theorem newCount_nil : newCount ([] : List (Edit α)) = 0 := rfl

/-- Every step counts on one side. -/
theorem counts_cons_ne_zero (edit : Edit α) (script : List (Edit α)) :
    ¬ (oldCount (edit :: script) = 0 ∧ newCount (edit :: script) = 0) := by
  cases edit <;> simp

/-- A script that keeps all its lines. -/
def Unchanged (script : List (Edit α)) : Prop :=
  ∀ edit ∈ script, edit.isKeep = true

/-- The sides of a script without changes are equal. -/
theorem Unchanged.sides_eq {script : List (Edit α)} (unchanged : Unchanged script) :
    oldLines script = newLines script := by
  induction script with
  | nil => rfl
  | cons edit rest ih =>
      have head := unchanged edit List.mem_cons_self
      have tail := ih fun other member => unchanged other (List.mem_cons_of_mem _ member)
      cases edit with
      | keep line => rw [oldLines_keep, newLines_keep, tail]
      | remove line => cases head
      | add line => cases head

end Sides

/-! ## The computed script -/

section Computed

variable {α : Type} [DecidableEq α]

/-- The walk uses up the old lines. -/
theorem oldLines_walk (old new : List α) (column : Nat) (rows : List (List Nat)) :
    oldLines (walk old new column rows) = old := by
  fun_induction walk old new column rows with
  | case1 column rows new => simp [oldLines, List.filter_map, Function.comp_def, Edit.usesOld]
  | case2 column rows old notNil =>
      simp [oldLines, List.filter_map, Function.comp_def, Edit.usesOld, Edit.line]
  | case3 column rows as b bs ih => rw [oldLines_keep, ih]
  | case4 column rows a as b bs _ _ ih => rw [oldLines_remove, ih]
  | case5 column rows a as b bs _ _ ih => rw [oldLines_add, ih]

/-- The walk yields the new lines. -/
theorem newLines_walk (old new : List α) (column : Nat) (rows : List (List Nat)) :
    newLines (walk old new column rows) = new := by
  fun_induction walk old new column rows with
  | case1 column rows new =>
      simp [newLines, List.filter_map, Function.comp_def, Edit.yieldsNew, Edit.line]
  | case2 column rows old notNil =>
      simp [newLines, List.filter_map, Function.comp_def, Edit.yieldsNew]
  | case3 column rows as b bs ih => rw [newLines_keep, ih]
  | case4 column rows a as b bs _ _ ih => rw [newLines_remove, ih]
  | case5 column rows a as b bs _ _ ih => rw [newLines_add, ih]

/-- The common length is a length that both lists share from their start. -/
theorem take_commonLength (first second : List α) :
    first.take (commonLength first second) = second.take (commonLength first second) := by
  fun_induction commonLength first second with
  | case1 a as bs ih => rw [List.take_succ_cons, List.take_succ_cons, ih]
  | case2 => rfl
  | case3 => rfl

theorem commonLength_self (lines : List α) : commonLength lines lines = lines.length := by
  induction lines with
  | nil => rfl
  | cons line rest ih => simp [commonLength, ih]

/-- What is set aside at the end is common to both lists. -/
theorem drop_commonEnd (first second : List α) :
    first.drop (first.length - commonLength first.reverse second.reverse) =
      second.drop (second.length - commonLength first.reverse second.reverse) := by
  have common := take_commonLength first.reverse second.reverse
  rw [List.take_reverse, List.take_reverse] at common
  exact List.reverse_inj.1 common

/-- **The old side of the computed script is the first list.** -/
theorem oldLines_editScript (old new : List α) : oldLines (editScript old new) = old := by
  simp only [editScript, oldLines_append, oldLines_map_keep, oldLines_walk]
  rw [List.append_assoc, List.take_append_drop, List.take_append_drop]

/-- **The new side of the computed script is the second list.** -/
theorem newLines_editScript (old new : List α) : newLines (editScript old new) = new := by
  simp only [editScript, newLines_append, newLines_map_keep, newLines_walk]
  rw [drop_commonEnd, take_commonLength, List.append_assoc, List.take_append_drop,
    List.take_append_drop]

theorem editScript_self (lines : List α) : editScript lines lines = lines.map .keep := by
  simp [editScript, commonLength_self, walk]

/-- **The computed script changes nothing exactly if the lists are equal.** -/
theorem editScript_unchanged_iff (old new : List α) :
    Unchanged (editScript old new) ↔ old = new := by
  constructor
  · intro unchanged
    have sides := unchanged.sides_eq
    rwa [oldLines_editScript, newLines_editScript] at sides
  · rintro rfl edit member
    rw [editScript_self] at member
    obtain ⟨line, _, rfl⟩ := List.mem_map.1 member
    rfl

end Computed

end Uplift.Patch
