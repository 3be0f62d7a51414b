import Mathlib.Logic.Function.Basic
import Uplift.FileTree.Access

/-!
# What stands at each place of a file tree

A file tree is viewed as a function from places to what stands there: nothing, a directory, or a
file with its bytes and its mode.  The view of a directory does not show its contents, which stand
at places of their own.  The operations of the library act on the view as updates at single
places: putting a file where no directory is (`entryAt?_set_file`) and removing a file
(`entryAt?_erase_file`) change the view there and nowhere else.

Everything at or above a place that holds something is a directory, so nothing stands below a file
or below nothing (`entryAt?_below`).
-/

set_option autoImplicit false

namespace Uplift.FileTree

/-- What stands at a place, without what is below it. -/
inductive Entry where
  | directory
  | file (content : ByteArray) (executable : Bool)

/-- What a tree is at its top. -/
def entry : FileTree → Entry
  | .directory _ => .directory
  | .file content executable => .file content executable

/-- The view of a tree: what stands at each place. -/
def entryAt? (tree : FileTree) (place : Place) : Option Entry :=
  (tree.get? place).map entry

/-! ## Finding -/

theorem get?_append (tree : FileTree) (first second : Place) :
    tree.get? (first ++ second) = (tree.get? first).bind fun found => found.get? second := by
  induction first generalizing tree with
  | nil => rfl
  | cons name first ih =>
      rw [List.cons_append, get?, get?]
      cases tree.child? name with
      | none => rfl
      | some child => exact ih child

/-- What is found below a name is found in the child of that name. -/
theorem exists_child_of_get? {tree found : FileTree} {name : String} {rest : Place}
    (there : tree.get? (name :: rest) = some found) :
    ∃ entries child, tree = .directory entries ∧ Entries.get? entries name = some child ∧
      child.get? rest = some found := by
  cases tree with
  | file content executable => cases there
  | directory entries =>
      obtain ⟨child, here, below⟩ := Option.bind_eq_some_iff.1 there
      exact ⟨entries, child, rfl, here, below⟩

theorem get?_concat {tree : FileTree} {dir : Place} {entries : Entries}
    (found : tree.get? dir = some (.directory entries)) (name : String) :
    tree.get? (dir ++ [name]) = Entries.get? entries name := by
  rw [get?_append, found]
  cases here : Entries.get? entries name with
  | none => simp [get?, child?, here]
  | some child => simp [get?, child?, here]

theorem size_le_sizeEntries {entries : Entries} {name : String} {child : FileTree}
    (here : Entries.get? entries name = some child) : child.size ≤ sizeEntries entries := by
  induction entries with
  | nil => cases here
  | cons entry rest ih =>
      obtain ⟨other, tree⟩ := entry
      rw [Entries.get?] at here
      rw [sizeEntries]
      split at here
      next =>
        cases here
        exact Nat.le_add_right _ _
      next => exact Nat.le_trans (ih here) (Nat.le_add_left _ _)

/-- A place is no deeper than the tree is large. -/
theorem length_add_size_le {tree found : FileTree} {place : Place}
    (here : tree.get? place = some found) : place.length + found.size ≤ tree.size := by
  induction place generalizing tree with
  | nil =>
      cases here
      exact Nat.le_of_eq (Nat.zero_add _)
  | cons name place ih =>
      obtain ⟨child, first, below⟩ := Option.bind_eq_some_iff.1 here
      cases tree with
      | file content executable => cases first
      | directory entries =>
          have deeper := ih below
          have part := size_le_sizeEntries first
          rw [size, List.length_cons]
          omega

theorem entryAt?_eq_directory_iff (tree : FileTree) (place : Place) :
    tree.entryAt? place = some .directory ↔
      ∃ entries, tree.get? place = some (.directory entries) := by
  rw [entryAt?]
  cases tree.get? place with
  | none => simp
  | some found => cases found <;> simp [entry]

theorem entryAt?_eq_file_iff (tree : FileTree) (place : Place) (content : ByteArray)
    (executable : Bool) :
    tree.entryAt? place = some (.file content executable) ↔
      tree.get? place = some (.file content executable) := by
  rw [entryAt?]
  cases tree.get? place with
  | none => simp
  | some found => cases found <;> simp [entry]

theorem entryAt?_ne_none {tree found : FileTree} {place : Place}
    (there : tree.get? place = some found) : tree.entryAt? place ≠ none := by
  rw [entryAt?, there]
  exact Option.some_ne_none _

theorem entryAt?_ne_directory {tree : FileTree} {place : Place} {content : ByteArray}
    {executable : Bool} (file : tree.get? place = some (.file content executable)) :
    tree.entryAt? place ≠ some .directory := by
  rw [(entryAt?_eq_file_iff _ _ _ _).2 file]
  simp

theorem entryAt?_eq_none_iff (tree : FileTree) (place : Place) :
    tree.entryAt? place = none ↔ tree.get? place = none :=
  Option.map_eq_none_iff

/-- Above something there is a directory. -/
theorem entryAt?_above {tree : FileTree} {place : Place} {name : String} {rest : Place}
    (there : tree.entryAt? (place ++ name :: rest) ≠ none) :
    tree.entryAt? place = some .directory := by
  rw [ne_eq, entryAt?_eq_none_iff, get?_append] at there
  rw [entryAt?_eq_directory_iff]
  cases found : tree.get? place with
  | none => simp [found] at there
  | some tree =>
      cases tree with
      | file content executable => simp [found, get?, child?] at there
      | directory entries => exact ⟨entries, rfl⟩

/-- Below what is no directory there is nothing. -/
theorem entryAt?_below {tree : FileTree} {place : Place}
    (flat : tree.entryAt? place ≠ some .directory) (name : String) (rest : Place) :
    tree.entryAt? (place ++ name :: rest) = none := by
  by_contra there
  exact flat (entryAt?_above there)

/-! ## Changing -/

theorem Entries.get?_put (entries : Entries) (name other : String) (tree : Option FileTree) :
    Entries.get? (Entries.put entries name tree) other =
      if name = other then tree else Entries.get? entries other := by
  cases tree with
  | none => exact Entries.get?_erase entries name other
  | some tree => exact Entries.get?_insert entries name other tree

/-- A change deeper down is made in the child that leads there. -/
theorem alter_cons (change : Option FileTree → Option FileTree) (entries : Entries)
    (name : String) {place : Place} (deeper : place ≠ []) :
    alter change (.directory entries) (name :: place) =
      match Entries.get? entries name with
      | some child => .directory (Entries.insert entries name (alter change child place))
      | none => .directory entries := by
  cases place with
  | nil => exact absurd rfl deeper
  | cons next rest => rfl

/-- What is at and below a changed place. -/
theorem get?_alter (change : Option FileTree → Option FileTree) {tree : FileTree} {dir : Place}
    {entries : Entries} (found : tree.get? dir = some (.directory entries)) (name : String)
    (rest : Place) :
    (alter change tree (dir ++ [name])).get? (dir ++ name :: rest) =
      (change (Entries.get? entries name)).bind fun changed => changed.get? rest := by
  induction dir generalizing tree with
  | nil =>
      cases found
      simp [alter, get?, child?, Entries.get?_put]
  | cons next dir ih =>
      obtain ⟨others, child, rfl, here, below⟩ := exists_child_of_get? found
      rw [List.cons_append, alter_cons change others next (by simp), here]
      simp only [List.cons_append, get?, child?, Entries.get?_insert, if_pos]
      exact ih below

/-- A change shows nowhere but at and below its place. -/
theorem entryAt?_alter_of_not_prefix (change : Option FileTree → Option FileTree)
    {place other : Place} (apart : ¬ place <+: other) (tree : FileTree) :
    (alter change tree place).entryAt? other = tree.entryAt? other := by
  induction place generalizing tree other with
  | nil => exact absurd List.nil_prefix apart
  | cons name place ih =>
      cases tree with
      | file content executable => rfl
      | directory entries =>
          cases other with
          | nil =>
              cases place with
              | nil => rfl
              | cons next rest =>
                  rw [alter_cons change entries name (by simp)]
                  cases Entries.get? entries name <;> rfl
          | cons next other =>
              by_cases same : name = next
              · subst same
                have within : ¬ place <+: other := fun prefixed =>
                  apart (List.cons_prefix_cons.2 ⟨rfl, prefixed⟩)
                have deeper : place ≠ [] := by
                  rintro rfl
                  exact within List.nil_prefix
                rw [alter_cons change entries name deeper]
                cases here : Entries.get? entries name with
                | none => rfl
                | some child =>
                    have inner := ih within child
                    simp only [entryAt?] at inner ⊢
                    simp only [get?, child?, Entries.get?_insert, if_pos, here, Option.bind_some]
                    exact inner
              · have elsewhere : ∀ changed : Entries,
                    Entries.get? changed next = Entries.get? entries next →
                    (FileTree.directory changed).entryAt? (next :: other) =
                      (FileTree.directory entries).entryAt? (next :: other) := by
                  intro changed equal
                  simp only [entryAt?, get?, child?, equal]
                cases place with
                | nil =>
                    refine elsewhere _ ?_
                    rw [Entries.get?_put, if_neg same]
                | cons deeper place =>
                    rw [alter_cons change entries name (by simp)]
                    cases Entries.get? entries name with
                    | none => rfl
                    | some child =>
                        refine elsewhere _ ?_
                        rw [Entries.get?_insert, if_neg same]

/-- A change from and to what is no directory updates the view at its place alone. -/
theorem entryAt?_alter_flat (change : Option FileTree → Option FileTree) {tree : FileTree}
    {dir : Place} {name : String} (parent : tree.entryAt? dir = some .directory)
    (flat : tree.entryAt? (dir ++ [name]) ≠ some .directory)
    (stays : ∀ found, (change found).map entry ≠ some .directory) :
    (alter change tree (dir ++ [name])).entryAt? =
      Function.update tree.entryAt? (dir ++ [name])
        ((change (tree.get? (dir ++ [name]))).map entry) := by
  obtain ⟨entries, found⟩ := (entryAt?_eq_directory_iff tree dir).1 parent
  have here : (alter change tree (dir ++ [name])).entryAt? (dir ++ [name]) =
      (change (tree.get? (dir ++ [name]))).map entry := by
    rw [entryAt?, get?_alter change found name [], get?_concat found]
    congr 1
    exact Option.bind_fun_some _
  funext other
  by_cases same : other = dir ++ [name]
  · subst same
    rw [Function.update_self, here]
  · rw [Function.update_of_ne same]
    by_cases below : dir ++ [name] <+: other
    · obtain ⟨rest, rfl⟩ := below
      cases rest with
      | nil => exact absurd (List.append_nil _) same
      | cons next rest =>
          rw [entryAt?_below flat, entryAt?_below]
          rw [here]
          exact stays _
    · exact entryAt?_alter_of_not_prefix change below tree

/-- Putting a file where no directory is. -/
theorem entryAt?_set_file {tree : FileTree} {dir : Place} {name : String}
    (parent : tree.entryAt? dir = some .directory)
    (flat : tree.entryAt? (dir ++ [name]) ≠ some .directory) (content : ByteArray)
    (executable : Bool) :
    (tree.set (dir ++ [name]) (.file content executable)).entryAt? =
      Function.update tree.entryAt? (dir ++ [name]) (some (.file content executable)) :=
  entryAt?_alter_flat _ parent flat (by simp [entry])

/-- Removing what is no directory. -/
theorem entryAt?_erase_file {tree : FileTree} {dir : Place} {name : String}
    (parent : tree.entryAt? dir = some .directory)
    (flat : tree.entryAt? (dir ++ [name]) ≠ some .directory) :
    (tree.erase (dir ++ [name])).entryAt? =
      Function.update tree.entryAt? (dir ++ [name]) none :=
  entryAt?_alter_flat _ parent flat (by simp)

end Uplift.FileTree
