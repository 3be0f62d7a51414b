import Mathlib.Data.List.Nodup
import Uplift.Proofs.FileTree.Moving

/-!
# Names in file trees

In a file tree as a disk holds it, the entries of a directory have distinct names, and each is a
name without a slash (`WellFormed`).  Listing a directory then gives the name of everything in it,
each once (`list_of_spells`).
-/

set_option autoImplicit false

namespace Uplift.FileTree

/-- A name that an entry of a directory can have. -/
def IsEntryName (name : String) : Prop :=
  IsName name ∧ '/' ∉ name.toList

instance (name : String) : Decidable (IsEntryName name) :=
  inferInstanceAs (Decidable (_ ∧ _))

mutual

/-- Whether every directory has distinct names that entries can have. -/
def wellFormed : FileTree → Bool
  | .file .. => true
  | .directory entries => decide (entries.map Prod.fst).Nodup && wellFormedEntries entries
termination_by structural tree => tree

/-- Whether entries have names they can have, and everything in them is well formed. -/
def wellFormedEntries : List (String × FileTree) → Bool
  | [] => true
  | (name, tree) :: rest =>
    decide (IsEntryName name) && wellFormed tree && wellFormedEntries rest
termination_by structural entries => entries

end

/-- A file tree as a disk holds it. -/
def WellFormed (tree : FileTree) : Prop :=
  tree.wellFormed = true

instance (tree : FileTree) : Decidable tree.WellFormed :=
  inferInstanceAs (Decidable (_ = _))

theorem wellFormedEntries_iff {entries : Entries} :
    wellFormedEntries entries = true ↔
      ∀ entry ∈ entries, IsEntryName entry.1 ∧ entry.2.WellFormed := by
  induction entries with
  | nil => simp [wellFormedEntries]
  | cons entry rest ih =>
      obtain ⟨name, tree⟩ := entry
      simp [wellFormedEntries, ih, WellFormed, and_assoc]

theorem wellFormed_directory_iff {entries : Entries} :
    (FileTree.directory entries).WellFormed ↔
      (entries.map Prod.fst).Nodup ∧
        ∀ entry ∈ entries, IsEntryName entry.1 ∧ entry.2.WellFormed := by
  rw [WellFormed, wellFormed, Bool.and_eq_true, decide_eq_true_iff, wellFormedEntries_iff]

theorem Entries.mem_of_get? {entries : Entries} {name : String} {tree : FileTree}
    (found : Entries.get? entries name = some tree) : (name, tree) ∈ entries := by
  induction entries with
  | nil => cases found
  | cons entry rest ih =>
      obtain ⟨other, here⟩ := entry
      rw [Entries.get?] at found
      split at found
      next same =>
        cases found
        rw [same]
        exact List.mem_cons_self
      next => exact List.mem_cons_of_mem _ (ih found)

theorem Entries.get?_ne_none_iff {entries : Entries} {name : String} :
    Entries.get? entries name ≠ none ↔ name ∈ entries.map Prod.fst := by
  induction entries with
  | nil => simp [Entries.get?]
  | cons entry rest ih =>
      obtain ⟨other, here⟩ := entry
      rw [Entries.get?, List.map_cons, List.mem_cons]
      by_cases same : other = name
      · simp [same]
      · rw [if_neg same, ih]
        exact ⟨.inr, fun either => either.resolve_left (Ne.symm same)⟩

/-- Everything in a well-formed tree is well formed. -/
theorem WellFormed.get? {tree found : FileTree} {place : Place} (wellFormed : tree.WellFormed)
    (here : tree.get? place = some found) : found.WellFormed := by
  induction place generalizing tree with
  | nil =>
      cases here
      exact wellFormed
  | cons name rest ih =>
      rw [FileTree.get?] at here
      obtain ⟨child, found', below⟩ := Option.bind_eq_some_iff.1 here
      cases tree with
      | file content executable => cases found'
      | directory entries =>
          exact ih ((wellFormed_directory_iff.1 wellFormed).2 _ (Entries.mem_of_get? found')).2
            below

/-- What is in a directory has a name that an entry can have. -/
theorem WellFormed.isEntryName {tree : FileTree} (wellFormed : tree.WellFormed) {dir : Place}
    {name : String} (there : tree.entryAt? (dir ++ [name]) ≠ none) : IsEntryName name := by
  obtain ⟨entries, found⟩ := (entryAt?_eq_directory_iff tree dir).1 (entryAt?_above there)
  rw [ne_eq, entryAt?_eq_none_iff, get?_concat found] at there
  obtain ⟨⟨_, child⟩, member, rfl⟩ := List.mem_map.1 (Entries.get?_ne_none_iff.1 there)
  exact ((wellFormed_directory_iff.1 (wellFormed.get? found)).2 _ member).1

/-- A listing has the names of what is in the directory that the path leads to. -/
theorem located_of_list {tree : FileTree} {path : Path} {names : List String}
    (listed : tree.list path = .ok names) :
    ∃ dir entries, tree.locate path = .ok dir ∧ tree.get? dir = some (.directory entries) ∧
      names = entries.map Prod.fst ∧
      ∀ name, name ∈ names ↔ tree.entryAt? (dir ++ [name]) ≠ none := by
  obtain ⟨found, finding, isDirectory⟩ := Results.bind_eq_ok_iff.1 listed
  obtain ⟨dir, located, here⟩ := Results.bind_eq_ok_iff.1 finding
  split at here
  next there get =>
    cases here
    split at isDirectory
    next entries =>
      cases isDirectory
      refine ⟨dir, entries, located, get, rfl, fun name => ?_⟩
      rw [ne_eq, entryAt?_eq_none_iff, get?_concat get]
      exact Entries.get?_ne_none_iff.symm
    next => cases isDirectory
  next => cases here

/-- What is in a directory can be reached by joining its name to a path of the directory. -/
theorem list_of_spells {tree : FileTree} {path : Path} {dir : Place} (spells : path.Spells dir)
    {names : List String} (listed : tree.list path = .ok names) :
    ∃ entries, tree.get? dir = some (.directory entries) ∧ names = entries.map Prod.fst ∧
      ∀ name, name ∈ names ↔ tree.entryAt? (dir ++ [name]) ≠ none := by
  obtain ⟨reached, entries, located, found⟩ := located_of_list listed
  have same := locate_of_spells spells located
  subst same
  exact ⟨entries, found⟩

/-- Trees that hold the same at every place list the same names, if in another order. -/
theorem list_congr {first second : FileTree} (same : first.entryAt? = second.entryAt?)
    {path : Path} {names : List String} (listed : first.list path = .ok names) :
    ∃ others, second.list path = .ok others ∧ ∀ name, name ∈ names ↔ name ∈ others := by
  obtain ⟨dir, entries, located, found, _, mem_names⟩ := located_of_list listed
  have directory : second.entryAt? dir = some .directory := by
    rw [← same]
    exact (entryAt?_eq_directory_iff _ _).2 ⟨entries, found⟩
  obtain ⟨others, there⟩ := (entryAt?_eq_directory_iff _ _).1 directory
  have relisted : second.list path = .ok (others.map Prod.fst) := by
    rw [list, find, ← locate_congr same, located, Results.ok_bind, there]
    rfl
  refine ⟨_, relisted, fun name => ?_⟩
  rw [mem_names, same, ne_eq, entryAt?_eq_none_iff, get?_concat there]
  exact Entries.get?_ne_none_iff

/-- A directory that is there can be listed. -/
theorem list_of_directory {tree : FileTree} {path : Path} {dir : Place} (spells : path.Spells dir)
    (directory : tree.entryAt? dir = some .directory) : ∃ names, tree.list path = .ok names := by
  obtain ⟨entries, found⟩ := (entryAt?_eq_directory_iff tree dir).1 directory
  refine ⟨entries.map Prod.fst, ?_⟩
  rw [list, find, locate_of_directory spells directory, Results.ok_bind, found]
  rfl

/-! ## One entry more -/

/-- The directory of a changed place has one entry changed. -/
theorem get?_alter_above (change : Option FileTree → Option FileTree) {tree : FileTree}
    {dir : Place} {entries : Entries} (found : tree.get? dir = some (.directory entries))
    (name : String) :
    (alter change tree (dir ++ [name])).get? dir =
      some (.directory (Entries.put entries name (change (Entries.get? entries name)))) := by
  induction dir generalizing tree with
  | nil =>
      cases found
      rfl
  | cons next dir ih =>
      obtain ⟨others, child, rfl, here, below⟩ := exists_child_of_get? found
      rw [List.cons_append, alter_cons change others next (by simp), here]
      simp only [FileTree.get?, child?, Entries.get?_insert, if_pos]
      exact ih below

theorem Entries.names_insert (entries : Entries) (name : String) (tree : FileTree) :
    (Entries.insert entries name tree).map Prod.fst =
      if name ∈ entries.map Prod.fst then entries.map Prod.fst
      else entries.map Prod.fst ++ [name] := by
  induction entries with
  | nil => simp [Entries.insert]
  | cons entry rest ih =>
      obtain ⟨other, here⟩ := entry
      rw [Entries.insert]
      by_cases same : other = name
      · simp [same]
      · rw [if_neg same, List.map_cons, ih, List.map_cons]
        by_cases later : name ∈ rest.map Prod.fst
        · simp [later]
        · simp [later, Ne.symm same]

/-- With a directory made in it, a well-formed directory still lists distinct names. -/
theorem nodup_list_of_makeDirectory {tree later : FileTree} (wellFormed : tree.WellFormed)
    {root path : Path} {dir : Place} {name : String} (spells : root.Spells dir)
    (spelled : path.Spells (dir ++ [name])) (made : tree.makeDirectory path = .ok later)
    {names : List String} (listed : later.list root = .ok names) : names.Nodup := by
  obtain ⟨entries, found, rfl, _⟩ := list_of_spells spells listed
  obtain ⟨reached, located, making⟩ := Results.bind_eq_ok_iff.1 made
  have same := locateNew_of_spells spelled located
  subst same
  obtain ⟨old, before⟩ := (entryAt?_eq_directory_iff _ _).1 (directory_of_locateNew located)
  split at making
  · cases making
  · cases making
    rw [FileTree.set, get?_alter_above _ before] at found
    cases found
    have distinct := (wellFormed_directory_iff.1 (wellFormed.get? before)).1
    rw [Entries.put, Entries.names_insert]
    split
    next => exact distinct
    next fresh =>
      rw [← List.concat_eq_append]
      exact List.Nodup.concat fresh distinct

end Uplift.FileTree
