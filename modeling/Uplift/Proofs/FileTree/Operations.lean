import Uplift.FileTree.Staged
import Uplift.Proofs.FileTree.Following

/-!
# File operations on the view of a tree

Each file operation on a path that lands somewhere is an update of the view of the tree at the place
where the path lands (`Lands.writeBytes`, `Lands.setExecutable`, `Lands.discard`), and moving a file
is two updates (`Lands.rename`).  None of them makes or removes a directory, so paths keep leading
where they led.
-/

set_option autoImplicit false

namespace Uplift.FileTree

/-! ## Updates of the view -/

/-- A tree whose view is that of another but for one place, where neither has a directory. -/
structure Updated (tree : FileTree) (place : Place) (value : Option Entry) (later : FileTree) :
    Prop where
  flat : tree.entryAt? place ≠ some .directory
  flat_value : value ≠ some .directory
  view : later.entryAt? = Function.update tree.entryAt? place value

namespace Updated

variable {tree later : FileTree} {place : Place} {value : Option Entry}

theorem here (updated : Updated tree place value later) : later.entryAt? place = value := by
  rw [updated.view, Function.update_self]

theorem elsewhere (updated : Updated tree place value later) {other : Place}
    (apart : other ≠ place) : later.entryAt? other = tree.entryAt? other := by
  rw [updated.view, Function.update_of_ne apart]

theorem sameDirectories (updated : Updated tree place value later) :
    SameDirectories tree later := by
  intro other
  by_cases same : other = place
  · subst same
    rw [updated.here]
    exact ⟨fun holds => absurd holds updated.flat, fun holds => absurd holds updated.flat_value⟩
  · rw [updated.elsewhere same]

/-- A second update of the same place hides the first. -/
theorem again {value' : Option Entry} {last : FileTree} (updated : Updated tree place value later)
    (second : Updated later place value' last) : Updated tree place value' last where
  flat := updated.flat
  flat_value := second.flat_value
  view := by rw [second.view, updated.view, Function.update_idem]

end Updated

theorem SameDirectories.refl (tree : FileTree) : SameDirectories tree tree :=
  fun _ => Iff.rfl

theorem SameDirectories.trans {first second third : FileTree}
    (same : SameDirectories first second) (later : SameDirectories second third) :
    SameDirectories first third :=
  fun place => (same place).trans (later place)

/-! ## Single operations -/

namespace Lands

variable {tree : FileTree} {path : Path} {dir : Place} {name : String}

/-- Writing to a path that lands where no directory is. -/
theorem writeBytes (lands : Lands tree path dir name)
    (flat : tree.entryAt? (dir ++ [name]) ≠ some .directory) (content : ByteArray) :
    ∃ later executable, tree.writeBytes path content = .ok later ∧
      Updated tree (dir ++ [name]) (some (.file content executable)) later := by
  have updated : ∀ executable, Updated tree (dir ++ [name]) (some (.file content executable))
      (tree.set (dir ++ [name]) (.file content executable)) := fun executable =>
    ⟨flat, by simp, entryAt?_set_file lands.directory flat content executable⟩
  rw [FileTree.writeBytes, lands.locateNew, Results.ok_bind, lands.endsInSlash,
    if_neg Bool.false_ne_true]
  cases found : tree.get? (dir ++ [name]) with
  | none => exact ⟨_, false, rfl, updated false⟩
  | some there =>
      cases there with
      | file old executable => exact ⟨_, executable, rfl, updated executable⟩
      | directory entries =>
          exact absurd ((entryAt?_eq_directory_iff _ _).2 ⟨entries, found⟩) flat

theorem writeBytes_directory (lands : Lands tree path dir name)
    (directory : tree.entryAt? (dir ++ [name]) = some .directory) (content : ByteArray) :
    tree.writeBytes path content = .error .isDirectory := by
  obtain ⟨entries, found⟩ := (entryAt?_eq_directory_iff _ _).1 directory
  rw [FileTree.writeBytes, lands.locateNew, Results.ok_bind, lands.endsInSlash,
    if_neg Bool.false_ne_true, found]

/-- Setting the mode of a file. -/
theorem setExecutable (lands : Lands tree path dir name) {content : ByteArray} {old : Bool}
    (file : tree.entryAt? (dir ++ [name]) = some (.file content old)) (executable : Bool) :
    ∃ later, tree.setExecutable path executable = .ok later ∧
      Updated tree (dir ++ [name]) (some (.file content executable)) later := by
  have flat : tree.entryAt? (dir ++ [name]) ≠ some .directory := by simp [file]
  rw [FileTree.setExecutable, lands.locate (by simp [file]), Results.ok_bind,
    (entryAt?_eq_file_iff _ _ _ _).1 file]
  exact ⟨_, rfl, flat, by simp, entryAt?_set_file lands.directory flat content executable⟩

/-- Discarding what is no directory leaves nothing. -/
theorem discard (lands : Lands tree path dir name)
    (flat : tree.entryAt? (dir ++ [name]) ≠ some .directory) :
    Updated tree (dir ++ [name]) none (tree.discard path) := by
  refine ⟨flat, by simp, ?_⟩
  cases held : tree.entryAt? (dir ++ [name]) with
  | none =>
      obtain ⟨error, missing⟩ := lands.locate_error held
      rw [FileTree.discard, removeFile, missing, Results.error_bind]
      exact (Function.update_eq_self_iff.2 held.symm).symm
  | some there =>
      cases there with
      | directory => exact absurd held flat
      | file content executable =>
          rw [FileTree.discard, removeFile, lands.locate (by simp [held]), Results.ok_bind,
            (entryAt?_eq_file_iff _ _ _ _).1 held]
          exact entryAt?_erase_file lands.directory flat

/-- A directory is not discarded. -/
theorem discard_directory (lands : Lands tree path dir name)
    (directory : tree.entryAt? (dir ++ [name]) = some .directory) : tree.discard path = tree := by
  obtain ⟨entries, found⟩ := (entryAt?_eq_directory_iff _ _).1 directory
  rw [FileTree.discard, removeFile, lands.locate (by simp [directory]), Results.ok_bind, found]

/-- Moving a file to another name of a directory replaces what is there, if it may. -/
theorem rename_eq (lands : Lands tree path dir name) {target : Path} {name' : String}
    (landsTarget : Lands tree target dir name') (apart : name ≠ name') {content : ByteArray}
    {executable : Bool} (file : tree.entryAt? (dir ++ [name]) = some (.file content executable)) :
    tree.rename path target = (mayReplace (.file content executable)
      (tree.get? (dir ++ [name']))).bind fun _ =>
        .ok ((tree.erase (dir ++ [name])).set (dir ++ [name']) (.file content executable)) := by
  have distinct : dir ++ [name] ≠ dir ++ [name'] := by simpa using apart
  have notAbove : (dir ++ [name]).isPrefixOf (dir ++ [name']) = false := by
    rw [Bool.eq_false_iff, ne_eq, List.isPrefixOf_iff_prefix]
    intro prefixed
    exact distinct (prefixed.eq_of_length (by simp))
  rw [FileTree.rename, lands.locate (by simp [file]), Results.ok_bind, landsTarget.locateNew,
    Results.ok_bind, (entryAt?_eq_file_iff _ _ _ _).1 file]
  simp only [landsTarget.endsInName, landsTarget.endsInSlash, Bool.and_false, if_neg distinct,
    notAbove]
  rfl

/-- Moving a file to another name of a directory, where no directory is. -/
theorem rename (lands : Lands tree path dir name) {target : Path} {name' : String}
    (landsTarget : Lands tree target dir name') (apart : name ≠ name') {content : ByteArray}
    {executable : Bool} (file : tree.entryAt? (dir ++ [name]) = some (.file content executable))
    (flat : tree.entryAt? (dir ++ [name']) ≠ some .directory) :
    ∃ between later, tree.rename path target = .ok later ∧
      Updated tree (dir ++ [name]) none between ∧
      Updated between (dir ++ [name']) (some (.file content executable)) later := by
  have flatSource : tree.entryAt? (dir ++ [name]) ≠ some .directory := by simp [file]
  have distinct : dir ++ [name] ≠ dir ++ [name'] := by simpa using apart
  have mayReplace : FileTree.mayReplace (.file content executable)
      (tree.get? (dir ++ [name'])) = .ok () := by
    cases found : tree.get? (dir ++ [name']) with
    | none => rfl
    | some there =>
        cases there with
        | file => rfl
        | directory entries =>
            exact absurd ((entryAt?_eq_directory_iff _ _).2 ⟨entries, found⟩) flat
  have erased : Updated tree (dir ++ [name]) none (tree.erase (dir ++ [name])) :=
    ⟨flatSource, by simp, entryAt?_erase_file lands.directory flatSource⟩
  have flatLater : (tree.erase (dir ++ [name])).entryAt? (dir ++ [name']) ≠ some .directory := by
    rw [erased.elsewhere distinct.symm]
    exact flat
  have parent : (tree.erase (dir ++ [name])).entryAt? dir = some .directory :=
    (erased.sameDirectories dir).1 lands.directory
  refine ⟨_, (tree.erase (dir ++ [name])).set (dir ++ [name']) (.file content executable), ?_,
    erased, flatLater, by simp, entryAt?_set_file parent flatLater content executable⟩
  rw [lands.rename_eq landsTarget apart file, mayReplace]
  rfl

/-- A file is not moved onto a directory. -/
theorem rename_directory (lands : Lands tree path dir name) {target : Path} {name' : String}
    (landsTarget : Lands tree target dir name') (apart : name ≠ name') {content : ByteArray}
    {executable : Bool} (file : tree.entryAt? (dir ++ [name]) = some (.file content executable))
    (directory : tree.entryAt? (dir ++ [name']) = some .directory) :
    tree.rename path target = .error .isDirectory := by
  obtain ⟨entries, found⟩ := (entryAt?_eq_directory_iff _ _).1 directory
  rw [lands.rename_eq landsTarget apart file, found]
  rfl

end Lands

end Uplift.FileTree
