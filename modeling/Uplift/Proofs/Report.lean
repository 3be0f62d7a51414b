import Uplift.Proofs.FileTree.Faults
import Uplift.Report

/-!
# What writing a report touches

Writing a report makes the directories above it that are missing and writes its file
(`onlyWrites_writeIfPossible`).  Nothing else changes, whatever the path of the report looks like
and wherever the writing fails.  With double dots in the path, a directory is made wherever one of
the paths above the report leads, so the places that may change are told by where paths lead and
not by their spelling.
-/

set_option autoImplicit false

namespace Uplift.Report

open FileTree (Place DirectoriesStay)

/-- A tree with directories made where some paths lead, and nothing else changed. -/
structure MadeAlong (paths : List Path) (tree later : FileTree) : Prop where
  stay : DirectoriesStay tree later
  made : ∀ place, later.entryAt? place ≠ tree.entryAt? place →
    tree.entryAt? place = none ∧ later.entryAt? place = some .directory ∧
      ∃ path ∈ paths, later.locate path = .ok place

theorem MadeAlong.refl (paths : List Path) (tree : FileTree) : MadeAlong paths tree tree :=
  ⟨fun _ directory => directory, fun _ changed => absurd rfl changed⟩

theorem MadeAlong.makeDirectory {paths : List Path} {tree later next : FileTree}
    (along : MadeAlong paths tree later) {path : Path} (member : path ∈ paths)
    (done : later.makeDirectory path = .ok next) : MadeAlong paths tree next := by
  obtain ⟨here, located, made⟩ := FileTree.located_of_makeDirectory done
  have stay := made.directoriesStay
  refine ⟨along.stay.trans stay, fun place changed => ?_⟩
  by_cases same : place = here
  · subst same
    have directory : next.entryAt? place = some .directory := by
      rw [made.view, Function.update_self]
    have absent : tree.entryAt? place = none := by
      by_contra there
      have kept : later.entryAt? place ≠ tree.entryAt? place := by
        rw [made.absent]
        exact Ne.symm there
      exact there (along.made place kept).1
    have again := FileTree.locateNew_of_directoriesStay stay located (by simp [directory])
    exact ⟨absent, directory, path, member, FileTree.locate_of_locateNew again directory⟩
  · have kept : next.entryAt? place = later.entryAt? place := by
      rw [made.view, Function.update_of_ne same]
    rw [kept] at changed ⊢
    obtain ⟨absent, directory, other, among, leads⟩ := along.made place changed
    refine ⟨absent, directory, other, among, FileTree.locate_of_directoriesStay stay leads ?_⟩
    simp [kept, directory]

/-- A path of a directory above a report. -/
def IsAbove (path above : Path) : Prop :=
  ∃ parent, path.parent? = some parent ∧ above ∈ parent.ancestors

/-- A tree in which a report was written: a place that changed is a directory that was made where a
path above the report leads, or it is where the report's path leads and holds the report. -/
def OnlyWrites (report : Report) (path : Path) (tree later : FileTree) : Prop :=
  ∀ place, later.entryAt? place ≠ tree.entryAt? place →
    (tree.entryAt? place = none ∧ later.entryAt? place = some .directory ∧
      ∃ above, IsAbove path above ∧ later.locate above = .ok place) ∨
    (later.locateNew path = .ok place ∧ ∃ executable,
      later.entryAt? place = some (.file (Text.encode report.render) executable))

/-- Preparing makes directories where paths above the report lead, whether it succeeds or fails. -/
theorem madeAlong_prepare (tree : FileTree) (path : Path) :
    ∃ paths, (∀ above ∈ paths, IsAbove path above) ∧
      MadeAlong paths tree (prepare tree path).2 := by
  rw [prepare]
  split
  next parent isParent =>
    refine ⟨parent.ancestors, fun above member => ⟨parent, isParent, member⟩, ?_⟩
    have start : MadeAlong parent.ancestors tree (Disk.mk tree []).tree := .refl _ tree
    exact Disk.makeDirectoriesAlong_induction
      (fun _ member _ _ made along => along.makeDirectory member made) start rfl
  next => exact ⟨[], nofun, .refl _ tree⟩

/-- **Writing a report touches its file and the directories above it, and nothing else.** -/
theorem onlyWrites_writeIfPossible (report : Report) (tree : FileTree) (path : Path) :
    OnlyWrites report path tree (report.writeIfPossible tree path) := by
  obtain ⟨paths, above, along⟩ := madeAlong_prepare tree path
  rw [writeIfPossible, write]
  have unwritten : OnlyWrites report path tree (prepare tree path).2 := by
    intro place changed
    obtain ⟨absent, directory, other, member, leads⟩ := along.made place changed
    exact .inl ⟨absent, directory, other, above other member, leads⟩
  generalize prepare tree path = prepared at along unwritten ⊢
  obtain ⟨_ | _, between⟩ := prepared
  · exact unwritten
  · cases done : between.writeText path report.render with
    | error error =>
        simp only [done]
        exact unwritten
    | ok later =>
        simp only [done]
        obtain ⟨here, executable, located, updated, _⟩ := FileTree.located_of_writeBytes done
        have stay : DirectoriesStay between later := fun place =>
          (updated.sameDirectories place).1
        intro place changed
        by_cases same : place = here
        · subst same
          refine .inr ⟨FileTree.locateNew_of_directoriesStay stay located ?_, executable,
            updated.here⟩
          simp [updated.here]
        · rw [updated.elsewhere same] at changed ⊢
          obtain ⟨absent, directory, other, member, leads⟩ := along.made place changed
          refine .inl ⟨absent, directory, other, above other member,
            FileTree.locate_of_directoriesStay stay leads ?_⟩
          simp [updated.elsewhere same, directory]

end Uplift.Report
