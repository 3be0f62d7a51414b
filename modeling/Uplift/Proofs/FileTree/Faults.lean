import Uplift.FileTree.Disk
import Uplift.Proofs.FileTree.Moving

/-!
# Steps on a disk with faults

A step on a disk either fails and leaves the tree alone, or succeeds and changes the tree as the
operation on trees does (`tree_of_step`).  Only a write that fails may leave a trace, some content in
its file (`tree_of_writeText`).

Making a directory with those above it makes a directory at some initial parts of its place, one
after the other.  What each of these keeps is kept by the whole, also if it fails on the way
(`makeDirectories_induction`); if it succeeds, the directory is there
(`directory_of_makeDirectories`).
-/

set_option autoImplicit false

namespace Uplift.Disk

open FileTree (Place MadeDirectory)

theorem tree_nextFault (disk : Disk) : disk.nextFault.2.tree = disk.tree := by
  rw [nextFault]
  split <;> rfl

/-- **A step fails without effect or does what the operation does.** -/
theorem tree_of_step {disk later : Disk} {change : FileTree → Except FileError FileTree}
    {result : Except FileError Unit} (done : disk.step change = (result, later)) :
    (∃ error, result = .error error) ∧ later.tree = disk.tree ∨
      result = .ok () ∧ change disk.tree = .ok later.tree := by
  have kept := disk.tree_nextFault
  rw [step] at done
  split at done
  next fault after struck =>
    rw [struck] at kept
    cases done
    exact .inl ⟨⟨_, rfl⟩, kept⟩
  next after passed =>
    rw [passed] at kept
    have same : after.tree = disk.tree := kept
    rw [same] at done
    split at done
    next tree changed =>
      cases done
      exact .inr ⟨rfl, changed⟩
    next error failed =>
      cases done
      exact .inl ⟨⟨_, rfl⟩, same⟩

/-- Only what an operation does on the tree of the disk matters for a step. -/
theorem step_congr {disk : Disk} {change change' : FileTree → Except FileError FileTree}
    (same : change disk.tree = change' disk.tree) : disk.step change = disk.step change' := by
  have kept := disk.tree_nextFault
  cases next : disk.nextFault with
  | mk fault after =>
      rw [next] at kept
      have tree : after.tree = disk.tree := kept
      rw [step, step, next]
      cases fault with
      | some fault => rfl
      | none => simp only [tree, same]

/-- A write does what writing does; if it fails, its file may hold anything. -/
theorem tree_of_writeText {disk later : Disk} {path : Path} {text : String}
    {result : Except FileError Unit} (done : disk.writeText path text = (result, later)) :
    (∃ error, result = .error error) ∧
        (later.tree = disk.tree ∨
          ∃ content, disk.tree.writeBytes path content = .ok later.tree) ∨
      result = .ok () ∧ disk.tree.writeText path text = .ok later.tree := by
  have kept := disk.tree_nextFault
  rw [writeText] at done
  split at done
  next fault after struck =>
    rw [struck] at kept
    have same : after.tree = disk.tree := kept
    rw [same] at done
    cases done
    refine .inl ⟨⟨_, rfl⟩, ?_⟩
    cases fault.left with
    | none => exact .inl rfl
    | some content =>
        cases written : disk.tree.writeBytes path content with
        | error cause => exact .inl (by simp [written])
        | ok tree => exact .inr ⟨content, by simp [written]⟩
  next after passed =>
    rw [passed] at kept
    have same : after.tree = disk.tree := kept
    rw [same] at done
    split at done
    next tree written =>
      cases done
      exact .inr ⟨rfl, written⟩
    next error failed =>
      cases done
      exact .inl ⟨⟨_, rfl⟩, .inl same⟩

section Removing

variable {disk later : Disk} {path : Path} {place : Place} {result : Except FileError Unit}

/-- Where there is an empty directory or nothing, the two ways of removing are the same. -/
theorem removeDirectory_eq_removeAll (spells : path.Spells place)
    (noFile : disk.tree.entryAt? place = some .directory ∨ disk.tree.entryAt? place = none)
    (empty : ∀ name, disk.tree.entryAt? (place ++ [name]) = none) :
    disk.removeDirectory path = disk.removeAll path :=
  step_congr (FileTree.removeDirectory_eq_removeAll spells noFile empty)

/-- Removing an empty directory either fails and changes nothing or changes the view there. -/
theorem view_of_removeAll (spells : path.Spells place) (inside : place ≠ [])
    (empty : ∀ name, disk.tree.entryAt? (place ++ [name]) = none)
    (done : disk.removeAll path = (result, later)) :
    (∃ error, result = .error error) ∧ later.tree = disk.tree ∨
      result = .ok () ∧
        later.tree.entryAt? = Function.update disk.tree.entryAt? place none := by
  obtain failed | ⟨ok, removed⟩ := tree_of_step done
  · exact .inl failed
  · exact .inr ⟨ok,
      (FileTree.removed_of_removeAll spells inside removed).view_of_empty empty⟩

/-- Removing a directory changes the view at most there. -/
theorem view_of_removeDirectory (spells : path.Spells place) (inside : place ≠ [])
    (done : disk.removeDirectory path = (result, later)) :
    later.tree = disk.tree ∨
      later.tree.entryAt? = Function.update disk.tree.entryAt? place none := by
  obtain ⟨_, same⟩ | ⟨_, removed⟩ := tree_of_step done
  · exact .inl same
  · obtain ⟨found, gone⟩ := FileTree.removed_of_removeDirectory spells inside removed
    exact .inr (gone.view_of_empty ((FileTree.get?_eq_emptyDirectory_iff _ _).1 found).2)

end Removing

/-! ## Making directories -/

theorem tree_tolerate {path : Path} {result tolerated : Except FileError Unit}
    {disk later : Disk} (done : tolerate path (result, disk) = (tolerated, later)) :
    later.tree = disk.tree := by
  cases result with
  | error cause =>
      rw [tolerate] at done
      split at done
      · cases done
        rfl
      · cases done
        rfl
  | ok =>
      cases done
      rfl

section

variable {disk later : Disk} {path : Path} {place : Place} {result : Except FileError Unit}

/-- Making one directory keeps what is kept where a directory is made. -/
theorem makeDirectory_induction {motive : FileTree → Prop}
    (step : ∀ tree next, tree.makeDirectory path = .ok next → motive tree → motive next)
    (start : motive disk.tree) (done : disk.makeDirectory path = (result, later)) :
    motive later.tree := by
  obtain ⟨_, same⟩ | ⟨_, made⟩ := tree_of_step done
  · rwa [same]
  · exact step _ _ made start

/-- **What making each of some directories keeps** is kept by making the first and those of the
others that are missing, also if that fails on the way. -/
theorem makeDirectoriesAlong_induction {motive : FileTree → Prop} {paths : List Path}
    (step : ∀ path ∈ paths, ∀ tree next, tree.makeDirectory path = .ok next →
      motive tree → motive next)
    (start : motive disk.tree) (done : disk.makeDirectoriesAlong paths = (result, later)) :
    motive later.tree := by
  induction paths generalizing disk later result with
  | nil =>
      cases done
      exact start
  | cons path rest ih =>
      have stepHere := step path List.mem_cons_self
      have stepLater := fun other member => step other (List.mem_cons_of_mem _ member)
      rw [makeDirectoriesAlong] at done
      split at done
      · cases done
        exact start
      · split at done
        next after missing =>
          have first := makeDirectory_induction stepHere start missing
          split at done
          next between raised =>
            have second := ih stepLater first raised
            cases last : between.makeDirectory path with
            | mk made final =>
                rw [last] at done
                rw [tree_tolerate done]
                exact makeDirectory_induction stepHere second last
          next failed => exact ih stepLater first done
        next =>
          cases made : disk.makeDirectory path with
          | mk made' final =>
              rw [made] at done
              rw [tree_tolerate done]
              exact makeDirectory_induction stepHere start made

/-- **What making a directory at an initial part of a place keeps** is kept by making the directory
and those above it. -/
theorem makeDirectories_induction {motive : FileTree → Prop} (spells : path.Spells place)
    (step : ∀ above tree next, above <+: place → MadeDirectory tree above next →
      motive tree → motive next)
    (start : motive disk.tree) (done : disk.makeDirectories path = (result, later)) :
    motive later.tree := by
  refine makeDirectoriesAlong_induction (fun other member tree next made => ?_) start done
  obtain ⟨above, spelled, leads⟩ := spells.ancestors member
  exact step above tree next leads (FileTree.madeDirectory_of_makeDirectory spelled made)

/-- A directory that was made, or tolerated, is there. -/
theorem directory_of_tolerate (spells : path.Spells place) {made : Except FileError Unit}
    {between : Disk} (done : disk.makeDirectory path = (made, between))
    (tolerated : tolerate path (made, between) = (.ok (), later)) :
    later.tree.entryAt? place = some .directory := by
  cases made with
  | error cause =>
      rw [tolerate] at tolerated
      split at tolerated
      next held =>
        cases tolerated
        exact FileTree.directory_of_hasDirectory spells held
      next => cases tolerated
  | ok =>
      cases tolerated
      obtain ⟨⟨_, failed⟩, _⟩ | ⟨_, change⟩ := tree_of_step done
      · cases failed
      · rw [(FileTree.madeDirectory_of_makeDirectory spells change).view, Function.update_self]

theorem text_ne_empty (spells : path.Spells place) : path.text ≠ "" := by
  obtain ⟨first, rest, pieces, _⟩ := spells.pieces
  rw [Path.text, pieces, String.intercalate_cons_cons]
  intro empty
  have chars := congrArg String.toList empty
  simp at chars

/-- A directory that was made with those above it is there. -/
theorem directory_of_makeDirectories (spells : path.Spells place)
    (done : disk.makeDirectories path = (.ok (), later)) :
    later.tree.entryAt? place = some .directory := by
  rw [makeDirectories, Path.ancestors, makeDirectoriesAlong, if_neg (text_ne_empty spells)] at done
  split at done
  next after missing =>
    split at done
    next between raised => exact directory_of_tolerate spells rfl done
    next failed other =>
      exact absurd done (other later)
  next => exact directory_of_tolerate spells rfl done

end

end Uplift.Disk
