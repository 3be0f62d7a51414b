import Mathlib.Data.List.Induction
import Uplift.Proofs.Codemod.Dependencies
import Uplift.Proofs.Path.Below

/-!
# The package of a file

A file below a target belongs to the nearest directory above it that has a manifest, up to the
target, and to the target if there is none (`owner_below`).  It is found among the parents of the
path of the file: these stand for the directories above the file, one by one (`StandsFor`), up to
the target, and the next one does not start with the target any more
(`takeWhile_properAncestors`).  How the target itself is spelled does not matter.
-/

set_option autoImplicit false

namespace Uplift

namespace FileTree

/-! ## Paths below a directory -/

namespace Opens

variable {tree : FileTree} {base : Path} {dir : Place}

theorem lands (opens : Opens tree base dir) {name : String} (isName : IsEntryName name) :
    Lands tree (base.joinText name) dir name :=
  ⟨isName.1, _, Path.pieces_joinText isName.2 base, opens⟩

/-- What can be opened below a directory. -/
theorem below (opens : Opens tree base dir) {names : Place}
    (isName : ∀ name ∈ names, IsEntryName name)
    (directory : tree.entryAt? (dir ++ names) = some .directory) :
    Opens tree (base.below names) (dir ++ names) := by
  induction names using List.reverseRecOn with
  | nil => rwa [List.append_nil]
  | append_singleton names name ih =>
      obtain ⟨above, last⟩ := List.forall_mem_append.1 isName
      rw [← List.append_assoc] at directory ⊢
      have higher : tree.entryAt? (dir ++ names) = some .directory := by
        have := entryAt?_dropLast directory
        rwa [List.dropLast_concat] at this
      rw [Path.below_concat]
      refine opens_of_locate (((ih above higher).lands (last name ?_)).locate ?_) directory
      · exact List.mem_singleton_self _
      · rw [directory]
        exact Option.some_ne_none _

end Opens

/-- There is a file exactly if the path lands on one. -/
theorem Lands.hasFile_iff {tree : FileTree} {path : Path} {dir : Place} {name : String}
    (lands : Lands tree path dir name) :
    tree.hasFile path = true ↔
      ∃ content executable, tree.get? (dir ++ [name]) = some (.file content executable) := by
  rw [hasFile]
  cases there : tree.get? (dir ++ [name]) with
  | none =>
      obtain ⟨error, missing⟩ := lands.locate_error ((entryAt?_eq_none_iff _ _).2 there)
      have nowhere : tree.find path = .error error := by
        rw [FileTree.find, missing, Results.error_bind]
      rw [nowhere]
      simp
  | some found =>
      rw [lands.find there]
      cases found <;> simp [isFile]

end FileTree

namespace Codemod.Imports

open FileTree (Place Opens Lands IsEntryName)

/-! ## Directories below a target -/

/-- A directory has a manifest. -/
def HasManifest (tree : FileTree) (dir : Place) : Prop :=
  ∃ content executable, tree.get? (dir ++ [manifestFile]) = some (.file content executable)

theorem isEntryName_manifestFile : IsEntryName manifestFile := by
  decide

theorem hasFile_joinText_iff {tree : FileTree} {path : Path} {dir : Place}
    (opens : Opens tree path dir) :
    tree.hasFile (path.joinText manifestFile) = true ↔ HasManifest tree dir :=
  (opens.lands isEntryName_manifestFile).hasFile_iff

theorem locate_manifest {tree : FileTree} {path : Path} {dir : Place} (opens : Opens tree path dir)
    (has : HasManifest tree dir) :
    tree.locate (path.joinText manifestFile) = .ok (dir ++ [manifestFile]) := by
  obtain ⟨_, _, file⟩ := has
  exact (opens.lands isEntryName_manifestFile).locate (FileTree.entryAt?_ne_none file)

/-- A path stands for the directory that names lead to from a target. -/
structure StandsFor (tree : FileTree) (target : Path) (top names : Place) (dir : Path) : Prop where
  components : dir.components = target.components ++ names.map .normal
  opens : Opens tree dir (top ++ names)

/-- The nearest of the directories on a way that has a manifest, or the first if none has. -/
structure IsNearest (tree : FileTree) (top dirs package : Place) : Prop where
  above : package <+: dirs
  holds : package ≠ [] → HasManifest tree (top ++ package)
  nearest : ∀ other, other <+: dirs → HasManifest tree (top ++ other) → other <+: package

theorem IsNearest.unique {tree : FileTree} {top dirs first second : Place}
    (nearest : IsNearest tree top dirs first) (nearest' : IsNearest tree top dirs second) :
    first = second := by
  have upTo : ∀ {first second : Place}, IsNearest tree top dirs first →
      IsNearest tree top dirs second → first <+: second := by
    intro first second nearest nearest'
    by_cases start : first = []
    · rw [start]
      exact List.nil_prefix
    · exact nearest'.nearest first nearest.above (nearest.holds start)
  exact (upTo nearest nearest').eq_of_length
    (Nat.le_antisymm (upTo nearest nearest').length_le (upTo nearest' nearest).length_le)

theorem isNearest_nil (tree : FileTree) (top : Place) : IsNearest tree top [] [] where
  above := List.prefix_rfl
  holds start := absurd rfl start
  nearest _ leads _ := leads

theorem isNearest_self {tree : FileTree} {top dirs : Place}
    (holds : HasManifest tree (top ++ dirs)) : IsNearest tree top dirs dirs where
  above := List.prefix_rfl
  holds _ := holds
  nearest _ leads _ := leads

/-- A directory without a manifest is passed over. -/
theorem IsNearest.concat {tree : FileTree} {top dirs package : Place}
    (nearest : IsNearest tree top dirs package) {name : String}
    (none : ¬ HasManifest tree (top ++ (dirs ++ [name]))) :
    IsNearest tree top (dirs ++ [name]) package where
  above := nearest.above.trans (List.prefix_append _ _)
  holds := nearest.holds
  nearest other leads holds := by
    obtain rfl | shorter := List.prefix_concat_iff.1 leads
    · exact absurd holds none
    · exact nearest.nearest other shorter holds

section Owner

variable {tree : FileTree} {target : Path} {top : Place}

/-- A directory above a file is found by its parent. -/
theorem standsFor_enclosing (opens : Opens tree target top) {names : Place}
    (isName : ∀ name ∈ names, IsEntryName name)
    (directory : tree.entryAt? (top ++ names) = some .directory) :
    StandsFor tree target top names (Path.enclosing (Path.openEnd target.pieces ++ names)) where
  components := by
    rw [Path.components_enclosing, ← Path.openEnd_below isName, ← Path.components_eq_componentsOf,
      Path.components_below isName]
  opens := by
    have below := opens.below isName directory
    rw [Opens, Path.openEnd_below isName] at below
    rw [Opens, Path.openEnd_enclosing, FileTree.follow_trimAbove, below]

/-- Above the target, a path does not start with it. -/
theorem takeWhile_properAncestors {path : Path} (same : path.components = target.components)
    (fuel : Nat) :
    (path.properAncestors fuel).takeWhile (fun dir => dir.startsWith target) = [] := by
  cases fuel with
  | zero => rfl
  | succ fuel =>
      rw [Path.properAncestors]
      split
      next parent found =>
        obtain ⟨component, split⟩ := Path.components_parent? found
        refine List.takeWhile_cons_of_neg ?_
        rw [Path.startsWith, List.isPrefixOf_iff_prefix, ← same, split]
        intro longer
        have := longer.length_le
        rw [List.length_append, List.length_singleton] at this
        omega
      next => rfl

/-- The package that is found among directories, nearest first. -/
def ownerAmong (tree : FileTree) (target : Path) (dirs : List Path) : Path :=
  ((dirs.takeWhile fun dir => dir.startsWith target).find? fun dir =>
    tree.hasFile (dir.joinText manifestFile)).getD target

theorem owner_eq_ownerAmong (file : Path) :
    owner tree target file =
      ownerAmong tree target (Path.properAncestors file.pieces.length file) :=
  rfl

/-- The package is the first directory if that has a manifest, and is otherwise found among the
others. -/
theorem ownerAmong_cons (dir : Path) (dirs : List Path) (starts : dir.startsWith target = true) :
    ownerAmong tree target (dir :: dirs) =
      if tree.hasFile (dir.joinText manifestFile) then dir else ownerAmong tree target dirs := by
  rw [ownerAmong, List.takeWhile_cons, if_pos starts, List.find?_cons]
  cases tree.hasFile (dir.joinText manifestFile) <;> rfl

/-- The parents of a path that goes on from the target lead to the nearest package, whatever its
last name is. -/
theorem standsFor_ownerAmong (opens : Opens tree target top) {dirs : Place}
    (isName : ∀ name ∈ dirs, IsEntryName name)
    (directory : tree.entryAt? (top ++ dirs) = some .directory) {path : Path} {name : String}
    (pieces : path.pieces = (Path.openEnd target.pieces ++ dirs) ++ [name]) (last : IsName name)
    {fuel : Nat} (enough : dirs.length < fuel) :
    ∃ package, IsNearest tree top dirs package ∧
      StandsFor tree target top package
        (ownerAmong tree target (Path.properAncestors fuel path)) := by
  induction fuel generalizing dirs path name with
  | zero => cases enough
  | succ fuel ih =>
      have stands := standsFor_enclosing opens isName directory
      have starts : (Path.enclosing (Path.openEnd target.pieces ++ dirs)).startsWith target =
          true := by
        rw [Path.startsWith, stands.components]
        exact List.isPrefixOf_iff_prefix.2 (List.prefix_append _ _)
      rw [Path.properAncestors, Path.parent?_of_pieces pieces last]
      rw [ownerAmong_cons _ _ starts]
      split
      next found =>
        have here := (hasFile_joinText_iff stands.opens).1 found
        exact ⟨dirs, isNearest_self here, stands⟩
      next missing =>
        have none : ¬ HasManifest tree (top ++ dirs) :=
          fun here => missing ((hasFile_joinText_iff stands.opens).2 here)
        rcases List.eq_nil_or_concat dirs with rfl | ⟨above, next, rfl⟩
        · refine ⟨[], isNearest_nil tree top, ?_⟩
          rw [ownerAmong, takeWhile_properAncestors (by simpa using stands.components)]
          exact ⟨by simp, by rwa [List.append_nil]⟩
        · rw [List.concat_eq_append] at *
          obtain ⟨isAbove, isNext⟩ := List.forall_mem_append.1 isName
          have isNext := isNext next (List.mem_singleton_self _)
          have higher : tree.entryAt? (top ++ above) = some .directory := by
            have := FileTree.entryAt?_dropLast directory
            rwa [← List.append_assoc, List.dropLast_concat] at this
          have spelled : (Path.enclosing (Path.openEnd target.pieces ++ (above ++ [next]))).pieces =
              (Path.openEnd target.pieces ++ above) ++ [next] := by
            rw [← List.append_assoc, Path.enclosing_concat _ isNext.1]
          have shorter : above.length < fuel := by
            rw [List.length_append, List.length_singleton] at enough
            omega
          obtain ⟨package, nearest, leads⟩ := ih isAbove higher spelled isNext.1 shorter
          exact ⟨package, nearest.concat none, leads⟩

/-- **A file below a target belongs to the nearest package.** -/
theorem owner_below (opens : Opens tree target top) {dirs : Place} {name : String}
    (isName : ∀ name ∈ dirs, IsEntryName name) (last : IsEntryName name)
    (directory : tree.entryAt? (top ++ dirs) = some .directory) :
    ∃ package, IsNearest tree top dirs package ∧
      StandsFor tree target top package (owner tree target (target.below (dirs ++ [name]))) := by
  have pieces : (target.below (dirs ++ [name])).pieces =
      (Path.openEnd target.pieces ++ dirs) ++ [name] := Path.pieces_below_concat isName last
  rw [owner_eq_ownerAmong]
  refine standsFor_ownerAmong opens isName directory pieces last.1 ?_
  rw [pieces]
  simp only [List.length_append, List.length_singleton]
  omega

/-- A target that is a file belongs to itself. -/
theorem owner_self (tree : FileTree) (target : Path) : owner tree target target = target := by
  rw [owner_eq_ownerAmong, ownerAmong, takeWhile_properAncestors rfl]
  rfl

end Owner

end Codemod.Imports

end Uplift
