import Uplift.Proofs.Codemod.Contributions
import Uplift.Proofs.Codemod.Relocating

/-!
# What a plan says about every source file

Every source file below a target contributes one entry to a plan: an edit, its name among those in
which nothing is relocated, or a message.  The entries come in the order of the files, and nothing
else makes for an edit of a source or for such a name (`plan_accounts`).

What a file says about dependencies is put to the account of the nearest package above it
(`accounted_usageOf`).  So a file that could not be read keeps all dependencies in the manifest of
its package.
-/

set_option autoImplicit false

namespace Uplift.Codemod.Imports

open FileTree (Place Opens Lands comparePlaces)

/-! ## Accounts -/

/-- A file below a target belongs to the package in a directory: the nearest one above it. -/
def BelongsTo (tree : FileTree) (target : Path) (names place : Place) : Prop :=
  ∃ top package, tree.locate target = .ok top ∧ IsNearest tree top names.dropLast package ∧
    place = top ++ package

/-- The usage of a package is what the sources that belong to it say. -/
structure Accounted (read : Source.Reading) (tree : FileTree) (target : Path) (spec : Spec)
    (place : Place) (usage : Usage) : Prop where
  incomplete : usage.incomplete = true ↔
    ∃ names message, BelongsTo tree target names place ∧
      Fails read tree target spec names message
  residual : ∀ specifier, specifier ∈ Table.names usage.residual ↔
    ∃ names text relocated, BelongsTo tree target names place ∧
      Relocates read tree target spec names text relocated ∧
      specifier ∈ Table.names relocated.residual
  retained : ∀ specifier, specifier ∈ Table.names usage.retained ↔
    ∃ names text relocated, BelongsTo tree target names place ∧
      Relocates read tree target spec names text relocated ∧
      specifier ∈ Table.names relocated.retained

section Accounts

variable {read : Source.Reading} {tree : FileTree} {target : Path} {spec : Spec}
  (wellFormed : tree.WellFormed)
include wellFormed

/-- **The package of a source is the nearest one.** -/
theorem owner_of_sourceAt {names : Place} {dialect : Source.Dialect} {content : ByteArray}
    (source : SourceAt tree target names dialect content) :
    ∃ top package, tree.locate target = .ok top ∧ IsNearest tree top names.dropLast package ∧
      (owner tree target (target.below names)).components =
        target.components ++ package.map .normal := by
  obtain ⟨top, executable, located, there⟩ := source.found
  refine ⟨top, ?_⟩
  rcases List.eq_nil_or_concat names with rfl | ⟨dirs, name, rfl⟩
  · exact ⟨[], located, isNearest_nil tree top, by
      rw [show target.below [] = target from rfl, owner_self, List.map_nil, List.append_nil]⟩
  · rw [List.concat_eq_append] at there ⊢
    have inside := isInside_of_locate wellFormed located (FileTree.entryAt?_ne_none there)
    obtain ⟨package, nearest, stands⟩ := inside.owner_below
    rw [List.dropLast_concat]
    exact ⟨package, located, nearest, stands.components⟩

/-- A source belongs to the package whose directory has the same components as its own. -/
theorem owner_same_iff {names : Place} {dialect : Source.Dialect} {content : ByteArray}
    (source : SourceAt tree target names dialect content) {top package : Place}
    (located : tree.locate target = .ok top) {dir : Path}
    (components : dir.components = target.components ++ package.map .normal) :
    (owner tree target (target.below names)).same dir = true ↔
      BelongsTo tree target names (top ++ package) := by
  obtain ⟨top', nearest, located', isNearest, owned⟩ := owner_of_sourceAt wellFormed source
  cases located.symm.trans located'
  have injective : Function.Injective Path.Component.normal := by
    intro first second same
    cases same
    rfl
  rw [Path.same_iff, owned, components, List.append_cancel_left_eq,
    (List.map_injective_iff.2 injective).eq_iff]
  constructor
  · rintro rfl
    exact ⟨top, nearest, located, isNearest, rfl⟩
  · rintro ⟨top', nearest', located', isNearest', equal⟩
    cases located.symm.trans located'
    rw [List.append_cancel_left equal]
    exact isNearest.unique isNearest'

section Account

variable {dir : Path} {place : Place}
  (owned : ∀ names dialect content, SourceAt tree target names dialect content →
    ((owner tree target (target.below names)).same dir = true ↔
      BelongsTo tree target names place))
include owned

theorem exists_broken_iff :
    (∃ owner relative message,
      .broken owner relative message ∈ findingsOf read tree target spec ∧
        owner.same dir = true) ↔
      ∃ names message, BelongsTo tree target names place ∧
        Fails read tree target spec names message := by
  constructor
  · rintro ⟨_, _, message, found, same⟩
    obtain ⟨_, _, _, _, _, impossible⟩ | ⟨names, _, fails, equal⟩ | ⟨_, _, _, _, impossible⟩ :=
      mem_findingsOf_cases wellFormed found
    · cases impossible
    · cases equal
      have ⟨_, _, source, _⟩ := fails
      exact ⟨names, message, (owned _ _ _ source).1 same, fails⟩
    · cases impossible
  · rintro ⟨names, message, belongs, fails⟩
    have ⟨_, _, source, _⟩ := fails
    exact ⟨_, _, _, broken_of_fails wellFormed fails, (owned _ _ _ source).2 belongs⟩

theorem exists_source_iff (holds : Source.Relocated → Prop) :
    (∃ owner edit relocated,
      .source owner edit relocated ∈ findingsOf read tree target spec ∧
        owner.same dir = true ∧ holds relocated) ↔
      ∃ names text relocated, BelongsTo tree target names place ∧
        Relocates read tree target spec names text relocated ∧ holds relocated := by
  constructor
  · rintro ⟨_, _, relocated, found, same, holds⟩
    obtain ⟨_, _, _, _, _, impossible⟩ | ⟨_, _, _, impossible⟩ | ⟨names, text, _, done, equal⟩ :=
      mem_findingsOf_cases wellFormed found
    · cases impossible
    · cases impossible
    · cases equal
      have ⟨_, _, source, _⟩ := done
      exact ⟨names, text, relocated, (owned _ _ _ source).1 same, done, holds⟩
  · rintro ⟨names, text, relocated, belongs, done, holds⟩
    have ⟨_, _, source, _⟩ := done
    exact ⟨_, _, _, source_of_relocates wellFormed done, (owned _ _ _ source).2 belongs, holds⟩

/-- **The usage of a package is what its sources say**, where the sources that belong to it are
known by their packages. -/
theorem accounted_usageOf :
    Accounted read tree target spec place
      (usageOf (findingsOf read tree target spec) dir) where
  incomplete := incomplete_usageOf_iff.trans (exists_broken_iff wellFormed owned)
  residual _ := mem_residual_usageOf_iff.trans (exists_source_iff wellFormed owned _)
  retained _ := mem_retained_usageOf_iff.trans (exists_source_iff wellFormed owned _)

end Account

/-! ## Packages that are planned -/

omit wellFormed in
theorem mem_of_mem_distinct {seen paths : List Path} {path : Path}
    (member : path ∈ distinct seen paths) : path ∈ paths := by
  induction paths generalizing seen with
  | nil => exact member
  | cons first paths ih =>
      rw [distinct] at member
      split at member
      · exact List.mem_cons_of_mem _ (ih member)
      · rcases List.mem_cons.1 member with rfl | member
        · exact List.mem_cons_self
        · exact List.mem_cons_of_mem _ (ih member)

omit wellFormed in
theorem same_of_mem_distinct {seen paths : List Path} {path : Path}
    (member : path ∈ distinct seen paths) : ∀ old ∈ seen, path.same old = false := by
  induction paths generalizing seen with
  | nil => cases member
  | cons first paths ih =>
      rw [distinct] at member
      split at member
      next => exact ih member
      next fresh =>
        rcases List.mem_cons.1 member with rfl | member
        · simpa using fresh
        · exact fun old among => ih member old (List.mem_cons_of_mem _ among)

omit wellFormed in
theorem pairwise_distinct (seen paths : List Path) :
    (distinct seen paths).Pairwise fun first second => first.same second = false := by
  induction paths generalizing seen with
  | nil => exact .nil
  | cons first paths ih =>
      rw [distinct]
      split
      next => exact ih seen
      next =>
        refine List.pairwise_cons.2 ⟨fun path member => ?_, ih (first :: seen)⟩
        rw [Path.same_comm]
        exact same_of_mem_distinct member first List.mem_cons_self

omit wellFormed in
/-- No package comes twice. -/
theorem pairwise_ownersOf (findings : List Finding) :
    (ownersOf findings).Pairwise fun first second => first.same second = false := by
  rw [ownersOf, (List.mergeSort_perm _ _).pairwise_iff]
  · exact pairwise_distinct _ _
  · intro first second different
    rwa [Path.same_comm]

omit wellFormed in
theorem exists_finding_of_mem_ownersOf {findings : List Finding} {dir : Path}
    (member : dir ∈ ownersOf findings) : ∃ finding ∈ findings, finding.owner = dir :=
  List.mem_map.1 (mem_of_mem_distinct (List.mem_mergeSort.1 member))

/-- The package of a source stands for a directory at or below the target, if it has a
manifest. -/
theorem standsFor_of_sourceAt {names : Place} {dialect : Source.Dialect} {content : ByteArray}
    (source : SourceAt tree target names dialect content)
    (held : tree.hasFile ((owner tree target (target.below names)).joinText manifestFile) = true) :
    ∃ top package, tree.locate target = .ok top ∧
      StandsFor tree target top package (owner tree target (target.below names)) := by
  obtain ⟨top, executable, located, there⟩ := source.found
  rcases List.eq_nil_or_concat names with rfl | ⟨dirs, name, rfl⟩
  · rw [show target.below [] = target from rfl, owner_self] at held
    obtain ⟨place, found⟩ := FileTree.exists_locate_of_hasFile held
    rw [List.append_nil] at there
    exact absurd found (FileTree.locate_joinText_of_flat located
      (FileTree.entryAt?_ne_directory there) isEntryName_manifestFile.2 place)
  · rw [List.concat_eq_append] at there ⊢
    have inside := isInside_of_locate wellFormed located (FileTree.entryAt?_ne_none there)
    obtain ⟨package, _, stands⟩ := inside.owner_below
    exact ⟨top, package, located, stands⟩

/-- A target that is a manifest, with the path of its directory. -/
structure IsManifest (tree : FileTree) (target : Path) (place : Place) (dir : Path) : Prop where
  parent : target.parent? = some dir
  lands : Lands tree target place manifestFile
  file : ∃ content executable,
    tree.get? (place ++ [manifestFile]) = some (.file content executable)
  opens : Opens tree dir place

/-- The directory of a manifest that was found. -/
theorem directory_of_manifest {names : Place} {dir : Path} (below : names ∈ placesBelow tree target)
    (named : (target.below names).fileName? = some manifestFile)
    (parent : (target.below names).parent? = some dir) :
    (∃ top dirs, tree.locate target = .ok top ∧ StandsFor tree target top dirs dir) ∨
      names = [] ∧ ∃ place, IsManifest tree target place dir := by
  obtain ⟨⟨top, content, executable, located, there⟩, _⟩ :=
    (mem_placesBelow_iff wellFormed).1 below
  rcases List.eq_nil_or_concat names with rfl | ⟨dirs, name, rfl⟩
  · right
    rw [List.append_nil] at there
    obtain ⟨place, name, rfl, lands⟩ :=
      FileTree.lands_of_file located ((FileTree.entryAt?_eq_file_iff _ _ _ _).2 there)
    cases lands.fileName?.symm.trans named
    obtain ⟨dir', found, opens⟩ := lands.opens_parent
    cases found.symm.trans parent
    exact ⟨rfl, place, found, lands, ⟨content, executable, there⟩, opens⟩
  · left
    rw [List.concat_eq_append] at there parent
    have inside := isInside_of_locate wellFormed located (FileTree.entryAt?_ne_none there)
    obtain ⟨dir', found, stands⟩ := inside.parent?
    cases found.symm.trans parent
    exact ⟨top, dirs, located, stands⟩

/-- A directory in which something was found and which has a manifest stands for a directory at or
below the target, or the target is its manifest. -/
theorem owner_cases {dir : Path} (member : dir ∈ ownersOf (findingsOf read tree target spec))
    (held : tree.hasFile (dir.joinText manifestFile) = true) :
    (∃ top names, tree.locate target = .ok top ∧ StandsFor tree target top names dir) ∨
      ∃ place, IsManifest tree target place dir := by
  obtain ⟨finding, found, rfl⟩ := exists_finding_of_mem_ownersOf member
  obtain ⟨names, dir, below, named, parent, rfl⟩ | ⟨names, _, fails, rfl⟩ |
    ⟨names, _, _, relocates, rfl⟩ := mem_findingsOf_cases wellFormed found
  · exact (directory_of_manifest wellFormed below named parent).imp_right And.right
  · have ⟨_, _, source, _⟩ := fails
    exact .inl (standsFor_of_sourceAt wellFormed source held)
  · have ⟨_, _, source, _⟩ := relocates
    exact .inl (standsFor_of_sourceAt wellFormed source held)

/-- The usage of a package with a manifest is what the sources that belong to its directory say. -/
theorem exists_accounted {dir : Path} (member : dir ∈ ownersOf (findingsOf read tree target spec))
    (held : tree.hasFile (dir.joinText manifestFile) = true) :
    ∃ place, Opens tree dir place ∧
      Accounted read tree target spec place
        (usageOf (findingsOf read tree target spec) dir) := by
  obtain ⟨top, names, located, stands⟩ | ⟨place, isManifest⟩ :=
    owner_cases wellFormed member held
  · exact ⟨_, stands.opens, accounted_usageOf wellFormed fun _ _ _ source =>
      owner_same_iff wellFormed source located stands.components⟩
  · refine ⟨place, isManifest.opens, accounted_usageOf wellFormed fun names _ _ source => ?_⟩
    obtain ⟨top, executable, located, there⟩ := source.found
    obtain ⟨_, _, file⟩ := isManifest.file
    cases located.symm.trans (isManifest.lands.locate (FileTree.entryAt?_ne_none file))
    cases names with
    | nil => exact absurd isManifest.lands.fileName? (fileName?_ne_of_dialect source.dialect)
    | cons name names =>
        have none := FileTree.entryAt?_below (FileTree.entryAt?_ne_directory file) name names
        rw [FileTree.entryAt?_eq_none_iff, there] at none
        cases none

end Accounts

/-- A manifest has all dependencies of another, with their ranges. -/
def KeepsDependencies (old new : Manifest) : Prop :=
  ∀ part entries name value, old.section? part = some entries → entries.get? name = some value →
    ∃ later, new.section? part = some later ∧ later.get? name = some value

/-- A manifest is edited by what the sources say that belong to the package in its directory, and
keeps all dependencies if one of these could not be read. -/
structure EditsPackage (read : Source.Reading) (tree : FileTree) (target : Path) (spec : Spec)
    (edit : FileEdit) (place : Place) (usage : Usage) (old new : Manifest) : Prop where
  located : tree.locate edit.path = .ok (place ++ [manifestFile])
  accounted : Accounted read tree target spec place usage
  text : tree.readText edit.path = .ok edit.before
  parsed : Manifest.parse edit.relative edit.before = .ok old
  relocated : new = (relocateDependencies spec.packages usage old).1
  rendered : edit.after = new.render
  cautious : (∃ names message, BelongsTo tree target names place ∧
    Fails read tree target spec names message) → KeepsDependencies old new

/-- A plan accounts for source files: each contributes one entry, in the order of the walk. -/
structure Plan.Accounts (plan : Plan) (read : Source.Reading) (tree : FileTree) (target : Path)
    (spec : Spec) (sources : List (Place × Contribution)) : Prop where
  ascending : (sources.map Prod.fst).Pairwise fun first second =>
    comparePlaces first second = .lt
  /-- Every source file is there, and nothing else. -/
  complete : ∀ names, names ∈ sources.map Prod.fst ↔
    ∃ dialect content, SourceAt tree target names dialect content
  contributes : ∀ entry ∈ sources, Contributes read tree target spec entry.1 entry.2
  files : plan.files = sources.filterMap fun entry => entry.2.changed?
  skipped : plan.skipped = sources.filterMap fun entry => entry.2.skipped?
  /-- Other messages are about a target that is not there, or about manifests. -/
  errors : ∃ missing unplanned,
    plan.errors = missing ++ (sources.filterMap fun entry => entry.2.failed?) ++ unplanned ∧
      (tree.has target = true → missing = []) ∧
      ∀ message ∈ unplanned, ∃ (dir : Path) (cause : String),
        tree.hasFile (dir.joinText manifestFile) = true ∧
        message = s!"{target.display (dir.joinText manifestFile)}: {cause}"
  /-- Every source file is put to the account of the nearest package above it. -/
  owned : ∀ entry ∈ sources, ∃ top package, tree.locate target = .ok top ∧
    IsNearest tree top entry.1.dropLast package ∧
    (owner tree target (target.below entry.1)).components =
      target.components ++ package.map .normal
  manifests : ∀ edit ∈ plan.manifests, ∃ place usage old new,
    EditsPackage read tree target spec edit place usage old new

section Main

variable {tree : FileTree} (wellFormed : tree.WellFormed) (read : Source.Reading) (target : Path)
  (spec : Spec)
include wellFormed

theorem exists_editsPackage {edit : FileEdit}
    (planned : edit ∈ (plan read tree target spec).manifests) :
    ∃ place usage old new, EditsPackage read tree target spec edit place usage old new := by
  obtain ⟨dir, isOwner, old, path, text, parsed, rendered⟩ := relocated_of_mem_manifests planned
  have held := FileTree.hasFile_of_readText text
  rw [path] at held
  obtain ⟨place, opens, accounted⟩ := exists_accounted wellFormed isOwner held
  refine ⟨place, _, old, _, ⟨?_, accounted, text, parsed, rfl, rendered, fun fails => ?_⟩⟩
  · rw [path]
    exact locate_manifest opens ((hasFile_joinText_iff opens).1 held)
  · intro part entries name value present found
    refine get?_relocateDependencies_of_keeps (fun package => ?_)
      (Manifest.hasDistinctKeys (Manifest.of_parse parsed).1) present found
    rw [Usage.keeps, accounted.incomplete.2 fails]
    rfl

omit wellFormed in
theorem walkErrors_of_has (there : tree.has target = true) : walkErrors tree target = [] := by
  rw [FileTree.has] at there
  rw [walkErrors, filesBelow_eq]
  cases found : tree.find target with
  | error error =>
      rw [found] at there
      cases there
  | ok top => rfl

omit wellFormed in
/-- A message about a package names its manifest. -/
theorem packageEdit?_error {findings : List Finding} {dir : Path} {message : String}
    (failed : packageEdit? tree target spec findings dir = some (.error message)) :
    tree.hasFile (dir.joinText manifestFile) = true ∧
      ∃ cause : String, message = s!"{target.display (dir.joinText manifestFile)}: {cause}" := by
  rw [packageEdit?] at failed
  split at failed
  next => cases failed
  next there =>
    simp only [Bool.or_eq_true, Bool.not_eq_true', not_or, Bool.not_eq_false] at there
    refine ⟨there.2, ?_⟩
    dsimp only at failed
    split at failed
    next =>
      obtain ⟨edit, _, equal⟩ := Option.map_eq_some_iff.1 failed
      cases equal
    next failure _ =>
      cases failed
      exact ⟨failure.message, rfl⟩

omit wellFormed in
/-- Other messages are about manifests. -/
theorem errors_planOf (walkErrors : List String) (findings : List Finding) :
    ∃ unplanned, (planOf tree target spec walkErrors findings).errors =
        walkErrors ++ findings.filterMap Finding.error? ++ unplanned ∧
      ∀ message ∈ unplanned, ∃ (dir : Path) (cause : String),
        tree.hasFile (dir.joinText manifestFile) = true ∧
        message = s!"{target.display (dir.joinText manifestFile)}: {cause}" := by
  refine ⟨_, rfl, fun message member => ?_⟩
  obtain ⟨result, planned, isError⟩ := List.mem_filterMap.1 member
  obtain ⟨dir, _, packaged⟩ := List.mem_filterMap.1 planned
  split at isError
  next =>
    cases isError
    obtain ⟨held, cause, equal⟩ := packageEdit?_error target spec packaged
    exact ⟨dir, cause, held, equal⟩
  next => cases isError

/-- **A plan accounts for every source file below its target.** -/
theorem plan_accounts :
    ∃ sources, (plan read tree target spec).Accounts read tree target spec sources := by
  refine ⟨sourcesOf read tree target spec, ?_, ?_, ?_, ?_, ?_, ?_, ?_, ?_⟩
  · rw [map_fst_sourcesOf]
    exact (pairwise_placesBelow wellFormed).filter _
  · intro names
    constructor
    · intro member
      obtain ⟨⟨_, contribution⟩, among, rfl⟩ := List.mem_map.1 member
      exact (sourceAt_of_mem_sourcesOf wellFormed among).1
    · rintro ⟨dialect, content, source⟩
      obtain ⟨contribution, member⟩ := mem_sourcesOf_of_sourceAt wellFormed source
      exact List.mem_map.2 ⟨_, member, rfl⟩
  · exact fun entry member => (sourceAt_of_mem_sourcesOf wellFormed member).2
  · exact files_plan
  · rw [plan]
    exact filterMap_findingsOf _ _ Finding.skipped?_eq
  · rw [plan]
    obtain ⟨unplanned, split, about⟩ := errors_planOf target spec (walkErrors tree target)
      (findingsOf read tree target spec)
    rw [filterMap_findingsOf _ _ Finding.error?_eq] at split
    exact ⟨walkErrors tree target, unplanned, split, walkErrors_of_has target, about⟩
  · intro entry member
    obtain ⟨⟨dialect, content, source⟩, _⟩ := sourceAt_of_mem_sourcesOf wellFormed member
    exact owner_of_sourceAt wellFormed source
  · exact fun edit planned => exists_editsPackage wellFormed read target spec planned

end Main

/-- A target with a package inside, a source that cannot be read, and a directory that is
skipped. -/
def twoPackages : FileTree :=
  .directory [
    ("a.ts", .file (Text.encode "import \"old") false),
    ("lib", .directory [
      ("b.ts", .file (Text.encode "import \"old\";\n") false),
      ("package.json", .file (Text.encode "\x7b\x7d") false)]),
    ("node_modules", .directory [("c.ts", .file (Text.encode "import \"old\";\n") false)]),
    ("package.json", .file (Text.encode "\x7b\"dependencies\": \x7b\"d\": \"1\"\x7d\x7d") false)]

theorem plan_accounts_twoPackages :
    twoPackages.WellFormed ∧
      ∃ sources, (plan Source.parse? twoPackages ⟨["", ""]⟩ (sendingTo "f")).Accounts
          Source.parse? twoPackages ⟨["", ""]⟩ (sendingTo "f") sources ∧
        ["a.ts"] ∈ sources.map Prod.fst ∧ ["lib", "b.ts"] ∈ sources.map Prod.fst ∧
        ["node_modules", "c.ts"] ∉ sources.map Prod.fst := by
  have wellFormed : twoPackages.WellFormed := by decide +kernel
  obtain ⟨sources, accounts⟩ :=
    plan_accounts wellFormed Source.parse? ⟨["", ""]⟩ (sendingTo "f")
  refine ⟨wellFormed, sources, accounts, ?_, ?_, ?_⟩
  · refine (accounts.complete _).2 ⟨.typed, _, ⟨[], false, rfl, rfl⟩, ?_, ?_⟩
    · decide
    · decide +kernel
  · refine (accounts.complete _).2 ⟨.typed, _, ⟨[], false, rfl, rfl⟩, ?_, ?_⟩
    · decide
    · decide +kernel
  · intro member
    obtain ⟨_, _, source⟩ := (accounts.complete _).1 member
    exact source.entered "node_modules" (by decide) (by decide)

end Uplift.Codemod.Imports
