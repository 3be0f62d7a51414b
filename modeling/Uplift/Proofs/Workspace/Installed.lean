import Uplift.Proofs.Workspace.Inventory
import Uplift.Proofs.Workspace.Members

/-!
# What a scan takes as installed

The version that a scan gives for a package is that of the first declaration of the package, in the
order of the manifests (`installed_of_first`).  It is looked up among the installed packages, which
depends on the directory of these packages alone (`installedIn?_congr`).
-/

set_option autoImplicit false

namespace Uplift.Workspace

open FileTree (Place)

/-! ## Installed packages -/

/-- A package name that leads from a directory to places below it. -/
def LeadsBelow (name : String) : Prop :=
  (Path.ofText name).isAbsolute = false ∧ ".." ∉ (Path.ofText name).pieces

instance (name : String) : Decidable (LeadsBelow name) :=
  inferInstanceAs (Decidable (_ ∧ _))

/-- The names below the installed packages at which the manifest of a package is. -/
def installedNames (name : String) : Place :=
  ((Path.ofText name).pieces.filter fun piece => !Path.isIdle piece) ++ [manifestFile]

section Installed

variable {tree other : FileTree} {dir dir' : Path} {place place' : Place} {name : String}

theorem spells_installed (below : LeadsBelow name) (spells : dir.Spells place) :
    (((dir.joinText "node_modules").joinText name).joinText manifestFile).Spells
      (place ++ "node_modules" :: installedNames name) := by
  have isName : IsName "node_modules" := by decide
  have spelled := ((spells.joinText isName (by decide)).joinLevel below.1 below.2).manifest
  simpa [installedNames] using spelled

/-- What is read of an installed package depends on what is at its place. -/
theorem readText_installed_iff (below : LeadsBelow name) (spells : dir.Spells place)
    {text : String} :
    tree.readText (((dir.joinText "node_modules").joinText name).joinText manifestFile) = .ok text ↔
      ∃ content executable,
        tree.entryAt? (place ++ "node_modules" :: installedNames name) =
          some (.file content executable) ∧ Text.decode? content = some text := by
  have spelled := spells_installed below spells
  have split : place ++ "node_modules" :: installedNames name =
      place ++ "node_modules" :: ((Path.ofText name).pieces.filter fun piece =>
        !Path.isIdle piece) ++ [manifestFile] := by
    simp [installedNames]
  rw [split] at spelled ⊢
  refine FileTree.readText_iff_of_spells spelled ?_
  rw [Path.pieces_joinText isEntryName_manifestFile.2, List.getLast?_concat]

/-- **The version installed in a directory depends on its installed packages alone.** -/
theorem installedIn?_congr (below : LeadsBelow name) (spells : dir.Spells place)
    (spells' : dir'.Spells place')
    (same : ∀ rest, other.entryAt? (place' ++ "node_modules" :: rest) =
      tree.entryAt? (place ++ "node_modules" :: rest)) :
    installedIn? other dir' name = installedIn? tree dir name := by
  have read : (other.readText
        (((dir'.joinText "node_modules").joinText name).joinText manifestFile)).toOption =
      (tree.readText
        (((dir.joinText "node_modules").joinText name).joinText manifestFile)).toOption := by
    refine Option.ext fun text => ?_
    rw [Results.toOption_eq_some_iff, Results.toOption_eq_some_iff,
      readText_installed_iff below spells, readText_installed_iff below spells', same]
  rw [installedIn?, installedIn?, read]

/-- Without installed packages, none is installed. -/
theorem installedIn?_of_absent (below : LeadsBelow name) (spells : dir.Spells place)
    (absent : tree.entryAt? (place ++ ["node_modules"]) = none) :
    installedIn? tree dir name = none := by
  have unread : (tree.readText
      (((dir.joinText "node_modules").joinText name).joinText manifestFile)).toOption = none := by
    rw [Option.eq_none_iff_forall_ne_some]
    intro text read
    obtain ⟨content, executable, file, _⟩ :=
      (readText_installed_iff below spells).1 (Results.toOption_eq_some_iff.1 read)
    have there : tree.entryAt? (place ++ "node_modules" :: installedNames name) ≠ none := by
      rw [file]
      exact Option.some_ne_none _
    obtain ⟨first, rest, names⟩ : ∃ first rest, installedNames name = first :: rest :=
      List.exists_cons_of_ne_nil (by simp [installedNames])
    rw [names, List.append_cons] at there
    have above := FileTree.entryAt?_above there
    rw [absent] at above
    cases above
  rw [installedIn?, unread]
  rfl

end Installed

/-! ## Declarations -/

/-- A manifest declares a tracked package with a range that is understood. -/
def DeclaresTracked (filter : DependencyFilter) (manifest : Manifest) (name : String) : Prop :=
  filter.accepts name = true ∧ ∃ part raw, (part, name, raw) ∈ manifest.dependencies ∧
    (Range.parse? raw).isSome = true

section Declarations

variable {tree : FileTree} {root : Path} {filter : DependencyFilter}

theorem declaresTracked_of_mem {path : Path} {manifest : Manifest} {declaration : Declaration}
    (member : declaration ∈ declarationsOf root filter path manifest) :
    DeclaresTracked filter manifest declaration.name := by
  obtain ⟨_, _, accepted, parsed, part, given⟩ := mem_declarationsOf.1 member
  exact ⟨accepted, part, declaration.raw, given, by simp [parsed]⟩

/-- The declarations of a manifest are the same wherever it is, apart from its path. -/
theorem declarationsOf_moved (path other : Path) (manifest : Manifest) :
    declarationsOf root filter path manifest =
      (declarationsOf root filter other manifest).map fun declaration =>
        { declaration with manifest := path, relative := root.display path } := by
  rw [declarationsOf, declarationsOf, List.map_filterMap]
  refine List.filterMap_congr fun dependency _ => ?_
  obtain ⟨part, name, raw⟩ := dependency
  simp only
  split
  · rw [Option.map_map]
    rfl
  · rfl

theorem manifest_of_mem {path : Path} {manifest : Manifest} {declaration : Declaration}
    (member : declaration ∈ declarationsOf root filter path manifest) :
    declaration.manifest = path :=
  (mem_declarationsOf.1 member).1

/-- The version beside the manifest comes first, then that at the root, then that of the range. -/
theorem installedVersion_eq_getD (declaration : Declaration) :
    declaration.installedVersion tree root =
      ((installedIn? tree (declaration.manifest.parent?.getD root) declaration.name).or
        (installedIn? tree root declaration.name)).getD declaration.range.version := by
  unfold Declaration.installedVersion
  dsimp only
  cases installedIn? tree (declaration.manifest.parent?.getD root) declaration.name with
  | none => rfl
  | some version => rfl

/-- Where nothing else is installed beside a manifest than at the root, the version is that at the
root or of the range. -/
theorem installedVersion_eq {declaration : Declaration} {dir : Path}
    (parent : declaration.manifest.parent? = some dir)
    (beside : installedIn? tree dir declaration.name = none ∨
      installedIn? tree dir declaration.name = installedIn? tree root declaration.name) :
    declaration.installedVersion tree root =
      (installedIn? tree root declaration.name).getD declaration.range.version := by
  rw [installedVersion_eq_getD, parent, Option.getD_some]
  rcases beside with none | same
  · rw [none, Option.none_or]
  · rw [same, Option.or_self]

theorem firstFor_moved (path other : Path) (manifest : Manifest) (name : String) :
    firstFor (declarationsOf root filter path manifest) name =
      (firstFor (declarationsOf root filter other manifest) name).map fun declaration =>
        { declaration with manifest := path, relative := root.display path } := by
  rw [firstFor, firstFor, declarationsOf_moved path other, List.find?_map]
  rfl

/-! ## The scan -/

/-- What a scan tells about the manifests that it has loaded. -/
structure Reports (tree : FileTree) (filter : DependencyFilter) (manifests : List (Path × Manifest))
    (found : Scan) : Prop where
  loaded : loadManifests tree found.root = .ok (found.isWorkspace, manifests)
  listed : found.manifests = manifests.map Prod.fst
  installed : ∀ name, found.installed.get? name =
    (firstFor (declarationsIn found.root filter manifests) name).map
      (Declaration.installedVersion tree found.root)
  tracked : ∀ name, found.manifestsByPackage.get? name =
    if manifestsFor (declarationsIn found.root filter manifests) name = [] then none
    else some (manifestsFor (declarationsIn found.root filter manifests) name)

/-- Declarations in manifests with the same components are in one manifest. -/
theorem eq_of_same_of_mem {manifests : List (Path × Manifest)}
    (apart : (manifests.map Prod.fst).Pairwise fun first second => first.same second = false)
    {first second : Declaration} (member : first ∈ declarationsIn root filter manifests)
    (member' : second ∈ declarationsIn root filter manifests)
    (same : first.manifest.same second.manifest = true) : first.manifest = second.manifest := by
  obtain ⟨entry, listed, here⟩ := List.mem_flatMap.1 member
  obtain ⟨entry', listed', here'⟩ := List.mem_flatMap.1 member'
  rw [manifest_of_mem here, manifest_of_mem here'] at same ⊢
  have symm : Std.Symm fun first second : Path => first.same second = false :=
    ⟨fun first second distinct => by rwa [Path.same_comm]⟩
  by_contra different
  have distinct := apart.forall (List.mem_map_of_mem listed) (List.mem_map_of_mem listed') different
  rw [same] at distinct
  cases distinct

theorem reports_scanOf {isWorkspace : Bool} {manifests : List (Path × Manifest)}
    (loaded : loadManifests tree root = .ok (isWorkspace, manifests)) :
    Reports tree filter manifests (scanOf tree root filter isWorkspace manifests) where
  loaded := loaded
  listed := rfl
  installed := fun name => by
    change (manifests.foldl (Inventory.visit tree root filter) .empty).installed.get? name = _
    rw [Inventory.foldl_visit]
    exact Inventory.get?_installed _ name
  tracked := fun name => by
    change (manifests.foldl (Inventory.visit tree root filter) .empty).manifests.get? name = _
    rw [Inventory.foldl_visit]
    exact Inventory.get?_manifests _ name fun first member second member' =>
      eq_of_same_of_mem (apart_of_loadManifests loaded) member member'

/-- A scan loads the manifests and tells what they declare. -/
theorem scan_eq_ok_iff {found : Scan} :
    scan tree root filter = .ok found ↔ ∃ isWorkspace manifests,
      loadManifests tree root = .ok (isWorkspace, manifests) ∧
      found = scanOf tree root filter isWorkspace manifests := by
  rw [scan, Results.bind_eq_ok_iff]
  constructor
  · rintro ⟨⟨isWorkspace, manifests⟩, loaded, equal⟩
    cases equal
    exact ⟨isWorkspace, manifests, loaded, rfl⟩
  · rintro ⟨isWorkspace, manifests, loaded, rfl⟩
    exact ⟨(isWorkspace, manifests), loaded, rfl⟩

theorem reports_of_scan {found : Scan} (scanned : scan tree root filter = .ok found) :
    found.root = root ∧ ∃ manifests, Reports tree filter manifests found := by
  obtain ⟨isWorkspace, manifests, loaded, rfl⟩ := scan_eq_ok_iff.1 scanned
  exact ⟨rfl, manifests, reports_scanOf loaded⟩

/-- A scan succeeds if the manifests can be loaded. -/
theorem exists_reports_of_loadManifests {isWorkspace : Bool} {manifests : List (Path × Manifest)}
    (loaded : loadManifests tree root = .ok (isWorkspace, manifests)) (filter : DependencyFilter) :
    ∃ found, scan tree root filter = .ok found ∧ found.root = root ∧
      found.isWorkspace = isWorkspace ∧ Reports tree filter manifests found :=
  ⟨_, scan_eq_ok_iff.2 ⟨_, _, loaded, rfl⟩, rfl, rfl, reports_scanOf loaded⟩

theorem scan_of_loadManifests {isWorkspace : Bool} {manifests : List (Path × Manifest)}
    (loaded : loadManifests tree root = .ok (isWorkspace, manifests)) (filter : DependencyFilter) :
    ∃ found, scan tree root filter = .ok found ∧ found.isWorkspace = isWorkspace ∧
      found.manifests = manifests.map Prod.fst ∧
      ∀ name, found.installed.get? name =
        (firstFor (declarationsIn root filter manifests) name).map
          (Declaration.installedVersion tree root) := by
  obtain ⟨found, scanned, rfl, isWorkspace, reports⟩ :=
    exists_reports_of_loadManifests loaded filter
  exact ⟨found, scanned, isWorkspace, reports.listed, reports.installed⟩

theorem loadManifests_of_scan {found : Scan} (scanned : scan tree root filter = .ok found) :
    ∃ manifests, loadManifests tree root = .ok (found.isWorkspace, manifests) := by
  obtain ⟨rfl, manifests, reports⟩ := reports_of_scan scanned
  exact ⟨manifests, reports.loaded⟩

/-- Each manifest is loaded from its path. -/
theorem load_of_loadManifests {isWorkspace : Bool} {manifests : List (Path × Manifest)}
    (loaded : loadManifests tree root = .ok (isWorkspace, manifests)) {path : Path}
    {manifest : Manifest} (listed : (path, manifest) ∈ manifests) :
    Manifest.load tree path = .ok manifest := by
  obtain ⟨rootManifest, here, rest⟩ := loadManifests_eq_ok_iff.1 loaded
  split at rest
  next =>
    obtain ⟨_, rfl⟩ := rest
    cases List.mem_singleton.1 listed
    exact here
  next =>
    obtain ⟨_, _, _, _, loading, rfl⟩ := rest
    rcases List.mem_cons.1 listed with equal | member
    · cases equal
      exact here
    · obtain ⟨_, _, loadedAt⟩ := loading.of_mem member
      obtain ⟨rfl, load⟩ := loadAt_eq_ok_iff.1 loadedAt
      exact load

/-- A package that some manifest declares has a first declaration. -/
theorem isSome_firstFor {manifests : List (Path × Manifest)} {path : Path} {manifest : Manifest}
    (member : (path, manifest) ∈ manifests) {name : String}
    (declared : (firstFor (declarationsOf root filter path manifest) name).isSome = true) :
    (firstFor (declarationsIn root filter manifests) name).isSome = true := by
  rw [firstFor, List.find?_isSome] at declared ⊢
  obtain ⟨declaration, here, named⟩ := declared
  exact ⟨declaration, List.mem_flatMap.2 ⟨_, member, here⟩, named⟩

/-- **The first declaration of a package is that of the first manifest that declares it.** -/
theorem firstFor_of_first {early late : List (Path × Manifest)} {path : Path} {manifest : Manifest}
    {name : String} (silent : ∀ entry ∈ early, ¬ DeclaresTracked filter entry.2 name)
    {first : Declaration}
    (declared : firstFor (declarationsOf root filter path manifest) name = some first) :
    firstFor (declarationsIn root filter (early ++ (path, manifest) :: late)) name =
      some first := by
  have none : firstFor (declarationsIn root filter early) name = none := by
    rw [firstFor, List.find?_eq_none]
    intro declaration member named
    obtain ⟨entry, given, here⟩ := List.mem_flatMap.1 member
    have declares := declaresTracked_of_mem here
    rw [of_decide_eq_true named] at declares
    exact silent entry given declares
  rw [firstFor] at none declared ⊢
  rw [declarationsIn, List.flatMap_append, List.find?_append, ← declarationsIn, none,
    Option.none_or, ← declarationsIn, declarationsIn_cons, List.find?_append, declared,
    Option.some_or]

end Declarations

end Uplift.Workspace
