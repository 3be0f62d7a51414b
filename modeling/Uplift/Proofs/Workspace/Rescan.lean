import Uplift.Proofs.Json.Reading
import Uplift.Proofs.Workspace.Conversion
import Uplift.Proofs.Workspace.Installed
import Uplift.Proofs.Workspace.MemberPattern

/-!
# Scanning a workspace that was just made

After a conversion, a scan of the root reads back the manifest that was written there and follows
its pattern to the member (`Settled.mem_members`).  It finds the package, and whatever other
packages are beside the member; it fails only if one of their manifests cannot be read.  Each
package that was installed is still taken as installed, and in the same version, unless a package
that comes before the member declares it too (`scan_of_convert`).
-/

set_option autoImplicit false

namespace Uplift.Workspace

open FileTree (Place IsEntryName)

/-! ## The manifest of the workspace -/

section WorkspaceManifest

variable (package : Manifest) (member : String)

theorem workspaceManifest_fields : ∃ name, workspaceManifest package member =
    ⟨[("name", .string name), ("private", .bool true),
      ("workspaces", .ofStrings [memberPattern member])]⟩ :=
  ⟨_, rfl⟩

theorem workspacePatterns?_workspaceManifest :
    (workspaceManifest package member).workspacePatterns? = some [memberPattern member] := by
  obtain ⟨name, fields⟩ := workspaceManifest_fields package member
  rw [fields]
  rfl

/-- The manifest of a new workspace declares nothing. -/
theorem declarationsOf_workspaceManifest (root path : Path) (filter : DependencyFilter) :
    declarationsOf root filter path (workspaceManifest package member) = [] := by
  obtain ⟨name, fields⟩ := workspaceManifest_fields package member
  rw [fields]
  rfl

/-- **The text of the manifest spells the manifest.** -/
theorem parse_workspaceManifest (display : String) :
    Manifest.parse display (workspaceManifest package member).render =
      .ok (workspaceManifest package member) := by
  obtain ⟨name, fields⟩ := workspaceManifest_fields package member
  rw [fields]
  have distinct : ["name", "private", "workspaces"].Nodup := by decide
  have readable : ∀ field ∈ [("name", Json.Value.string name), ("private", .bool true),
      ("workspaces", .ofStrings [memberPattern member])], Json.Readable (125 + 2) 1 field.2 := by
    intro field among
    simp only [List.mem_cons, List.not_mem_nil, or_false] at among
    rcases among with rfl | rfl | rfl
    · exact Json.readable_string _ _ _
    · exact Json.readable_bool _ _ _
    · refine Json.readable_array fun item listed => ?_
      rw [List.mem_singleton.1 listed]
      exact Json.readable_string _ _ _
  have read := Json.parse_render (Json.readable_object readable distinct)
  rw [Manifest.parse, Manifest.render, Manifest.toValue, read]
  rfl

end WorkspaceManifest

/-! ## What a scan can rely on -/

/-- A tree in which the package of a root has become the member `last` of a workspace, below the
names `above`. -/
structure Settled (before : FileTree) (root above : Place) (last : String) (package : Manifest)
    (later : FileTree) : Prop where
  workspace : (workspaceManifest package (String.intercalate "/" (above ++ [last]))).IsAt later
    (root ++ [manifestFile])
  package : package.IsAt later (root ++ above ++ [last, manifestFile])
  /-- No installed packages came along. -/
  bare : later.entryAt? (root ++ above ++ [last] ++ ["node_modules"]) = none
  /-- The installed packages are where they were. -/
  installed : ∀ rest, later.entryAt? (root ++ "node_modules" :: rest) =
    before.entryAt? (root ++ "node_modules" :: rest)
  /-- What is beside the member, below the root, is as it was. -/
  beside : above ≠ [] → ∀ name rest, name ≠ last →
    later.entryAt? (root ++ above ++ name :: rest) =
      before.entryAt? (root ++ above ++ name :: rest)

/-- **A converted package has settled.** -/
theorem Converted.settled {before later : FileTree} {root staging above : Place}
    {last : String} {moved : List String} {package : Manifest}
    (converted : Converted before root staging (root ++ above ++ [last]) moved
      (workspaceManifest package (String.intercalate "/" (above ++ [last]))).render later)
    (isAt : package.IsAt before (root ++ [manifestFile]))
    (clear : ∀ top further, above = top :: further → top ∉ moved)
    (stays : "node_modules" ∉ moved) (uninstalled : "node_modules" ∉ root ++ above ++ [last]) :
    Settled before root above last package later := by
  have outside : "node_modules" ∉ above ++ [last] := by
    intro member
    rw [List.append_assoc] at uninstalled
    exact uninstalled (List.mem_append_right _ member)
  refine
    { workspace := ⟨_, _, _, converted.manifest, Text.decode?_encode _,
        parse_workspaceManifest package _⟩
      package := ?_
      bare := ?_
      installed := fun rest => ?_
      beside := fun nonempty name rest different => ?_ }
  · have arrived := converted.arrived manifestFile converted.package []
    rw [List.append_assoc, List.singleton_append] at arrived
    exact isAt.of_entryAt? arrived
  · exact converted.others "node_modules" stays []
  · refine converted.kept _ (fun above' => ?_) (fun below => ?_) fun name among above' => ?_
    · rw [List.append_assoc, List.prefix_append_right_inj] at above'
      exact outside (above'.subset List.mem_cons_self)
    · rw [List.append_assoc, List.prefix_append_right_inj] at below
      obtain ⟨first, more, split⟩ := List.exists_cons_of_ne_nil (by simp : above ++ [last] ≠ [])
      rw [split, List.cons_prefix_cons] at below
      exact outside (by simp [split, below.1])
    · rw [List.prefix_append_right_inj, List.cons_prefix_cons] at above'
      exact stays (above'.1 ▸ among)
  · obtain ⟨top, further, rfl⟩ := List.exists_cons_of_ne_nil nonempty
    refine converted.kept _ (fun above' => ?_) (fun below => ?_) fun moving among above' => ?_
    · rw [List.prefix_append_right_inj, List.cons_prefix_cons] at above'
      exact different above'.1
    · rw [List.prefix_append_right_inj, List.cons_prefix_cons] at below
      exact different below.1.symm
    · rw [List.append_assoc, List.prefix_append_right_inj, List.cons_append,
        List.cons_prefix_cons] at above'
      exact clear top further rfl (above'.1 ▸ among)

/-- A package that the pattern of a member finds beside it. -/
structure IsSibling (tree : FileTree) (root member : Place) (name : String) : Prop where
  /-- At the top, the pattern finds the member alone. -/
  below : root.length + 1 < member.length
  different : member.getLast? ≠ some name
  uninstalled : name ≠ "node_modules"
  there : tree.entryAt? (member.dropLast ++ [name, manifestFile]) ≠ none

theorem isSibling_iff {tree : FileTree} {root above : Place} {last name : String} :
    IsSibling tree root (root ++ above ++ [last]) name ↔
      above ≠ [] ∧ last ≠ name ∧ name ≠ "node_modules" ∧
        tree.entryAt? (root ++ above ++ [name, manifestFile]) ≠ none := by
  have long : root.length + 1 < (root ++ above ++ [last]).length ↔ above ≠ [] := by
    rw [← List.length_pos_iff]
    simp
  constructor
  · rintro ⟨below, different, uninstalled, there⟩
    rw [List.getLast?_concat] at different
    rw [List.dropLast_concat] at there
    exact ⟨long.1 below, fun same => different (congrArg some same), uninstalled, there⟩
  · rintro ⟨below, different, uninstalled, there⟩
    refine ⟨long.2 below, ?_, uninstalled, ?_⟩
    · rw [List.getLast?_concat]
      exact fun same => different (Option.some.inj same)
    · rwa [List.dropLast_concat]

/-- The directories in which the pattern of a member finds manifests, by their names: the member's
own, and those of its siblings. -/
def IsListed (tree : FileTree) (root above : Place) (last name : String) : Prop :=
  name = last ∨ IsSibling tree root (root ++ above ++ [last]) name

/-! ## The members that are found -/

section Settled

variable {before later : FileTree} {root : Path} {place above : Place} {last : String}
  {package : Manifest} {filter : DependencyFilter}

/-- Siblings have names of entries. -/
theorem IsSibling.isEntryName (wellFormed : before.WellFormed) {name : String}
    (sibling : IsSibling before place (place ++ above ++ [last]) name) : IsEntryName name := by
  obtain ⟨_, _, _, there⟩ := isSibling_iff.1 sibling
  rw [List.append_cons] at there
  have present : before.entryAt? (place ++ above ++ [name]) ≠ none := by
    rw [FileTree.entryAt?_above there]
    exact Option.some_ne_none _
  exact wellFormed.isEntryName present

/-- The package and its siblings are in directories of their own. -/
theorem spells_beside (wellFormed : before.WellFormed) (isName : IsEntryName last) {parent : Path}
    (spells : parent.Spells (place ++ above)) {name : String}
    (listed : IsListed before place above last name) :
    (parent.joinText name).Spells (place ++ above ++ [name]) := by
  have isEntryName : IsEntryName name := by
    rcases listed with rfl | sibling
    · exact isName
    · exact sibling.isEntryName wellFormed
  exact spells.joinText isEntryName.1 isEntryName.2

theorem Settled.there (settled : Settled before place above last package later) :
    later.entryAt? (place ++ above ++ [last, manifestFile]) ≠ none := by
  obtain ⟨content, executable, text, file, _⟩ := settled.package
  rw [file]
  exact Option.some_ne_none _

/-- What the pattern finds in the new tree is the member, or was beside it before. -/
theorem Settled.found_iff (settled : Settled before place above last package later)
    (uninstalled : last ≠ "node_modules") (name : String) :
    (above = [] → name = last) ∧ name ≠ "node_modules" ∧
        later.entryAt? (place ++ above ++ [name, manifestFile]) ≠ none ↔
      IsListed before place above last name := by
  rw [IsListed, isSibling_iff]
  by_cases same : name = last
  · rw [same]
    exact iff_of_true ⟨fun _ => rfl, uninstalled, settled.there⟩ (.inl rfl)
  · constructor
    · rintro ⟨given, uninstalled, present⟩
      have nonempty : above ≠ [] := fun empty => same (given empty)
      rw [settled.beside nonempty name _ same] at present
      exact .inr ⟨nonempty, Ne.symm same, uninstalled, present⟩
    · rintro (equal | ⟨nonempty, _, uninstalled, present⟩)
      · exact absurd equal same
      · rw [← settled.beside nonempty name _ same] at present
        exact ⟨fun empty => absurd empty nonempty, uninstalled, present⟩

/-- The manifest of the package is in the member; those of its siblings are where they were. -/
theorem Settled.load_iff (settled : Settled before place above last package later)
    (wellFormed : before.WellFormed) (isName : IsEntryName last) {parent : Path}
    (spelledParent : parent.Spells (place ++ above)) {name : String}
    (listed : IsListed before place above last name)
    {manifest : Manifest} :
    Manifest.load later ((parent.joinText name).joinText manifestFile) = .ok manifest ↔
      name = last ∧ manifest = package ∨
        name ≠ last ∧ manifest.IsAt before (place ++ above ++ [name, manifestFile]) := by
  have spelledMember := spells_beside wellFormed isName spelledParent listed
  rw [Manifest.load_iff spelledMember, List.append_assoc (place ++ above), List.singleton_append]
  by_cases same : name = last
  · rw [same]
    constructor
    · exact fun isAt => .inl ⟨rfl, isAt.unique settled.package⟩
    · rintro (⟨_, rfl⟩ | ⟨different, _⟩)
      · exact settled.package
      · exact absurd rfl different
  · have sibling := listed.resolve_left same
    have entry := settled.beside (isSibling_iff.1 sibling).1 name [manifestFile] same
    constructor
    · exact fun isAt => .inr ⟨same, isAt.of_entryAt? entry.symm⟩
    · rintro (⟨equal, _⟩ | ⟨_, isAt⟩)
      · exact absurd equal same
      · exact isAt.of_entryAt? entry

variable (settled : Settled before place above last package later)
  (wellFormed : before.WellFormed) (spells : root.Spells place)
  (spelled : ∃ text, root = Path.ofText text)
  (findable : Findable place (place ++ above ++ [last]))
  (isName : ∀ name ∈ above ++ [last], IsEntryName name)

include settled wellFormed spells spelled findable isName

/-- **The members are the package and its siblings**: what the pattern finds in the new tree was there
before, or is the member. -/
theorem Settled.mem_members :
    ∃ (parent : Path) (members : List Path), parent.Spells (place ++ above) ∧
      memberManifests later root [memberPattern (String.intercalate "/" (above ++ [last]))] =
        .ok members ∧
      ∀ path, path ∈ members ↔ ∃ name, IsListed before place above last name ∧
        path = (parent.joinText name).joinText manifestFile := by
  have there := settled.there
  rw [List.append_cons] at there
  have directory := FileTree.directory_of_prefix (List.prefix_append _ _)
    (FileTree.entryAt?_above there)
  have uninstalled : last ≠ "node_modules" := by
    rintro rfl
    exact findable.uninstalled (by simp)
  have entryNames : above ≠ [] → ∀ name, later.entryAt? (place ++ above ++ [name]) ≠ none →
      IsEntryName name := by
    intro nonempty name present
    by_cases same : name = last
    · rw [same]
      exact isName last (by simp)
    · rw [settled.beside nonempty name [] same] at present
      exact wellFormed.isEntryName present
  obtain ⟨parent, paths, spelledParent, finding, mem_paths⟩ :=
    patternManifests_of_findable spells spelled findable isName directory entryNames
  have found_iff : ∀ path, path ∈ paths ↔ ∃ name, IsListed before place above last name ∧
      path = (parent.joinText name).joinText manifestFile := by
    intro path
    rw [mem_paths]
    refine exists_congr fun name => ?_
    rw [← settled.found_iff uninstalled name, and_assoc, and_assoc]
  have spellsFound : ∀ {name}, IsListed before place above last name →
      ((parent.joinText name).joinText manifestFile).Spells
        (place ++ above ++ [name] ++ [manifestFile]) :=
    fun listed => (spells_beside wellFormed (isName last (by simp)) spelledParent listed).manifest
  obtain ⟨members, listing, mem_members⟩ := mem_memberManifests_of_single finding
    (fun path given other given' same => by
      obtain ⟨name, listed, rfl⟩ := (found_iff path).1 given
      obtain ⟨name', listed', rfl⟩ := (found_iff other).1 given'
      have places := ((spellsFound listed).same_iff (spellsFound listed')).1 same
      have names : name = name' := by simpa using places
      rw [names])
    (fun path given => by
      obtain ⟨name, listed, rfl⟩ := (found_iff path).1 given
      rw [Bool.eq_false_iff, Ne, (spellsFound listed).same_iff spells.manifest]
      intro same
      have length := congrArg List.length same
      simp at length)
  exact ⟨parent, members, spelledParent, listing, fun path => by rw [mem_members, found_iff]⟩

/-- The scan goes on to load the members. -/
theorem Settled.loadManifests_iff :
    ∃ (parent : Path) (members : List Path), parent.Spells (place ++ above) ∧
      members.Pairwise (fun first second => Path.compare first second = .lt) ∧
      (∀ path, path ∈ members ↔ ∃ name, IsListed before place above last name ∧
        path = (parent.joinText name).joinText manifestFile) ∧
      ∀ isWorkspace manifests, loadManifests later root = .ok (isWorkspace, manifests) ↔
        isWorkspace = true ∧ ∃ entries, Results.Each (loadAt later) members entries ∧
          manifests = (root.joinText manifestFile,
            workspaceManifest package (String.intercalate "/" (above ++ [last]))) :: entries := by
  obtain ⟨parent, members, spelledParent, listing, mem_members⟩ :=
    settled.mem_members wellFormed spells spelled findable isName
  refine ⟨parent, members, spelledParent, pairwise_memberManifests listing, mem_members,
    fun isWorkspace manifests => ?_⟩
  have loaded := (Manifest.load_iff spells).2 settled.workspace
  have patterns := workspacePatterns?_workspaceManifest package
    (String.intercalate "/" (above ++ [last]))
  rw [loadManifests_eq_ok_iff]
  constructor
  · rintro ⟨rootManifest, here, rest⟩
    cases here.symm.trans loaded
    rw [patterns] at rest
    obtain ⟨isWorkspace, members', entries, listing', loading, equal⟩ := rest
    cases listing.symm.trans listing'
    exact ⟨isWorkspace, entries, loading, equal⟩
  · rintro ⟨isWorkspace, entries, loading, equal⟩
    refine ⟨_, loaded, ?_⟩
    rw [patterns]
    exact ⟨isWorkspace, members, entries, listing, loading, equal⟩

/-- **The scan succeeds exactly if the manifests beside the member can be read.** -/
theorem Settled.exists_scan_iff :
    (∃ found, scan later root filter = .ok found) ↔
      ∀ name, IsSibling before place (place ++ above ++ [last]) name →
        ∃ manifest : Manifest, manifest.IsAt before (place ++ above ++ [name, manifestFile]) := by
  obtain ⟨parent, members, spelledParent, _, mem_members, loaded_iff⟩ :=
    settled.loadManifests_iff wellFormed spells spelled findable isName
  have scanned_iff : (∃ found, scan later root filter = .ok found) ↔
      ∃ entries, Results.Each (loadAt later) members entries := by
    constructor
    · rintro ⟨found, scanned⟩
      obtain ⟨manifests, loaded⟩ := loadManifests_of_scan scanned
      obtain ⟨_, entries, loading, _⟩ := (loaded_iff _ _).1 loaded
      exact ⟨entries, loading⟩
    · rintro ⟨entries, loading⟩
      obtain ⟨found, scanned, _⟩ :=
        scan_of_loadManifests ((loaded_iff _ _).2 ⟨rfl, entries, loading, rfl⟩) filter
      exact ⟨found, scanned⟩
  rw [scanned_iff, Results.exists_each_iff]
  constructor
  · intro computable name sibling
    obtain ⟨entry, loaded⟩ := computable _ ((mem_members _).2 ⟨name, .inr sibling, rfl⟩)
    rw [loadAt_eq_ok_iff, settled.load_iff wellFormed (isName last (by simp)) spelledParent
      (.inr sibling)] at loaded
    obtain ⟨rfl, _⟩ | ⟨_, isAt⟩ := loaded.2
    · exact absurd rfl (isSibling_iff.1 sibling).2.1
    · exact ⟨entry.2, isAt⟩
  · intro readable path member
    obtain ⟨name, listed, rfl⟩ := (mem_members path).1 member
    have known : ∃ manifest : Manifest, name = last ∧ manifest = package ∨
        name ≠ last ∧ manifest.IsAt before (place ++ above ++ [name, manifestFile]) := by
      by_cases same : name = last
      · exact ⟨package, .inl ⟨same, rfl⟩⟩
      · obtain ⟨manifest, isAt⟩ := readable name (listed.resolve_left same)
        exact ⟨manifest, .inr ⟨same, isAt⟩⟩
    obtain ⟨manifest, known⟩ := known
    exact ⟨(_, manifest), loadAt_eq_ok_iff.2 ⟨rfl,
      (settled.load_iff wellFormed (isName last (by simp)) spelledParent listed).2 known⟩⟩

/-- **What the scan loads**: the manifest of the package, after those of siblings with lesser
names. -/
theorem Settled.loaded {found : Scan} (scanned : scan later root filter = .ok found) :
    found.isWorkspace = true ∧ ∃ dir early late, (dir : Path).Spells (place ++ above ++ [last]) ∧
      found.manifests = root.joinText manifestFile ::
        (early ++ (dir.joinText manifestFile, package) :: late).map Prod.fst ∧
      (∀ name, found.installed.get? name = (firstFor (declarationsIn root filter
          (early ++ (dir.joinText manifestFile, package) :: late)) name).map
        (Declaration.installedVersion later root)) ∧
      ∀ entry ∈ early, ∃ name, name < last ∧
        IsSibling before place (place ++ above ++ [last]) name ∧
        (entry : Path × Manifest).2.IsAt before (place ++ above ++ [name, manifestFile]) := by
  obtain ⟨parent, members, spelledParent, ascending, mem_members, loaded_iff⟩ :=
    settled.loadManifests_iff wellFormed spells spelled findable isName
  have lastName := isName last (by simp)
  obtain ⟨manifests, loaded⟩ := loadManifests_of_scan scanned
  obtain ⟨isWorkspace, entries, loading, rfl⟩ := (loaded_iff _ _).1 loaded
  obtain ⟨found', scanned', _, manifests, installed⟩ := scan_of_loadManifests loaded filter
  cases scanned.symm.trans scanned'
  have member := (mem_members _).2 ⟨last, .inl rfl, rfl⟩
  obtain ⟨lesser, greater, rfl⟩ := List.append_of_mem member
  obtain ⟨early, entry, late, rfl, earlier, here⟩ := loading.split
  obtain ⟨path, manifest⟩ := entry
  obtain ⟨samePath, load⟩ := loadAt_eq_ok_iff.1 here
  dsimp only at samePath load
  subst samePath
  have spelledDir := spells_beside wellFormed lastName spelledParent (.inl rfl)
  have spelledMember := spelledDir.manifest
  obtain ⟨_, rfl⟩ | ⟨different, _⟩ :=
    (settled.load_iff wellFormed lastName spelledParent (.inl rfl)).1 load
  · rw [List.append_assoc (place ++ above), List.singleton_append] at spelledMember
    refine ⟨isWorkspace, _, early, late, spelledDir, manifests, fun name => ?_,
      fun entry among => ?_⟩
    · rw [installed, declarationsIn_cons, declarationsOf_workspaceManifest, List.nil_append]
    · obtain ⟨path, before', computed⟩ := earlier.of_mem among
      obtain ⟨_, loaded⟩ := loadAt_eq_ok_iff.1 computed
      have order := (List.pairwise_append.1 ascending).2.2 path before' _ List.mem_cons_self
      obtain ⟨name, listed, rfl⟩ := (mem_members path).1 (List.mem_append_left _ before')
      have spelledName := (spells_beside wellFormed lastName spelledParent listed).manifest
      rw [List.append_assoc (place ++ above), List.singleton_append] at spelledName
      have lesserName := Path.lt_of_compare_beside spelledName spelledMember order
      obtain ⟨rfl, _⟩ | ⟨different, isAt⟩ :=
        (settled.load_iff wellFormed lastName spelledParent listed).1 loaded
      · exact absurd lesserName (lt_irrefl _)
      · exact ⟨name, lesserName, listed.resolve_left different, isAt⟩
  · exact absurd rfl different

end Settled

/-! ## What is still installed -/

section Versions

variable {before later : FileTree} {root : Path} {place above : Place} {last : String}
  {package : Manifest} {filter : DependencyFilter}

/-- **Moved into the member, a declaration stands for the version it stood for at the root.** -/
theorem Settled.installedVersion_eq (settled : Settled before place above last package later)
    (spells : root.Spells place) {dir : Path} (spelled : dir.Spells (place ++ above ++ [last]))
    {declaration moved : Declaration} (atRoot : declaration.manifest = root.joinText manifestFile)
    (inMember : moved.manifest = dir.joinText manifestFile)
    (sameName : moved.name = declaration.name) (sameRange : moved.range = declaration.range)
    (below : LeadsBelow declaration.name) :
    moved.installedVersion later root = declaration.installedVersion before root := by
  obtain ⟨parent, parent?, spelledParent⟩ := spells.parent_manifest
  obtain ⟨parent', parent?', spelledParent'⟩ := spelled.parent_manifest
  rw [← atRoot] at parent?
  rw [← inMember] at parent?'
  have absent : installedIn? later parent' moved.name = none := by
    rw [sameName]
    exact installedIn?_of_absent below spelledParent' settled.bare
  have equal : installedIn? before parent declaration.name =
      installedIn? before root declaration.name :=
    installedIn?_congr below spells spelledParent fun _ => rfl
  have stays : installedIn? later root declaration.name =
      installedIn? before root declaration.name :=
    installedIn?_congr below spells spells settled.installed
  rw [Workspace.installedVersion_eq parent?' (.inl absent),
    Workspace.installedVersion_eq parent? (.inr equal), sameName, sameRange, stays]

/-- A package beside the member, and before it in the order of names, that declares a tracked
package. -/
def DeclaredBefore (tree : FileTree) (filter : DependencyFilter) (root member : Place)
    (name : String) : Prop :=
  ∃ sibling last manifest, member.getLast? = some last ∧ sibling < last ∧
    IsSibling tree root member sibling ∧
    Manifest.IsAt manifest tree (member.dropLast ++ [sibling, manifestFile]) ∧
    DeclaresTracked filter manifest name

/-- A scan of a workspace agrees with an earlier one of the package that became its member. -/
structure Agrees (before : FileTree) (root member : Path) (filter : DependencyFilter)
    (earlier found : Scan) : Prop where
  isWorkspace : found.isWorkspace = true
  /-- The member is listed. -/
  listed : ∃ path ∈ found.manifests, path.same (member.joinText manifestFile) = true
  /-- What was installed still is. -/
  contains : ∀ name, earlier.installed.contains name = true → found.installed.contains name = true
  /-- It has the same version, unless the scan comes to another declaration of it first. -/
  version : ∀ name version, LeadsBelow name →
    ¬ DeclaredBefore before filter root.names member.names name →
    earlier.installed.get? name = some version → found.installed.get? name = some version

/-- The scan of a package takes its own declarations only. -/
theorem scan_of_single {tree : FileTree}
    (loaded : Manifest.load tree (root.joinText manifestFile) = .ok package)
    (single : package.workspacePatterns? = none) (filter : DependencyFilter) :
    ∃ found, scan tree root filter = .ok found ∧ ∀ name, found.installed.get? name =
      (firstFor (declarationsOf root filter (root.joinText manifestFile) package) name).map
        (Declaration.installedVersion tree root) := by
  have manifests : loadManifests tree root =
      .ok (false, [(root.joinText manifestFile, package)]) := by
    rw [loadManifests_eq_ok_iff]
    refine ⟨package, loaded, ?_⟩
    rw [single]
    exact ⟨rfl, rfl⟩
  obtain ⟨found, scanned, _, _, installed⟩ := scan_of_loadManifests manifests filter
  refine ⟨found, scanned, fun name => ?_⟩
  rw [installed, declarationsIn_cons]
  simp [declarationsIn]

/-- **A scan after the conversion agrees with one before.** -/
theorem Settled.agrees (settled : Settled before place above last package later)
    (wellFormed : before.WellFormed) (spells : root.Spells place)
    (spelled : ∃ text, root = Path.ofText text)
    (findable : Findable place (place ++ above ++ [last]))
    (isName : ∀ name ∈ above ++ [last], IsEntryName name) {member : Path}
    (spelledMember : member.Spells (place ++ above ++ [last])) {earlier found : Scan}
    (installed : ∀ name, earlier.installed.get? name =
      (firstFor (declarationsOf root filter (root.joinText manifestFile) package) name).map
        (Declaration.installedVersion before root))
    (scanned : scan later root filter = .ok found) :
    Agrees before root member filter earlier found := by
  obtain ⟨isWorkspace, dir, early, late, spelledDir, manifests, installed', siblings⟩ :=
    settled.loaded wellFormed spells spelled findable isName scanned
  have among : (dir.joinText manifestFile, package) ∈
      early ++ (dir.joinText manifestFile, package) :: late := by simp
  have moved := @firstFor_moved root filter (dir.joinText manifestFile)
    (root.joinText manifestFile) package
  refine
    { isWorkspace
      listed := ⟨dir.joinText manifestFile, ?_, ?_⟩
      contains := fun name contained => ?_
      version := fun name version below first given => ?_ }
  · rw [manifests]
    exact List.mem_cons_of_mem _ (List.mem_map_of_mem among)
  · exact (spelledDir.manifest.same_iff spelledMember.manifest).2 rfl
  · rw [Table.contains, installed, Option.isSome_map] at contained
    rw [Table.contains, installed', Option.isSome_map]
    refine isSome_firstFor among ?_
    rwa [moved, Option.isSome_map]
  · rw [installed] at given
    obtain ⟨declaration, declared, rfl⟩ := Option.map_eq_some_iff.1 given
    obtain ⟨given, named⟩ := of_firstFor declared
    have atRoot := manifest_of_mem given
    have silent : ∀ entry ∈ early, ¬ DeclaresTracked filter entry.2 name := by
      intro entry given declares
      obtain ⟨sibling, before', isSibling, isAt⟩ := siblings entry given
      refine first ⟨sibling, last, entry.2, ?_, before', ?_, ?_, declares⟩
      · rw [spelledMember.names, List.getLast?_concat]
      · rwa [spells.names, spelledMember.names]
      · rwa [spelledMember.names, List.dropLast_concat]
    have inMember := moved name
    rw [declared, Option.map_some] at inMember
    rw [installed', firstFor_of_first silent inMember, Option.map_some]
    rw [← named] at below
    exact congrArg some (settled.installedVersion_eq spells spelledDir atRoot rfl rfl rfl below)

end Versions

/-! ## Scanning after a conversion -/

section Scanning

variable {disk later : Disk} {root : Path} {memberDir token : String} {conversion : Conversion}

/-- **A conversion that succeeds settles the package**, if the pattern written for the member is
read as it is meant. -/
theorem settled_of_convert (wellFormed : disk.tree.WellFormed) (spells : root.Spells root.names)
    (fresh : FreshToken root memberDir token)
    (done : convert disk root memberDir token = (.ok conversion, later))
    (findable : Findable root.names conversion.member.names) :
    ∃ above last package, conversion.member.Spells (root.names ++ above ++ [last]) ∧
      (∀ name ∈ above ++ [last], IsEntryName name) ∧
      Manifest.load disk.tree (root.joinText manifestFile) = .ok package ∧
      package.workspacePatterns? = none ∧
      Settled disk.tree root.names above last package later.tree := by
  obtain ⟨_, plan, site, ready, rfl, converted⟩ := ready_of_convert wellFormed spells fresh done
  have place : plan.member.names = root.names ++ site.below .member := by
    rw [← ready.site_member, Site.place, ready.site_root]
  have spelled : plan.member.Spells (root.names ++ site.below .member) := by
    rw [← ready.site_root]
    exact ready.spells .member
  have tidy := findable.tidy
  have uninstalled := findable.uninstalled
  rw [place] at tidy uninstalled
  rw [List.drop_left] at tidy
  have stays : "node_modules" ∉ site.names := by
    intro moving
    have moves := ((ready.mem_names _).1 moving).2
    have kept : keptAtRoot.contains "node_modules" = true := by decide
    rw [Workspace.moves, kept] at moves
    simp at moves
  have rehomed := converted (ready.top_eq_manifest tidy)
  rw [place, ready.shown tidy] at rehomed
  obtain ⟨above, last, added⟩ : ∃ above last, site.below .member = above ++ [last] := by
    rcases List.eq_nil_or_concat (site.below .member) with empty | ⟨above, last, added⟩
    · cases empty
    · exact ⟨above, last, by rw [added, List.concat_eq_append]⟩
  have clear : ∀ top further, above = top :: further → top ∉ site.names := by
    rintro top further rfl
    rw [Site.below, List.cons_append] at added
    rw [← (List.cons.inj added).1]
    exact ready.clear tidy
  have isName : ∀ name ∈ site.below .member, IsEntryName name := fun _ => ready.entryNames
  rw [added] at isName
  rw [added, ← List.append_assoc] at rehomed spelled uninstalled
  exact ⟨above, last, plan.package, spelled, isName, ready.planned.loaded, ready.planned.single,
    rehomed.settled ((Manifest.load_iff spells).1 ready.planned.loaded) clear stays uninstalled⟩

/-- **After a conversion, a scan finds the workspace**, if the pattern written for the member is
read as it is meant: it fails only if a manifest beside the member cannot be read, and otherwise
lists the member and takes as installed what was installed before. -/
theorem scan_of_convert (wellFormed : disk.tree.WellFormed) (absolute : root.isAbsolute = true)
    (normalized : root.normalize.same root = true) (spelled : ∃ text, root = Path.ofText text)
    (fresh : FreshToken root memberDir token)
    (done : convert disk root memberDir token = (.ok conversion, later))
    (findable : Findable root.names conversion.member.names) (filter : DependencyFilter) :
    ∃ earlier, scan disk.tree root filter = .ok earlier ∧
      ((∃ found, scan later.tree root filter = .ok found) ↔
        ∀ name, IsSibling disk.tree root.names conversion.member.names name →
          ∃ manifest, Manifest.IsAt manifest disk.tree
            (conversion.member.names.dropLast ++ [name, manifestFile])) ∧
      ∀ found, scan later.tree root filter = .ok found →
        Agrees disk.tree root conversion.member filter earlier found := by
  have spells := Path.spells_names absolute normalized
  obtain ⟨above, last, package, spelledMember, isName, loaded, single, settled⟩ :=
    settled_of_convert wellFormed spells fresh done findable
  obtain ⟨earlier, scanned, installed⟩ := scan_of_single loaded single filter
  rw [spelledMember.names] at findable ⊢
  rw [List.dropLast_concat]
  exact ⟨earlier, scanned, settled.exists_scan_iff wellFormed spells spelled findable isName,
    fun found rescanned => settled.agrees wellFormed spells spelled findable isName spelledMember
      installed rescanned⟩

end Scanning

/-! ## A package beside the member -/

/-- A package that depends on `a`, and another one in a directory below it. -/
def packageBeside (sibling : String) : FileTree :=
  .directory [("w", .directory [
    ("package.json",
      .file (Text.encode "\x7b\"dependencies\": \x7b\"a\": \"1.0.0\"\x7d\x7d") false),
    ("packages", .directory [(sibling, .directory [("package.json",
      .file (Text.encode "\x7b\"dependencies\": \x7b\"a\": \"2.0.0\"\x7d\x7d") false)])])])]

/-- The conversion of the package into a member beside the other one. -/
def conversionBeside (sibling : String) : Except Failure Conversion × Disk :=
  convert ⟨packageBeside sibling, []⟩ ⟨["", "w"]⟩ "packages/app" "x"

/-- The manifest of a package below the other one's root. -/
def manifestBeside (name : String) : Path :=
  ⟨["", "w", "packages", name, "package.json"]⟩

/-- The version of `a` that a scan takes as installed. -/
def installedVersionIn (tree : FileTree) : Option String :=
  (scan tree ⟨["", "w"]⟩ ⟨[]⟩).toOption.bind fun found => found.installed.get? "a"

/-- **A conversion can change what is installed**: a package beside the member, with a lesser name,
is scanned before it. -/
theorem installed_version_changed :
    (conversionBeside "aaa").1.toOption.map Conversion.moved = some ["package.json"] ∧
      installedVersionIn (packageBeside "aaa") = some "1.0.0" ∧
      installedVersionIn (conversionBeside "aaa").2.tree = some "2.0.0" := by
  refine ⟨by decide +kernel, by decide +kernel, ?_⟩
  have root : (Manifest.load (conversionBeside "aaa").2.tree
      ((⟨["", "w"]⟩ : Path).joinText manifestFile)).toOption.map (fun manifest =>
        (manifest.workspacePatterns?, manifest.dependencies)) = some (some ["packages/*"], []) := by
    decide +kernel
  have sibling : (Manifest.load (conversionBeside "aaa").2.tree (manifestBeside "aaa")).toOption.map
      (fun manifest => (firstFor (declarationsOf ⟨["", "w"]⟩ ⟨[]⟩ (manifestBeside "aaa") manifest)
        "a").map (Declaration.installedVersion (conversionBeside "aaa").2.tree ⟨["", "w"]⟩)) =
      some (some "2.0.0") := by
    decide +kernel
  have package : (Manifest.load (conversionBeside "aaa").2.tree
      (manifestBeside "app")).toOption.isSome = true := by
    decide +kernel
  obtain ⟨rootManifest, loadRoot, known⟩ := Option.map_eq_some_iff.1 root
  obtain ⟨siblingManifest, loadSibling, known'⟩ := Option.map_eq_some_iff.1 sibling
  obtain ⟨packageManifest, loadPackage⟩ := Option.isSome_iff_exists.1 package
  obtain ⟨patterns, silent⟩ := Prod.mk.inj known
  obtain ⟨first, declared, version⟩ := Option.map_eq_some_iff.1 known'
  rw [Results.toOption_eq_some_iff] at loadRoot loadSibling loadPackage
  have finding : patternManifests (conversionBeside "aaa").2.tree ⟨["", "w"]⟩ "packages/*" =
      .ok [manifestBeside "aaa", manifestBeside "app"] := by
    rw [← Results.toOption_eq_some_iff]
    decide +kernel
  have members := memberManifests_of_ascending finding (by decide) (by decide)
  have entries : Results.Each (loadAt (conversionBeside "aaa").2.tree)
      [manifestBeside "aaa", manifestBeside "app"]
      [(manifestBeside "aaa", siblingManifest), (manifestBeside "app", packageManifest)] :=
    .cons (loadAt_eq_ok_iff.2 ⟨rfl, loadSibling⟩)
      (.cons (loadAt_eq_ok_iff.2 ⟨rfl, loadPackage⟩) .nil)
  have loaded : loadManifests (conversionBeside "aaa").2.tree ⟨["", "w"]⟩ =
      .ok (true, [((⟨["", "w"]⟩ : Path).joinText manifestFile, rootManifest)] ++
        (manifestBeside "aaa", siblingManifest) :: [(manifestBeside "app", packageManifest)]) := by
    rw [loadManifests_eq_ok_iff]
    refine ⟨rootManifest, loadRoot, ?_⟩
    rw [patterns]
    exact ⟨rfl, _, _, members, entries, rfl⟩
  obtain ⟨found, scanned, _, _, installed⟩ := scan_of_loadManifests loaded ⟨[]⟩
  have undeclared : ∀ entry ∈ [((⟨["", "w"]⟩ : Path).joinText manifestFile, rootManifest)],
      ¬ DeclaresTracked ⟨[]⟩ entry.2 "a" := by
    rintro entry among ⟨_, _, _, given, _⟩
    rw [List.mem_singleton.1 among, silent] at given
    cases given
  rw [installedVersionIn, scanned, ← version]
  refine (installed "a").trans ?_
  rw [firstFor_of_first undeclared declared, Option.map_some]

/-- There is no other package beside the member than the one that is meant. -/
theorem eq_of_isSibling_packageBeside {sibling name : String}
    (isSibling : IsSibling (packageBeside sibling) ["w"] ["w", "packages", "app"] name) :
    name = sibling := by
  by_contra different
  refine isSibling.there ?_
  simp [packageBeside, FileTree.entryAt?, FileTree.get?, FileTree.child?,
    FileTree.Entries.get?, Ne.symm different]

theorem scan_of_convert_beside :
    (packageBeside "lib").WellFormed ∧ FreshToken ⟨["", "w"]⟩ "packages/app" "x" ∧
    Findable ["w"] ["w", "packages", "app"] ∧
    installedVersionIn (packageBeside "lib") = some "1.0.0" ∧
    ∃ conversion found, (conversionBeside "lib").1 = .ok conversion ∧
      scan (conversionBeside "lib").2.tree ⟨["", "w"]⟩ ⟨[]⟩ = .ok found ∧
      found.isWorkspace = true ∧
      (∃ path ∈ found.manifests, path.same (manifestBeside "app") = true) ∧
      found.installed.get? "a" = some "1.0.0" := by
  have wellFormed : (packageBeside "lib").WellFormed := by decide +kernel
  have findable : Findable ["w"] ["w", "packages", "app"] := by
    refine ⟨⟨by decide, by decide⟩, by decide, fun top first => ?_, by decide⟩
    cases first
    decide
  have installed : installedVersionIn (packageBeside "lib") = some "1.0.0" := by decide +kernel
  have readable : ∀ name, IsSibling (packageBeside "lib") ["w"] ["w", "packages", "app"] name →
      ∃ manifest, Manifest.IsAt manifest (packageBeside "lib")
        (["w", "packages", "app"].dropLast ++ [name, manifestFile]) := by
    intro name sibling
    have loads : (Manifest.load (packageBeside "lib")
        ((⟨["", "w", "packages", "lib"]⟩ : Path).joinText manifestFile)).toOption.isSome =
          true := by
      decide +kernel
    obtain ⟨manifest, loaded⟩ := Option.isSome_iff_exists.1 loads
    have spells : (⟨["", "w", "packages", "lib"]⟩ : Path).Spells ["w", "packages", "lib"] := by
      decide
    rw [Results.toOption_eq_some_iff, Manifest.load_iff spells] at loaded
    rw [eq_of_isSibling_packageBeside sibling]
    exact ⟨manifest, loaded⟩
  have member : (conversionBeside "lib").1.toOption.map Conversion.member =
      some ⟨["", "w", "packages", "app"]⟩ := by
    decide +kernel
  refine ⟨wellFormed, freshToken_packages, findable, installed, ?_⟩
  cases done : conversionBeside "lib" with
  | mk result later =>
      rw [done] at member
      cases result with
      | error failure => cases member
      | ok conversion =>
          have member : conversion.member = ⟨["", "w", "packages", "app"]⟩ := Option.some.inj member
          have names : conversion.member.names = ["w", "packages", "app"] := by
            rw [member]
            decide
          obtain ⟨earlier, scanned, succeeds, agrees⟩ := scan_of_convert wellFormed rfl (by decide)
            ⟨"/w", by decide +kernel⟩ freshToken_packages done (by rwa [names]) ⟨[]⟩
          rw [names] at succeeds
          obtain ⟨found, rescanned⟩ := succeeds.2 readable
          have result := agrees found rescanned
          refine ⟨conversion, found, rfl, rescanned, result.isWorkspace, ?_, ?_⟩
          · rw [← show conversion.member.joinText manifestFile = manifestBeside "app" by
              rw [member]; decide]
            exact result.listed
          · rw [installedVersionIn, scanned] at installed
            refine result.version "a" "1.0.0" (by decide +kernel) ?_ installed
            rintro ⟨sibling, last, manifest, ends, before, isSibling, _⟩
            rw [names] at ends isSibling
            cases ends
            rw [eq_of_isSibling_packageBeside isSibling] at before
            revert before
            decide

end Uplift.Workspace
