import Uplift.Proofs.FileTree.Globbing
import Uplift.Proofs.Manifest
import Uplift.Proofs.Path.Order
import Uplift.Proofs.Workspace.Upgrade

/-!
# The manifests of a workspace

A scan lists the manifest of the root first, and after it the manifests of the members in ascending
order, none of them with the same components as another or as the root's.  Paths that spell places
denote different files if their components differ, so that each file is listed once, unless a
pattern climbs to the directory above and finds a file by another path (`manifests_of_scan`).
-/

set_option autoImplicit false

namespace Uplift.Workspace

open FileTree (Place)

/-! ## Dropping repeats -/

theorem dropRepeats_sublist (paths : List Path) : (dropRepeats paths).Sublist paths := by
  induction paths using dropRepeats.induct with
  | case1 a b rest same ih =>
      rw [dropRepeats, if_pos same]
      exact ih.trans ((List.sublist_cons_self b rest).cons_cons a)
  | case2 a b rest different ih =>
      rw [dropRepeats, if_neg different]
      exact ih.cons_cons a
  | case3 paths short =>
      rw [dropRepeats]
      · exact short

/-- What is dropped has the same components as something that is kept. -/
theorem exists_same_of_mem {paths : List Path} {path : Path} (member : path ∈ paths) :
    ∃ kept ∈ dropRepeats paths, kept.same path = true := by
  induction paths using dropRepeats.induct generalizing path with
  | case1 a b rest same ih =>
      rw [dropRepeats, if_pos same]
      rcases List.mem_cons.1 member with rfl | later
      · exact ih List.mem_cons_self
      · rcases List.mem_cons.1 later with rfl | later
        · obtain ⟨kept, among, equal⟩ := ih List.mem_cons_self
          have equal := (Path.same_iff.1 equal).trans (Path.same_iff.1 same)
          exact ⟨kept, among, Path.same_iff.2 equal⟩
        · exact ih (List.mem_cons_of_mem _ later)
  | case2 a b rest different ih =>
      rw [dropRepeats, if_neg different]
      rcases List.mem_cons.1 member with rfl | later
      · exact ⟨path, List.mem_cons_self, Path.same_iff.2 rfl⟩
      · obtain ⟨kept, among, equal⟩ := ih later
        exact ⟨kept, List.mem_cons_of_mem _ among, equal⟩
  | case3 paths short =>
      rw [dropRepeats]
      · exact ⟨path, member, Path.same_iff.2 rfl⟩
      · exact short

/-- **Without repeats, paths in order are strictly ascending.** -/
theorem pairwise_dropRepeats {paths : List Path}
    (sorted : paths.Pairwise fun first second => first.upTo second = true) :
    (dropRepeats paths).Pairwise fun first second => Path.compare first second = .lt := by
  induction paths using dropRepeats.induct with
  | case1 a b rest same ih =>
      rw [dropRepeats, if_pos same]
      exact ih (sorted.sublist ((List.sublist_cons_self b rest).cons_cons a))
  | case2 a b rest different ih =>
      rw [dropRepeats, if_neg different]
      obtain ⟨first, others⟩ := List.pairwise_cons.1 sorted
      refine List.pairwise_cons.2 ⟨fun later member => ?_, ih others⟩
      have before := Path.compare_of_upTo (first b List.mem_cons_self)
        (Bool.eq_false_iff.2 different)
      rcases List.mem_cons.1 ((dropRepeats_sublist _).subset member) with rfl | further
      · exact before
      · exact Path.lt_of_lt_of_upTo before ((List.pairwise_cons.1 others).1 later further)
  | case3 paths short =>
      rw [dropRepeats]
      · match paths, short with
        | [], _ => exact .nil
        | [_], _ => exact List.pairwise_singleton _ _
        | a :: b :: rest, short => exact absurd rfl (short a b rest)
      · exact short

/-- Strictly ascending paths have no repeats. -/
theorem dropRepeats_of_ascending {paths : List Path}
    (ascending : paths.Pairwise fun first second => Path.compare first second = .lt) :
    dropRepeats paths = paths := by
  induction paths using dropRepeats.induct with
  | case1 a b rest same ih =>
      have before := (List.pairwise_cons.1 ascending).1 b List.mem_cons_self
      rw [Path.compare_eq_iff_same.2 same] at before
      cases before
  | case2 a b rest different ih =>
      rw [dropRepeats, if_neg different, ih (List.pairwise_cons.1 ascending).2]
  | case3 paths short =>
      rw [dropRepeats]
      exact short

/-! ## Members -/

/-- The pattern of manifests that a pattern of members stands for. -/
def patternPath (root : Path) (pattern : String) : Path :=
  (root.joinText (trimSlashes pattern)).joinText manifestFile

/-- No piece of such a pattern has a slash. -/
theorem not_mem_patternPath {root : Path} (spelled : ∃ text, root = Path.ofText text)
    {pattern piece : String} (given : piece ∈ (patternPath root pattern).pieces) :
    '/' ∉ piece.toList := by
  obtain ⟨text, rfl⟩ := spelled
  rcases Path.mem_pieces_joinText given with before | last
  · rcases Path.mem_pieces_joinText before with before | last
    · exact Path.not_mem_of_mem_ofText before
    · exact Path.not_mem_of_mem_ofText last
  · exact Path.not_mem_of_mem_ofText last

section Members

variable {tree : FileTree} {root : Path} {patterns : List String} {members : List Path}

/-- What a pattern finds is what its expansion finds. -/
theorem expand_of_patternManifests {pattern : String} {paths : List Path}
    (found : patternManifests tree root pattern = .ok paths) {path : Path}
    (member : path ∈ paths) :
    Text.startsWith pattern "!" = false ∧
      ∃ expanded, Glob.expand tree (patternPath root pattern) = .ok expanded ∧ path ∈ expanded := by
  rw [patternManifests] at found
  split at found
  · cases found
    cases member
  next positive =>
    split at found
    · cases found
    next expanded equal =>
      cases found
      exact ⟨by simpa using positive, expanded, equal, (List.mem_filter.1 member).1⟩

/-- The members are in strictly ascending order. -/
theorem pairwise_memberManifests (found : memberManifests tree root patterns = .ok members) :
    members.Pairwise fun first second => Path.compare first second = .lt := by
  obtain ⟨lists, _, equal⟩ := Results.bind_eq_ok_iff.1 found
  cases equal
  exact (pairwise_dropRepeats (Path.pairwise_mergeSort _)).filter _

/-- Each member is found by a pattern, and is not the manifest of the root. -/
theorem found_of_mem_memberManifests (found : memberManifests tree root patterns = .ok members)
    {member : Path} (listed : member ∈ members) :
    member.same (root.joinText manifestFile) = false ∧
      ∃ pattern ∈ patterns, ∃ paths, patternManifests tree root pattern = .ok paths ∧
        member ∈ paths := by
  obtain ⟨lists, finding, equal⟩ := Results.bind_eq_ok_iff.1 found
  cases equal
  obtain ⟨kept, different⟩ := List.mem_filter.1 listed
  have sorted := (dropRepeats_sublist _).subset kept
  rw [List.mem_mergeSort] at sorted
  obtain ⟨paths, among, here⟩ := List.mem_flatten.1 sorted
  obtain ⟨pattern, given, equal⟩ := (Results.mapM_eq_ok_iff.1 finding).of_mem among
  exact ⟨by simpa using different, pattern, given, paths, equal, here⟩

/-- With one pattern, the members are what it finds, if that is spelled in one way and is not the
manifest of the root. -/
theorem mem_memberManifests_of_single {pattern : String} {paths : List Path}
    (finding : patternManifests tree root pattern = .ok paths)
    (apart : ∀ path ∈ paths, ∀ other ∈ paths, path.same other = true → path = other)
    (notRoot : ∀ path ∈ paths, path.same (root.joinText manifestFile) = false) :
    ∃ members, memberManifests tree root [pattern] = .ok members ∧
      ∀ path, path ∈ members ↔ path ∈ paths := by
  refine ⟨_, Results.bind_eq_ok_iff.2 ⟨[paths], ?_, rfl⟩, fun path => ?_⟩
  · rw [Results.mapM_eq_ok_iff]
    exact .cons finding .nil
  · rw [List.flatten_singleton, List.mem_filter]
    constructor
    · rintro ⟨kept, _⟩
      have sorted := (dropRepeats_sublist _).subset kept
      rwa [List.mem_mergeSort] at sorted
    · intro member
      refine ⟨?_, by simp [notRoot path member]⟩
      obtain ⟨kept, among, same⟩ := exists_same_of_mem (List.mem_mergeSort.2 member)
      have listed := (dropRepeats_sublist _).subset among
      rw [List.mem_mergeSort] at listed
      rwa [← apart kept listed path member same]

/-- What a pattern finds in ascending order is listed as it is. -/
theorem memberManifests_of_ascending {pattern : String} {paths : List Path}
    (finding : patternManifests tree root pattern = .ok paths)
    (ascending : paths.Pairwise fun first second => Path.compare first second = .lt)
    (notRoot : ∀ path ∈ paths, path.same (root.joinText manifestFile) = false) :
    memberManifests tree root [pattern] = .ok paths := by
  have sorted : paths.mergeSort Path.upTo = paths := by
    refine List.mergeSort_of_pairwise (ascending.imp fun before => ?_)
    rw [Path.upTo_iff, before]
    rfl
  refine Results.bind_eq_ok_iff.2 ⟨[paths], Results.mapM_eq_ok_iff.2 (.cons finding .nil), ?_⟩
  rw [List.flatten_singleton, sorted, dropRepeats_of_ascending ascending]
  refine congrArg Except.ok (List.filter_eq_self.2 fun path member => ?_)
  rw [notRoot path member]
  rfl

end Members

/-! ## Paths that spell places -/

/-- No pattern of the workspace climbs to the directory above. -/
def NoPatternClimbs (tree : FileTree) (root : Path) : Prop :=
  ∀ manifest patterns, Manifest.load tree (root.joinText manifestFile) = .ok manifest →
    manifest.workspacePatterns? = some patterns → ∀ pattern ∈ patterns,
      Text.startsWith pattern "!" = false →
        ∀ piece ∈ (patternPath root pattern).pieces, ¬ Glob.Climbs piece

/-- A path that a pattern finds spells a place, if no piece of the pattern climbs. -/
theorem spells_of_patternManifests {tree : FileTree} (wellFormed : tree.WellFormed) {root : Path}
    (absolute : root.isAbsolute = true) (spelled : ∃ text, root = Path.ofText text)
    {pattern : String} {paths : List Path} (found : patternManifests tree root pattern = .ok paths)
    (level : Text.startsWith pattern "!" = false →
      ∀ piece ∈ (patternPath root pattern).pieces, ¬ Glob.Climbs piece)
    {path : Path} (member : path ∈ paths) : ∃ place, path.Spells place := by
  obtain ⟨positive, expanded, expansion, among⟩ := expand_of_patternManifests found member
  exact Glob.expand_spells wellFormed
    (Path.isAbsolute_joinText (Path.isAbsolute_joinText absolute _) _)
    (fun piece given => ⟨not_mem_patternPath spelled given, level positive piece given⟩)
    expansion among

/-! ## Scans -/

/-- A manifest with its path. -/
def loadAt (tree : FileTree) (path : Path) : Except Failure (Path × Manifest) := do
  .ok (path, ← Manifest.load tree path)

theorem loadAt_eq_ok_iff {tree : FileTree} {path : Path} {entry : Path × Manifest} :
    loadAt tree path = .ok entry ↔ entry.1 = path ∧ Manifest.load tree path = .ok entry.2 := by
  rw [loadAt, Results.bind_eq_ok_iff]
  constructor
  · rintro ⟨manifest, loaded, equal⟩
    cases equal
    exact ⟨rfl, loaded⟩
  · rintro ⟨rfl, loaded⟩
    exact ⟨entry.2, loaded, rfl⟩

theorem map_fst_of_loadAt {tree : FileTree} {paths : List Path}
    {entries : List (Path × Manifest)} (loaded : Results.Each (loadAt tree) paths entries) :
    entries.map Prod.fst = paths := by
  induction loaded with
  | nil => rfl
  | cons computed _ ih => rw [List.map_cons, ih, (loadAt_eq_ok_iff.1 computed).1]

/-- The manifests of a workspace, and what it takes to load them. -/
theorem loadManifests_eq_ok_iff {tree : FileTree} {root : Path} {isWorkspace : Bool}
    {manifests : List (Path × Manifest)} :
    loadManifests tree root = .ok (isWorkspace, manifests) ↔
      ∃ rootManifest, Manifest.load tree (root.joinText manifestFile) = .ok rootManifest ∧
        match rootManifest.workspacePatterns? with
        | none => isWorkspace = false ∧ manifests = [(root.joinText manifestFile, rootManifest)]
        | some patterns => isWorkspace = true ∧ ∃ members entries,
            memberManifests tree root patterns = .ok members ∧
            Results.Each (loadAt tree) members entries ∧
            manifests = (root.joinText manifestFile, rootManifest) :: entries := by
  rw [loadManifests]
  simp only [Results.bind_eq_ok_iff]
  refine exists_congr fun rootManifest => and_congr_right fun _ => ?_
  cases rootManifest.workspacePatterns? with
  | none => simp [eq_comm]
  | some patterns =>
      constructor
      · intro loaded
        obtain ⟨members, finding, rest⟩ := Results.bind_eq_ok_iff.1 loaded
        obtain ⟨entries, loading, equal⟩ := Results.bind_eq_ok_iff.1 rest
        cases equal
        exact ⟨rfl, members, entries, finding, Results.mapM_eq_ok_iff.1 loading, rfl⟩
      · rintro ⟨rfl, members, entries, finding, loading, rfl⟩
        exact Results.bind_eq_ok_iff.2 ⟨members, finding, Results.bind_eq_ok_iff.2
          ⟨entries, Results.mapM_eq_ok_iff.2 loading, rfl⟩⟩

section Scans

variable {tree : FileTree} {root : Path} {filter : DependencyFilter} {found : Scan}

/-- The manifests of a scan are the root's and those of the members, if there are patterns. -/
theorem manifests_eq_of_scan (scanned : scan tree root filter = .ok found) :
    ∃ members, found.manifests = root.joinText manifestFile :: members ∧
      (members = [] ∨ ∃ manifest patterns,
        Manifest.load tree (root.joinText manifestFile) = .ok manifest ∧
        manifest.workspacePatterns? = some patterns ∧
        memberManifests tree root patterns = .ok members) := by
  obtain ⟨⟨isWorkspace, manifests⟩, loaded, equal⟩ := Results.bind_eq_ok_iff.1 scanned
  cases equal
  obtain ⟨rootManifest, here, rest⟩ := loadManifests_eq_ok_iff.1 loaded
  split at rest
  next =>
    obtain ⟨_, rfl⟩ := rest
    exact ⟨[], rfl, .inl rfl⟩
  next patterns given =>
    obtain ⟨_, members, entries, finding, loading, rfl⟩ := rest
    refine ⟨members, ?_, .inr ⟨rootManifest, patterns, here, given, finding⟩⟩
    rw [scanOf, List.map_cons, map_fst_of_loadAt loading]

/-- The manifests that are loaded differ in their components. -/
theorem apart_of_loadManifests {isWorkspace : Bool} {manifests : List (Path × Manifest)}
    (loaded : loadManifests tree root = .ok (isWorkspace, manifests)) :
    (manifests.map Prod.fst).Pairwise fun first second => first.same second = false := by
  obtain ⟨rootManifest, _, rest⟩ := loadManifests_eq_ok_iff.1 loaded
  split at rest
  next =>
    obtain ⟨_, rfl⟩ := rest
    exact List.pairwise_singleton _ _
  next patterns given =>
    obtain ⟨_, members, entries, finding, loading, rfl⟩ := rest
    rw [List.map_cons, map_fst_of_loadAt loading]
    refine List.pairwise_cons.2 ⟨fun member listed => ?_, ?_⟩
    · rw [Path.same_comm]
      exact (found_of_mem_memberManifests finding listed).1
    · refine (pairwise_memberManifests finding).imp fun {first second} before => ?_
      rw [Bool.eq_false_iff]
      intro same
      rw [Path.compare_eq_iff_same.2 same] at before
      cases before

/-- Paths that spell places denote different files if their components differ. -/
theorem distinct_of_spells {first second : Path} {place other : Place}
    (spells : first.Spells place) (spelled : second.Spells other)
    (different : first.same second = false) :
    first.normalize.same second.normalize = false ∧
      ∀ reached, tree.locate first = .ok reached → tree.locate second ≠ .ok reached := by
  refine ⟨?_, fun reached located located' => ?_⟩
  · rw [← different, Path.same, Path.same, spells.components_normalize,
      spelled.components_normalize, spells, spelled]
  · have same : place = other := (FileTree.locate_of_spells spells located).symm.trans
      (FileTree.locate_of_spells spelled located')
    rw [(spells.same_iff spelled).2 same] at different
    cases different

/-- **Each manifest is listed once**, the root's first and the members in ascending order; and they
are different files, unless a pattern climbs. -/
theorem manifests_of_scan (scanned : scan tree root filter = .ok found) :
    (∃ members, found.manifests = root.joinText manifestFile :: members ∧
      (members.Pairwise fun first second => Path.compare first second = .lt) ∧
      ∀ member ∈ members, member.same (root.joinText manifestFile) = false) ∧
    (tree.WellFormed → root.isAbsolute = true → root.normalize.same root = true →
      (∃ text, root = Path.ofText text) → NoPatternClimbs tree root →
        (found.manifests.Pairwise fun first second =>
          first.normalize.same second.normalize = false) ∧
        DistinctManifests tree found) := by
  obtain ⟨members, manifests, members_cases⟩ := manifests_eq_of_scan scanned
  have ascending : members.Pairwise fun first second => Path.compare first second = .lt := by
    rcases members_cases with rfl | ⟨_, _, _, _, finding⟩
    · exact .nil
    · exact pairwise_memberManifests finding
  have notRoot : ∀ member ∈ members, member.same (root.joinText manifestFile) = false := by
    intro member listed
    rcases members_cases with rfl | ⟨_, _, _, _, finding⟩
    · cases listed
    · exact (found_of_mem_memberManifests finding listed).1
  refine ⟨⟨members, manifests, ascending, notRoot⟩,
    fun wellFormed absolute normalized spelled level => ?_⟩
  have rootSpells := (Path.spells_names absolute normalized).manifest
  have memberSpells : ∀ member ∈ members, ∃ place, member.Spells place := by
    intro member listed
    rcases members_cases with rfl | ⟨manifest, patterns, loaded, given, finding⟩
    · cases listed
    · obtain ⟨_, pattern, among, paths, found, here⟩ :=
        found_of_mem_memberManifests finding listed
      exact spells_of_patternManifests wellFormed absolute spelled found
        (level manifest patterns loaded given pattern among) here
  have distinct : (root.joinText manifestFile :: members).Pairwise fun first second =>
      first.normalize.same second.normalize = false ∧
        ∀ reached, tree.locate first = .ok reached → tree.locate second ≠ .ok reached := by
    refine List.pairwise_cons.2 ⟨fun member listed => ?_, ?_⟩
    · obtain ⟨place, spells⟩ := memberSpells member listed
      refine distinct_of_spells rootSpells spells ?_
      rw [Path.same_comm]
      exact notRoot member listed
    · refine ascending.imp_of_mem fun {first second} member member' before => ?_
      obtain ⟨place, spells⟩ := memberSpells first member
      obtain ⟨other, spells'⟩ := memberSpells second member'
      refine distinct_of_spells spells spells' ?_
      rw [Bool.eq_false_iff]
      intro same
      rw [Path.compare_eq_iff_same.2 same] at before
      cases before
  rw [DistinctManifests, manifests]
  exact ⟨distinct.imp And.left, distinct.imp And.right⟩

end Scans

/-! ## A workspace with one pattern -/

/-- A workspace with one pattern and one package beside the root. -/
def workspaceOf (pattern : String) : FileTree :=
  .directory [("w", .directory [
    ("package.json", .file (Text.encode ("\x7b\"workspaces\": [\"" ++ pattern ++ "\"]\x7d")) false),
    ("packages", .directory [
      ("a", .directory [("package.json", .file (Text.encode "\x7b\x7d") false)])])])]

/-- The manifests that a scan of the workspace lists. -/
def manifestsOf (pattern : String) : Option (List Path) :=
  (scan (workspaceOf pattern) ⟨["", "w"]⟩ ⟨[]⟩).toOption.map Scan.manifests

theorem manifests_of_scan_packages :
    manifestsOf "packages/*" =
      some [⟨["", "w", "package.json"]⟩, ⟨["", "w", "packages", "a", "package.json"]⟩] ∧
    ∃ found, scan (workspaceOf "packages/*") ⟨["", "w"]⟩ ⟨[]⟩ = .ok found ∧
      (found.manifests.Pairwise fun first second =>
        first.normalize.same second.normalize = false) ∧
      DistinctManifests (workspaceOf "packages/*") found := by
  have listed : manifestsOf "packages/*" =
      some [⟨["", "w", "package.json"]⟩, ⟨["", "w", "packages", "a", "package.json"]⟩] := by
    decide +kernel
  have wellFormed : (workspaceOf "packages/*").WellFormed := by decide +kernel
  have level : NoPatternClimbs (workspaceOf "packages/*") ⟨["", "w"]⟩ := by
    have patterns : (Manifest.load (workspaceOf "packages/*")
        ((⟨["", "w"]⟩ : Path).joinText manifestFile)).toOption.bind
          Manifest.workspacePatterns? = some ["packages/*"] := by decide +kernel
    have steady : ∀ piece ∈ (patternPath ⟨["", "w"]⟩ "packages/*").pieces,
        ¬ Glob.Climbs piece := by decide +kernel
    intro manifest given loaded some pattern member _
    rw [loaded] at patterns
    cases some.symm.trans patterns
    rw [List.mem_singleton.1 member]
    exact steady
  refine ⟨listed, ?_⟩
  cases scanned : scan (workspaceOf "packages/*") ⟨["", "w"]⟩ ⟨[]⟩ with
  | error failure =>
      rw [manifestsOf, scanned] at listed
      cases listed
  | ok found =>
      exact ⟨found, rfl, (manifests_of_scan scanned).2 wellFormed rfl (by decide)
        ⟨"/w", by decide +kernel⟩ level⟩

/-- **A file can be listed twice**: with a pattern that climbs, the manifest of the root comes again
as a member. -/
theorem manifest_listed_twice :
    manifestsOf "packages/.." = some [⟨["", "w", "package.json"]⟩,
      ⟨["", "w", "packages", "..", "package.json"]⟩] ∧
    (⟨["", "w", "package.json"]⟩ : Path).normalize.same
      (⟨["", "w", "packages", "..", "package.json"]⟩ : Path).normalize = true := by
  decide +kernel

end Uplift.Workspace
