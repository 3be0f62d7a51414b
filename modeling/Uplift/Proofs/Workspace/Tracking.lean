import Uplift.Proofs.Plan.Approval
import Uplift.Proofs.Workspace.Bookkeeping
import Uplift.Proofs.Workspace.Repeating

/-!
# What is tracked after an upgrade

An upgrade writes manifests that are there and puts versions into their ranges, so that a scan
afterwards finds the same manifests (`loadManifests_of_upgrade`).  A package stays tracked in the
manifests that declared it if the version approved for it is spelled strictly; a version with a `v`
or with blanks around it is accepted by a plan, but no range with it is understood, so its package
is not tracked any more (`tracked_of_upgrade`).
-/

set_option autoImplicit false

namespace Uplift.Workspace

open FileTree (Place)

/-! ## Members after staged files were swept away -/

/-- The members of a workspace are the same when staged files are swept away. -/
theorem memberManifests_swept {tree later : FileTree} {staged : List Place}
    (swept : FileTree.Swept staged tree later) (wellFormed : tree.WellFormed)
    (apart : ∀ dir name, dir ++ [name] ∈ staged → name ≠ manifestFile) {root : Path}
    (spelled : ∃ text, root = Path.ofText text) (patterns : List String) :
    memberManifests later root patterns = memberManifests tree root patterns := by
  have same : ∀ pattern, patternManifests later root pattern =
      patternManifests tree root pattern := by
    intro pattern
    have expansion := Glob.expand_swept swept wellFormed isEntryName_manifestFile
      isPlain_manifestFile apart (getLast?_patternPath root pattern)
      fun _ => not_mem_patternPath spelled
    rw [patternManifests, patternManifests, ← patternPath, expansion]
  rw [memberManifests, memberManifests, funext same]

/-! ## Manifests after an upgrade -/

/-- A manifest that declares what another declares, with approved versions. -/
structure IsBumped (approved : Table String) (before after : Manifest) : Prop where
  dependencies : after.dependencies = before.dependencies.map fun (part, name, raw) =>
    (part, name, bumpedText (approved.get? name) raw)
  patterns : after.workspacePatterns? = before.workspacePatterns?

section Bumped

variable {approved : Table String} {manifest : Manifest}

theorem isBumped_reread (approved : Table String) (manifest : Manifest) :
    IsBumped approved manifest (bumpedManifest approved manifest).reread where
  dependencies := by rw [Manifest.dependencies_reread, dependencies_bumpedManifest]
  patterns := by rw [Manifest.workspacePatterns?_reread, workspacePatterns?_bumpedManifest]

/-- A manifest without changes is as it should be. -/
theorem isBumped_of_no_changes {display content relative : String}
    (parsed : Manifest.parse display content = .ok manifest)
    (unchanged : (bumpRanges relative approved manifest).2 = []) :
    IsBumped approved manifest manifest where
  dependencies := by
    have distinct := Manifest.hasDistinctKeys (Manifest.of_parse parsed).1
    conv => lhs; rw [← bumpedManifest_of_no_changes distinct unchanged]
    exact dependencies_bumpedManifest approved manifest
  patterns := rfl

/-- A manifest that declares no approved package is as it should be. -/
theorem isBumped_of_unaffected
    (silent : ∀ part name raw, (part, name, raw) ∈ manifest.dependencies →
      bumpedText (approved.get? name) raw = raw) : IsBumped approved manifest manifest where
  dependencies := by
    conv => lhs; rw [← List.map_id manifest.dependencies]
    refine List.map_congr_left fun (part, name, raw) member => ?_
    simp only [silent part name raw member, id]
  patterns := rfl

end Bumped

section Written

variable {tree later : FileTree} {root : Path} {found : Scan} {approved : Table String}

/-- **After the edits were written, the manifests of the scan have approved versions**, if those
that are not affected declare no approved package. -/
theorem AreEdits.load_written {edits : List ManifestEdit}
    (areEdits : AreEdits tree found approved edits) (wellFormed : tree.WellFormed)
    (named : ∀ path ∈ found.manifests, path.fileName? = some manifestFile)
    (done : tree.writeAll (edits.map ManifestEdit.write) = (.ok (), later)) {path : Path}
    (listed : path ∈ found.manifests) {manifest : Manifest}
    (loaded : Manifest.load tree path = .ok manifest)
    (unaffected : ¬ IsAffected found approved path → IsBumped approved manifest manifest) :
    ∃ after, Manifest.load later path = .ok after ∧ IsBumped approved manifest after := by
  rw [Manifest.load] at loaded
  split at loaded
  next => cases loaded
  next text read =>
    obtain ⟨place, content, executable, located, file, decoded⟩ := file_of_readText read
    have parsed := Manifest.parse_eq_ok_congr loaded (found.relative path)
    have holds : HoldsManifest tree found path place executable manifest :=
      ⟨located, content, text, file, decoded, parsed⟩
    have unstaged : ∀ edit ∈ edits, tree.locateNew edit.write.stagedPath ≠ .ok place := by
      intro edit edited
      obtain ⟨affected, editing⟩ := areEdits.editOf edited
      exact locateNew_stagedPath_ne (named path listed) holds (named edit.path affected.1) editing
    obtain ⟨relative, readLater⟩ | ⟨⟨again, readLater, parsedLater⟩, unedited⟩ :=
      areEdits.read_written wellFormed (stagedApart_of_named named) done holds unstaged
    · refine ⟨_, ?_, isBumped_reread approved manifest⟩
      rw [Manifest.load, readLater]
      exact parse_render_bumped loaded relative path.text
    · refine ⟨manifest, ?_, ?_⟩
      · rw [Manifest.load, readLater]
        exact Manifest.parse_eq_ok_congr parsedLater path.text
      · by_cases affected : IsAffected found approved path
        · obtain ⟨edit?, editing⟩ := areEdits.done path affected
          obtain ⟨_, _, _, holds', ⟨unchanged, _⟩ | ⟨edit, rfl, isEdit⟩⟩ :=
            manifest_of_editOf editing
          · rw [← holds.unique holds'] at unchanged
            exact isBumped_of_no_changes loaded unchanged
          · have edited := (areEdits.mem_iff edit).2 ⟨path, affected, editing⟩
            exact absurd isEdit.samePath (unedited edit edited)
        · exact unaffected affected

/-- Written edits sweep away staged files of other names than those of manifests. -/
theorem AreEdits.swept {edits : List ManifestEdit} (areEdits : AreEdits tree found approved edits)
    (wellFormed : tree.WellFormed)
    (named : ∀ path ∈ found.manifests, path.fileName? = some manifestFile)
    (done : tree.writeAll (edits.map ManifestEdit.write) = (.ok (), later)) :
    ∃ staged, FileTree.Swept staged tree later ∧
      ∀ dir name, dir ++ [name] ∈ staged → name ≠ manifestFile := by
  have separate :=
    areEdits.separate_of_writeAll wellFormed (stagedApart_of_named named) done
  refine ⟨_, FileTree.swept_of_writeAll_ok separate (areEdits.files wellFormed) done, ?_⟩
  intro dir name member same
  obtain ⟨write, among, sibling⟩ := List.mem_map.1 member
  have goes := areEdits.goesTo wellFormed write among
  obtain ⟨edit, edited, rfl⟩ := List.mem_map.1 among
  have isManifest := goes.lands.fileName?.symm.trans
    (named edit.path (areEdits.editOf edited).1.1)
  obtain ⟨_, names⟩ := List.append_inj' sibling rfl
  rw [Option.some.inj isManifest, same] at names
  exact absurd names (by decide)

/-- Manifests with their paths, the later ones with approved versions. -/
def AreBumped (approved : Table String) (before after : List (Path × Manifest)) : Prop :=
  List.Forall₂ (fun first second => second.1 = first.1 ∧ IsBumped approved first.2 second.2)
    before after

theorem AreBumped.paths {before after : List (Path × Manifest)}
    (bumped : AreBumped approved before after) :
    after.map Prod.fst = before.map Prod.fst := by
  induction bumped with
  | nil => rfl
  | cons same _ ih => rw [List.map_cons, List.map_cons, ih, same.1]

theorem exists_bumped_of_each {paths : List Path} {entries : List (Path × Manifest)}
    (each : Results.Each (loadAt tree) paths entries)
    (again : ∀ entry ∈ entries, ∃ after, Manifest.load later entry.1 = .ok after ∧
      IsBumped approved entry.2 after) :
    ∃ afters, Results.Each (loadAt later) paths afters ∧ AreBumped approved entries afters := by
  induction each with
  | nil => exact ⟨[], .nil, .nil⟩
  | cons computed _ ih =>
      obtain ⟨here, others⟩ := List.forall_mem_cons.1 again
      obtain ⟨after, loaded, bumped⟩ := here
      obtain ⟨afters, each, rest⟩ := ih others
      have path := (loadAt_eq_ok_iff.1 computed).1
      exact ⟨(_, after) :: afters, .cons (loadAt_eq_ok_iff.2 ⟨path, path ▸ loaded⟩) each,
        .cons ⟨rfl, bumped⟩ rest⟩

/-- **The manifests of a workspace are loaded again**, with approved versions. -/
theorem loadManifests_bumped {isWorkspace : Bool} {manifests : List (Path × Manifest)}
    (loaded : loadManifests tree root = .ok (isWorkspace, manifests))
    (members : ∀ patterns, memberManifests later root patterns =
      memberManifests tree root patterns)
    (again : ∀ entry ∈ manifests, ∃ after, Manifest.load later entry.1 = .ok after ∧
      IsBumped approved entry.2 after) :
    ∃ afters, loadManifests later root = .ok (isWorkspace, afters) ∧
      AreBumped approved manifests afters := by
  obtain ⟨rootManifest, _, rest⟩ := loadManifests_eq_ok_iff.1 loaded
  cases given : rootManifest.workspacePatterns? with
  | none =>
      rw [given] at rest
      obtain ⟨rfl, rfl⟩ := rest
      obtain ⟨after, loadedLater, bumped⟩ := again _ List.mem_cons_self
      refine ⟨[(_, after)], loadManifests_eq_ok_iff.2 ⟨after, loadedLater, ?_⟩,
        .cons ⟨rfl, bumped⟩ .nil⟩
      rw [bumped.patterns, given]
      exact ⟨rfl, rfl⟩
  | some patterns =>
      rw [given] at rest
      obtain ⟨rfl, paths, entries, finding, each, rfl⟩ := rest
      obtain ⟨⟨after, loadedLater, bumped⟩, others⟩ := List.forall_mem_cons.1 again
      obtain ⟨afters, eachLater, bumpedLater⟩ := exists_bumped_of_each each others
      refine ⟨(_, after) :: afters, loadManifests_eq_ok_iff.2 ⟨after, loadedLater, ?_⟩,
        .cons ⟨rfl, bumped⟩ bumpedLater⟩
      rw [bumped.patterns, given]
      exact ⟨rfl, paths, afters, (members patterns).trans finding, eachLater, rfl⟩

end Written

/-! ## What is tracked -/

section Tracked

variable {root : Path} {filter : DependencyFilter} {approved : Table String}

/-- Whether ranges of a package stay understood: its approved version, if any, is strict. -/
def staysTracked (approved : Table String) (name : String) : Bool :=
  match approved.get? name with
  | some target => (Version.parse? target).isSome
  | none => true

/-- With an approved version a range is understood if it was and the version is strict. -/
theorem isSome_parse?_bumpedText
    (accepted : ∀ name target, approved.get? name = some target →
      ∃ version, Version.parseLoose? target = some version) (name raw : String) :
    (Range.parse? (bumpedText (approved.get? name) raw)).isSome =
      ((Range.parse? raw).isSome && staysTracked approved name) := by
  rw [staysTracked]
  cases given : approved.get? name with
  | none => rw [bumpedText_none, Bool.and_true]
  | some target =>
      obtain ⟨version, reads⟩ := accepted name target given
      cases parsed : Range.parse? raw with
      | none =>
          have same : bumpedText (some target) raw = raw := by rw [bumpedText, parsed]; rfl
          rw [same, parsed]
          rfl
      | some range =>
          have moved : bumpedText (some target) raw = range.retarget target := by
            rw [bumpedText, parsed]
            rfl
          rw [moved, Range.parse?_retarget range (Range.startsVersion_of_parseLoose? reads),
            Range.isFullVersion_eq_isSome reads]
          cases strict : (Version.parse? target).isSome with
          | true => simp [strict]
          | false => simp [strict]

/-- With approved versions a manifest declares what it did as far as it stays understood. -/
theorem declaresTracked_bumped
    (accepted : ∀ name target, approved.get? name = some target →
      ∃ version, Version.parseLoose? target = some version) {before after : Manifest}
    (bumped : IsBumped approved before after) (name : String) :
    DeclaresTracked filter after name ↔
      staysTracked approved name = true ∧ DeclaresTracked filter before name := by
  constructor
  · rintro ⟨tracked, part, raw, given, understood⟩
    rw [bumped.dependencies, List.mem_map] at given
    obtain ⟨⟨_, _, old⟩, declared, equal⟩ := given
    cases equal
    rw [isSome_parse?_bumpedText accepted, Bool.and_eq_true] at understood
    exact ⟨understood.2, tracked, part, old, declared, understood.1⟩
  · rintro ⟨stays, tracked, part, raw, declared, understood⟩
    refine ⟨tracked, part, bumpedText (approved.get? name) raw, ?_, ?_⟩
    · rw [bumped.dependencies]
      exact List.mem_map.2 ⟨_, declared, rfl⟩
    · rw [isSome_parse?_bumpedText accepted, understood, stays, Bool.and_self]

/-- **A package stays tracked in the same manifests, or in none.** -/
theorem manifestsFor_bumped
    (accepted : ∀ name target, approved.get? name = some target →
      ∃ version, Version.parseLoose? target = some version)
    {before after : List (Path × Manifest)} (bumped : AreBumped approved before after)
    (name : String) :
    manifestsFor (declarationsIn root filter after) name =
      if staysTracked approved name then manifestsFor (declarationsIn root filter before) name
      else [] := by
  have paths : (after.filter fun entry => DeclaresTracked filter entry.2 name).map Prod.fst =
      if staysTracked approved name then
        (before.filter fun entry => DeclaresTracked filter entry.2 name).map Prod.fst
      else [] := by
    induction bumped with
    | nil => simp
    | cons same _ ih =>
        rw [List.filter_cons, List.filter_cons]
        simp only [decide_eq_true_eq, declaresTracked_bumped accepted same.2]
        cases stays : staysTracked approved name with
        | false =>
            rw [stays, if_neg Bool.false_ne_true] at ih
            rw [if_neg fun both => Bool.false_ne_true both.1, ih, if_neg Bool.false_ne_true]
        | true =>
            rw [stays, if_pos rfl] at ih
            simp only [true_and, if_true]
            split
            next => rw [List.map_cons, List.map_cons, ih, same.1]
            next => exact ih
  rw [manifestsFor_eq, manifestsFor_eq, paths]
  split
  · rfl
  · rfl

end Tracked

/-! ## Scans before and after an upgrade -/

section Upgraded

variable {world later : World} {root : Path} {filter : DependencyFilter} {found : Scan}
variable {approved : Table String} {installer : Installer} {manifests : List (Path × Manifest)}

/-- **A manifest that declares a package with an approved version is affected**, if the package is
among those that are tracked. -/
theorem Reports.isAffected {tree : FileTree} (reports : Reports tree filter manifests found)
    {path : Path} {manifest : Manifest} (listed : (path, manifest) ∈ manifests)
    {part : DependencySection} {name raw : String}
    (declares : (part, name, raw) ∈ manifest.dependencies) {range : Range}
    (parsed : Range.parse? raw = some range) {target version : String}
    (given : approved.get? name = some target)
    (installed : found.installed.get? name = some version) : IsAffected found approved path := by
  have accepts : filter.accepts name = true := by
    rw [reports.installed, Option.map_eq_some_iff] at installed
    obtain ⟨declaration, first, _⟩ := installed
    obtain ⟨member, rfl⟩ := of_firstFor first
    obtain ⟨_, _, here⟩ := List.mem_flatMap.1 member
    exact (declaresTracked_of_mem here).1
  have declared : path ∈ manifestsFor (declarationsIn found.root filter manifests) name := by
    have tracked : DeclaresTracked filter manifest name :=
      ⟨accepts, part, raw, declares, by simp [parsed]⟩
    rw [manifestsFor_eq, List.mem_eraseDups]
    exact List.mem_map.2 ⟨_, List.mem_filter.2 ⟨listed, decide_eq_true tracked⟩, rfl⟩
  refine ⟨reports.listed ▸ List.mem_map_of_mem listed, name,
    List.mem_map_of_mem (Table.get?_eq_some_iff.1 given), _,
    (reports.tracked name).trans (if_neg (List.ne_nil_of_mem declared)),
    path, declared, ?_⟩
  simp [Path.same]

/-- **After an upgrade the manifests of the scan are loaded again**, with approved versions. -/
theorem loadManifests_of_upgrade (wellFormed : world.files.WellFormed)
    (spelled : ∃ text, root = Path.ofText text)
    (scanned : scan world.files root filter = .ok found)
    (reports : Reports world.files filter manifests found)
    (tracked : ∀ name target, approved.get? name = some target →
      ∃ version, found.installed.get? name = some version)
    (quiet : ∀ files, loadManifests (installer root files).2 root = loadManifests files root)
    {outcome : UpgradeOutcome}
    (done : upgrade world found approved installer false = (.ok outcome, later)) :
    ∃ afters, loadManifests later.files root = .ok (found.isWorkspace, afters) ∧
      AreBumped approved manifests afters := by
  obtain ⟨rfl, _⟩ := reports_of_scan scanned
  obtain ⟨edits, edited, handed, written, same⟩ : ∃ edits,
      editsOf world.files found approved = .ok edits ∧ ∃ handed,
        world.files.writeAll (edits.map ManifestEdit.write) = (.ok (), handed) ∧
        loadManifests later.files found.root = loadManifests handed found.root := by
    obtain ⟨edits, edited, ⟨rfl, rfl⟩ | ⟨handed, written, files⟩⟩ := written_of_upgrade done
    · exact ⟨[], edited, _, rfl, rfl⟩
    · exact ⟨edits, edited, handed, written, files ▸ quiet handed⟩
  have areEdits := areEdits_of_editsOf edited
  have named := named_of_scan scanned
  obtain ⟨staged, swept, apart⟩ := areEdits.swept wellFormed named written
  rw [same]
  refine loadManifests_bumped reports.loaded
    (memberManifests_swept swept wellFormed apart spelled) ?_
  rintro ⟨path, manifest⟩ listed
  refine areEdits.load_written wellFormed named written
    (reports.listed ▸ List.mem_map_of_mem listed) (load_of_loadManifests reports.loaded listed)
    fun unaffected => ?_
  refine isBumped_of_unaffected fun part name raw declares => ?_
  cases given : approved.get? name with
  | none => exact bumpedText_none raw
  | some target =>
      cases parsed : Range.parse? raw with
      | none => rw [bumpedText, parsed]; rfl
      | some range =>
          obtain ⟨version, installed⟩ := tracked name target given
          exact absurd (reports.isAffected listed declares parsed given installed) unaffected

/-- A changed range that is moved to an approved version, and how it is read afterwards. -/
structure MovesTracked (approved : Table String) (change : DependencyChange) (range : Range)
    (target : String) (version : Version) : Prop where
  approved : approved.get? change.name = some target
  accepted : Version.parseLoose? target = some version
  origin : Range.parse? change.origin = some range
  destination : change.destination = range.retarget target
  reread : Range.parse? change.destination =
    if (Version.parse? target).isSome then some ⟨range.workspace, range.operator, target⟩ else none

/-- **What is tracked stays tracked, unless the approved version is not spelled strictly.**

After a live run that succeeds, with the versions that a plan approves and an installer that leaves
manifests alone, a scan with the same filter succeeds.  It finds the same manifests, and tracks each
package in the manifests in which it was tracked before; a package whose approved version is not
spelled strictly is tracked in none.

Every range that was changed is read with the same mark, the same operator and the approved version,
or not at all if that version is not spelled strictly. -/
theorem tracked_of_upgrade {latest : Table (Option String)} {flags : Table Bool}
    {allowBreaking : Bool} (wellFormed : world.files.WellFormed)
    (spelled : ∃ text, root = Path.ofText text)
    (scanned : scan world.files root filter = .ok found)
    (planned : approved = (Plan.compute found.installed latest flags).approved allowBreaking)
    (quiet : ∀ files, loadManifests (installer root files).2 root = loadManifests files root)
    {outcome : UpgradeOutcome}
    (done : upgrade world found approved installer false = (.ok outcome, later)) :
    (∃ again, scan later.files root filter = .ok again ∧
      again.isWorkspace = found.isWorkspace ∧ again.manifests = found.manifests ∧
      ∀ name, again.manifestsByPackage.get? name =
        if staysTracked approved name then found.manifestsByPackage.get? name else none) ∧
    ∀ change ∈ outcome.changes, ∃ range target version,
      MovesTracked approved change range target version := by
  have accepted : ∀ name target, approved.get? name = some target →
      (∃ current, found.installed.get? name = some current) ∧
        ∃ version, Version.parseLoose? target = some version := by
    intro name target given
    rw [planned, Table.get?_eq_some_iff] at given
    exact Plan.accepted_of_mem_approved given
  obtain ⟨rfl, manifests, reports⟩ := reports_of_scan scanned
  constructor
  · obtain ⟨afters, loaded, bumped⟩ := loadManifests_of_upgrade wellFormed spelled scanned reports
      (fun name target given => (accepted name target given).1) quiet done
    obtain ⟨again, rescanned, sameRoot, isWorkspace, reports'⟩ :=
      exists_reports_of_loadManifests loaded filter
    refine ⟨again, rescanned, isWorkspace, ?_, fun name => ?_⟩
    · rw [reports'.listed, bumped.paths, reports.listed]
    · rw [reports'.tracked, reports.tracked, sameRoot,
        manifestsFor_bumped (fun name target given => (accepted name target given).2) bumped]
      cases staysTracked approved name with
      | true => rfl
      | false => rfl
  · intro change member
    obtain ⟨edits, edited, changes⟩ := edits_of_upgrade done
    rw [changes, (areEdits_of_editsOf edited).mem_changes_iff] at member
    obtain ⟨_, _, _, _, _, _, member⟩ := member
    obtain ⟨range, target, given, moves⟩ := moves_of_mem_bumpRanges member
    rw [← Table.get?_eq_some_iff] at given
    obtain ⟨_, version, reads⟩ := accepted _ _ given
    refine ⟨range, target, version, given, reads, moves.parsed, moves.destination, ?_⟩
    rw [moves.destination, Range.parse?_retarget range (Range.startsVersion_of_parseLoose? reads),
      Range.isFullVersion_eq_isSome reads]

end Upgraded

/-! ## Two packages -/

/-- A manifest that declares two packages. -/
def twoPackages : FileTree :=
  .directory [("package.json", .file (Text.encode
    "\x7b\"dependencies\": \x7b\"a\": \"^1.0.0\", \"b\": \"~1.0.0\"\x7d\x7d") false)]

/-- The latest versions of the two packages, one of them with a `v`. -/
def twoLatest : Table (Option String) :=
  Table.ofList [("a", some "1.2.0"), ("b", some "v1.0.1")]

/-- The plan for the two packages. -/
def twoApproved (found : Scan) : Table String :=
  (Plan.compute found.installed twoLatest Table.empty).approved false

theorem tracked_of_upgrade_twoPackages :
    twoPackages.WellFormed ∧ (⟨["", ""]⟩ : Path) = Path.ofText "/" ∧
    ∃ found outcome later again,
      scan twoPackages ⟨["", ""]⟩ ⟨[]⟩ = .ok found ∧
      upgrade ⟨twoPackages, []⟩ found (twoApproved found) idleInstaller false =
        (.ok outcome, later) ∧
      scan later.files ⟨["", ""]⟩ ⟨[]⟩ = .ok again ∧ again.manifests = found.manifests ∧
      found.manifestsByPackage.get? "a" = some [⟨["", "package.json"]⟩] ∧
      again.manifestsByPackage.get? "a" = some [⟨["", "package.json"]⟩] ∧
      again.manifestsByPackage.get? "b" = none ∧ outcome.changes.length = 2 ∧
      ∀ change ∈ outcome.changes, ∃ range target version,
        MovesTracked (twoApproved found) change range target version := by
  have wellFormed : twoPackages.WellFormed := by decide +kernel
  have spelled : (⟨["", ""]⟩ : Path) = Path.ofText "/" := by decide +kernel
  have before : (scan twoPackages ⟨["", ""]⟩ ⟨[]⟩).toOption.map (fun found =>
      (found.manifestsByPackage.get? "a", staysTracked (twoApproved found) "a",
        staysTracked (twoApproved found) "b",
        (upgrade ⟨twoPackages, []⟩ found (twoApproved found) idleInstaller false).1.toOption.map
          fun outcome => outcome.changes.length)) =
      some (some [⟨["", "package.json"]⟩], true, false, some 2) := by
    decide +kernel
  obtain ⟨found, scanned, known⟩ := Option.map_eq_some_iff.1 before
  rw [Results.toOption_eq_some_iff] at scanned
  simp only [Prod.mk.injEq] at known
  obtain ⟨first, stays, leaves, changes⟩ := known
  have idle : ∀ files, loadManifests (idleInstaller ⟨["", ""]⟩ files).2 ⟨["", ""]⟩ =
      loadManifests files ⟨["", ""]⟩ := fun _ => rfl
  have planned : twoApproved found =
    (Plan.compute found.installed twoLatest Table.empty).approved false := rfl
  have tracked := fun outcome later
    (done : upgrade ⟨twoPackages, []⟩ found (twoApproved found) idleInstaller false =
      (.ok outcome, later)) =>
    tracked_of_upgrade wellFormed ⟨"/", spelled⟩ scanned planned idle done
  refine ⟨wellFormed, spelled, found, ?_⟩
  generalize upgrade ⟨twoPackages, []⟩ found (twoApproved found) idleInstaller false = run
    at changes tracked ⊢
  obtain ⟨_ | outcome, later⟩ := run
  · cases changes
  · obtain ⟨⟨again, rescanned, _, manifests, packages⟩, moves⟩ := tracked outcome later rfl
    refine ⟨outcome, later, again, scanned, rfl, rescanned, manifests, first, ?_, ?_,
      Option.some.inj changes, moves⟩
    · rw [packages, stays, if_pos rfl, first]
    · rw [packages, leaves]
      rfl

/-- The changes of an upgrade of the two packages, and the scans before and after it. -/
def twoUpgraded : Option (Scan × List DependencyChange × Scan) := do
  let found ← (scan twoPackages ⟨["", ""]⟩ ⟨[]⟩).toOption
  let (outcome, later) := upgrade ⟨twoPackages, []⟩ found (twoApproved found) idleInstaller false
  let again ← (scan later.files ⟨["", ""]⟩ ⟨[]⟩).toOption
  (found, (← outcome.toOption).changes, again)

/-- **A package falls out of tracking**: its approved version starts with a `v`, so that no range
with it is understood. -/
theorem tracked_nowhere_after_upgrade :
    (twoUpgraded.map fun (found, changes, again) =>
      (found.manifestsByPackage.get? "b", changes, again.manifestsByPackage.get? "b")) =
      some (some [⟨["", "package.json"]⟩],
        [⟨"package.json", "dependencies", "a", "^1.0.0", "^1.2.0"⟩,
          ⟨"package.json", "dependencies", "b", "~1.0.0", "~v1.0.1"⟩], none) ∧
      Range.parse? "~v1.0.1" = none := by
  decide +kernel

end Uplift.Workspace
