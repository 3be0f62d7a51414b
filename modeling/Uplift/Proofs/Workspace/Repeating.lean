import Uplift.Proofs.FileTree.SweptPatterns
import Uplift.Proofs.Manifest
import Uplift.Proofs.Workspace.Bumping
import Uplift.Proofs.Workspace.Members
import Uplift.Proofs.Workspace.Upgrade

/-!
# Upgrading twice

After an upgrade that succeeds, a second one with the same scan and the same versions finds nothing
to change, so it writes nothing and calls no installer (`upgrade_again`).  Nothing is assumed of the
files that the paths of the scan lead to, which may be the same for several paths: if a file were
written twice, its second staged file would be missing.

No manifest may be the file in which another is staged: staging would overwrite it, and the second
upgrade would not find it (`second_upgrade_fails`).  The scan of a workspace lists files of one name
only, so this cannot happen to what it lists (`upgrade_again_of_scan`).
-/

set_option autoImplicit false

namespace Uplift.Workspace

open FileTree (Place Lands slotOf)

/-! ## Names of manifests -/

theorem getLast?_patternPath (root : Path) (pattern : String) :
    (patternPath root pattern).pieces.getLast? = some manifestFile := by
  rw [patternPath, Path.pieces_joinText isEntryName_manifestFile.2, List.getLast?_concat]

theorem isPlain_manifestFile : Glob.IsPlain manifestFile := by
  decide

/-- **A scan lists files of one name.** -/
theorem named_of_scan {tree : FileTree} {root : Path} {filter : DependencyFilter} {found : Scan}
    (scanned : scan tree root filter = .ok found) :
    ∀ path ∈ found.manifests, path.fileName? = some manifestFile := by
  have named : ∀ above : Path, (above.joinText manifestFile).fileName? = some manifestFile :=
    fun above => Path.fileName?_of_pieces (Path.pieces_joinText isEntryName_manifestFile.2 above)
      isEntryName_manifestFile.1
  obtain ⟨members, manifests, listed⟩ := manifests_eq_of_scan scanned
  rw [manifests]
  refine List.forall_mem_cons.2 ⟨named root, fun path member => ?_⟩
  rcases listed with rfl | ⟨_, patterns, _, _, finding⟩
  · cases member
  · obtain ⟨_, pattern, _, paths, found, among⟩ := found_of_mem_memberManifests finding member
    obtain ⟨_, expanded, expansion, among⟩ := expand_of_patternManifests found among
    obtain ⟨above, rfl⟩ := Glob.exists_of_mem_expand isPlain_manifestFile
      (getLast?_patternPath root pattern) expansion among
    exact named above

/-- No manifest that an upgrade reads is the file in which it stages the new text of one. -/
def StagedApart (tree : FileTree) (scan : Scan) (approved : Table String) : Prop :=
  ∀ path place executable manifest, IsAffected scan approved path →
    HoldsManifest tree scan path place executable manifest →
      ∀ edit, IsAffected scan approved edit.path →
        editOf tree scan approved edit.path = .ok (some edit) →
          tree.locateNew edit.write.stagedPath ≠ .ok place

/-- Among files of one name, none is where the new text of one is staged. -/
theorem locateNew_stagedPath_ne {tree : FileTree} {scan : Scan} {approved : Table String}
    {path : Path} (named : path.fileName? = some manifestFile) {place : Place} {executable : Bool}
    {manifest : Manifest} (holds : HoldsManifest tree scan path place executable manifest)
    {edit : ManifestEdit} (named' : edit.path.fileName? = some manifestFile)
    (editing : editOf tree scan approved edit.path = .ok (some edit)) :
    tree.locateNew edit.write.stagedPath ≠ .ok place := by
  intro staged
  obtain ⟨_, _, _, holds', _⟩ := manifest_of_editOf editing
  have target := (holds.goesTo named "").1
  have sibling := (holds'.goesTo named' edit.after).2.staged.locateNew
  refine target_manifestSlot_ne_sibling tree path edit.path ?_
  rw [target]
  exact Except.ok.inj (staged.symm.trans sibling)

theorem stagedApart_of_named {tree : FileTree} {scan : Scan} {approved : Table String}
    (named : ∀ path ∈ scan.manifests, path.fileName? = some manifestFile) :
    StagedApart tree scan approved :=
  fun path _ _ _ affected holds edit edited editing =>
    locateNew_stagedPath_ne (named path affected.1) holds (named edit.path edited.1) editing

/-- **A scan lists no file in which another is staged.** -/
theorem stagedApart_of_scan {tree later : FileTree} {root : Path} {filter : DependencyFilter}
    {found : Scan} (scanned : scan tree root filter = .ok found) (approved : Table String) :
    StagedApart later found approved :=
  stagedApart_of_named (named_of_scan scanned)

/-! ## Reading after writing -/

section Reading

variable {tree later : FileTree} {scan : Scan} {approved : Table String} {path : Path}

theorem readText_of_lands {dir : Place} {name : String} (lands : Lands tree path dir name)
    {content : ByteArray} {executable : Bool}
    (file : tree.entryAt? (dir ++ [name]) = some (.file content executable)) {text : String}
    (decoded : Text.decode? content = some text) : tree.readText path = .ok text := by
  have found := lands.find ((FileTree.entryAt?_eq_file_iff _ _ _ _).1 file)
  rw [FileTree.readText, FileTree.readBytes, found]
  simp only [Results.ok_bind, decoded]

/-- What is read of a path depends on what is at its place, as long as directories stay. -/
theorem readText_of_sameDirectories {place : Place} (located : tree.locate path = .ok place)
    {content new : ByteArray} {executable mode : Bool}
    (file : tree.entryAt? place = some (.file content executable))
    (same : FileTree.SameDirectories tree later)
    (held : later.entryAt? place = some (.file new mode)) {text : String}
    (decoded : Text.decode? new = some text) : later.readText path = .ok text := by
  obtain ⟨dir, name, rfl, lands⟩ := FileTree.lands_of_file located file
  exact readText_of_lands (lands.of_sameDirectories same) held decoded

theorem editOf_congr (read : later.readText path = tree.readText path) :
    editOf later scan approved path = editOf tree scan approved path := by
  rw [editOf, editOf, read]

/-- A manifest whose ranges are not changed has no edit. -/
theorem editOf_of_no_changes {text : String} {manifest : Manifest}
    (read : tree.readText path = .ok text)
    (parsed : Manifest.parse (scan.relative path) text = .ok manifest)
    (unchanged : (bumpRanges (scan.relative path) approved manifest).2 = []) :
    editOf tree scan approved path = .ok none := by
  rw [editOf, read]
  simp only [Results.ok_bind, parsed, unchanged]
  rfl

end Reading

/-! ## Writes to any files -/

section Writes

variable {tree : FileTree} {scan : Scan} {approved : Table String}

/-- A write to a file that holds a manifest goes to the slot of the file. -/
theorem HoldsManifest.goesTo_slotOf (wellFormed : tree.WellFormed) {path : Path} {place : Place}
    {executable : Bool} {manifest : Manifest}
    (holds : HoldsManifest tree scan path place executable manifest) (content : String) :
    (slotOf tree path).target = place ∧
      FileTree.GoesTo tree ⟨path, content⟩ (slotOf tree path) := by
  obtain ⟨bytes, text, file, _, _⟩ := holds.holds
  exact FileTree.goesTo_slotOf wellFormed holds.located file content

theorem AreEdits.stagedApart {edits : List ManifestEdit}
    (areEdits : AreEdits tree scan approved edits) (apart : StagedApart tree scan approved)
    {path : Path} (affected : IsAffected scan approved path) {place : Place} {executable : Bool}
    {manifest : Manifest} (holds : HoldsManifest tree scan path place executable manifest) :
    ∀ edit ∈ edits, tree.locateNew edit.write.stagedPath ≠ .ok place := by
  intro edit edited
  obtain ⟨affected', editing⟩ := areEdits.editOf edited
  exact apart path place executable manifest affected holds edit affected' editing

/-- Where no edit is staged is not the sibling of a slot. -/
theorem AreEdits.ne_sibling {edits : List ManifestEdit}
    (areEdits : AreEdits tree scan approved edits) (wellFormed : tree.WellFormed) {place : Place}
    (unstaged : ∀ edit ∈ edits, tree.locateNew edit.write.stagedPath ≠ .ok place)
    {edit : ManifestEdit} (edited : edit ∈ edits) : place ≠ (slotOf tree edit.path).sibling := by
  obtain ⟨_, _, _, _, holds, _⟩ := areEdits.holds edited
  rintro rfl
  exact unstaged edit edited (holds.goesTo_slotOf wellFormed edit.after).2.staged.locateNew

/-- Edits are written to files. -/
theorem AreEdits.files {edits : List ManifestEdit} (areEdits : AreEdits tree scan approved edits)
    (wellFormed : tree.WellFormed) :
    ∀ write ∈ edits.map ManifestEdit.write, ∃ content executable,
      tree.entryAt? (slotOf tree write.path).target = some (.file content executable) := by
  intro write member
  obtain ⟨edit, edited, rfl⟩ := List.mem_map.1 member
  obtain ⟨_, _, executable, _, holds, _⟩ := areEdits.holds edited
  obtain ⟨content, text, file, _, _⟩ := holds.holds
  refine ⟨content, executable, ?_⟩
  change tree.entryAt? (slotOf tree edit.path).target = _
  rw [(holds.goesTo_slotOf wellFormed "").1, file]

theorem AreEdits.goesTo {edits : List ManifestEdit} (areEdits : AreEdits tree scan approved edits)
    (wellFormed : tree.WellFormed) :
    ∀ write ∈ edits.map ManifestEdit.write,
      FileTree.GoesTo tree write (slotOf tree write.path) := by
  intro write member
  obtain ⟨edit, edited, rfl⟩ := List.mem_map.1 member
  obtain ⟨_, _, _, _, holds, _⟩ := areEdits.holds edited
  exact (holds.goesTo_slotOf wellFormed _).2

/-- **Edits that were written** do not disturb each other. -/
theorem AreEdits.separate_of_writeAll {edits : List ManifestEdit}
    (areEdits : AreEdits tree scan approved edits) (wellFormed : tree.WellFormed)
    (apart : StagedApart tree scan approved) {later : FileTree}
    (done : tree.writeAll (edits.map ManifestEdit.write) = (.ok (), later)) :
    FileTree.Separate tree (fun write => slotOf tree write.path)
      (edits.map ManifestEdit.write) := by
  refine FileTree.separate_of_writeAll_ok (areEdits.goesTo wellFormed) ?_ ?_ done
  · intro first member second member'
    obtain ⟨edit, edited, rfl⟩ := List.mem_map.1 member
    obtain ⟨edit', edited', rfl⟩ := List.mem_map.1 member'
    obtain ⟨affected, _, _, _, holds, _⟩ := areEdits.holds edited
    change (slotOf tree edit.path).target ≠ (slotOf tree edit'.path).sibling
    rw [(holds.goesTo_slotOf wellFormed "").1]
    exact areEdits.ne_sibling wellFormed (areEdits.stagedApart apart affected holds) edited'
  · intro write member
    obtain ⟨_, _, file⟩ := areEdits.files wellFormed write member
    simp [file]

/-- A file holds one manifest, whichever path leads to it. -/
theorem HoldsManifest.eq_of_place {first second : Path} {place : Place}
    {executable executable' : Bool} {manifest manifest' : Manifest}
    (holds : HoldsManifest tree scan first place executable manifest)
    (holds' : HoldsManifest tree scan second place executable' manifest') :
    manifest = manifest' := by
  obtain ⟨_, _, file, decoded, parsed⟩ := holds.holds
  obtain ⟨_, _, file', decoded', parsed'⟩ := holds'.holds
  cases file.symm.trans file'
  cases decoded.symm.trans decoded'
  cases (Manifest.parse_eq_ok_congr parsed (scan.relative second)).symm.trans parsed'
  rfl

/-- **What is read after the edits were written.**  A file that was written holds its manifest with
the approved versions, whichever path leads to it, and any other is as it was, if no edit was staged
in it. -/
theorem AreEdits.read_written {edits : List ManifestEdit}
    (areEdits : AreEdits tree scan approved edits) (wellFormed : tree.WellFormed)
    (apart : StagedApart tree scan approved) {later : FileTree}
    (done : tree.writeAll (edits.map ManifestEdit.write) = (.ok (), later)) {path : Path}
    {place : Place} {executable : Bool} {manifest : Manifest}
    (holds : HoldsManifest tree scan path place executable manifest)
    (unstaged : ∀ edit ∈ edits, tree.locateNew edit.write.stagedPath ≠ .ok place) :
    (∃ relative, later.readText path =
        .ok (bumpRanges relative approved manifest).1.render) ∨
      (∃ text, later.readText path = .ok text ∧
        Manifest.parse (scan.relative path) text = .ok manifest) ∧
      ∀ edit ∈ edits, edit.path ≠ path := by
  obtain ⟨after, ⟨_, failed, _⟩ | ⟨written, same, carried⟩⟩ :=
    FileTree.writeAll_outcome (areEdits.separate_of_writeAll wellFormed apart done)
      fun write member => by
        obtain ⟨_, _, file⟩ := areEdits.files wellFormed write member
        simp [file]
  · rw [done] at failed
    cases failed
  cases done.symm.trans written
  obtain ⟨content, text, file, decoded, parsed⟩ := holds.holds
  by_cases target : ∃ edit ∈ edits, (slotOf tree edit.path).target = place
  · left
    obtain ⟨edit, edited, rfl⟩ := target
    obtain ⟨_, place', _, manifest', holds', isEdit⟩ := areEdits.holds edited
    obtain ⟨mode, held, _⟩ := carried edit.write (List.mem_map_of_mem edited)
    have read := readText_of_sameDirectories holds.located file same.directories held
      (Text.decode?_encode _)
    change later.readText path = .ok edit.after at read
    rw [(holds'.goesTo_slotOf wellFormed "").1] at holds
    rw [isEdit.after, ← holds.eq_of_place holds'] at read
    exact ⟨_, read⟩
  · right
    constructor
    · have stays : later.entryAt? place = tree.entryAt? place := by
        refine same.outside place ?_
        rintro (⟨write, member, sibling⟩ | ⟨write, member, equal⟩)
        · obtain ⟨edit, edited, rfl⟩ := List.mem_map.1 member
          exact areEdits.ne_sibling wellFormed unstaged edited sibling
        · obtain ⟨edit, edited, rfl⟩ := List.mem_map.1 member
          exact target ⟨edit, edited, equal.symm⟩
      exact ⟨text, readText_of_sameDirectories holds.located file same.directories
        (stays.trans file) decoded, parsed⟩
    · rintro edit edited rfl
      exact target ⟨edit, edited, (holds.goesTo_slotOf wellFormed "").1⟩

/-- **Once written, the edits leave nothing to edit.** -/
theorem AreEdits.editOf_written {edits : List ManifestEdit}
    (areEdits : AreEdits tree scan approved edits) (wellFormed : tree.WellFormed)
    (apart : StagedApart tree scan approved)
    (accepted : ∀ name target, approved.get? name = some target →
      (Version.parseLoose? target).isSome = true) {later : FileTree}
    (done : tree.writeAll (edits.map ManifestEdit.write) = (.ok (), later)) {path : Path}
    (affected : IsAffected scan approved path) :
    Workspace.editOf later scan approved path = .ok none := by
  obtain ⟨edit?, editing⟩ := areEdits.done path affected
  obtain ⟨place, executable, manifest, holds, edits?⟩ := manifest_of_editOf editing
  obtain ⟨_, _, _, _, parsed⟩ := holds.holds
  obtain ⟨relative, read⟩ | ⟨⟨text, read, parsed⟩, unedited⟩ :=
    areEdits.read_written wellFormed apart done holds (areEdits.stagedApart apart affected holds)
  · refine editOf_of_no_changes read
      (parse_render_bumped parsed relative (scan.relative path)) ?_
    rw [bumpRanges_reread_bumped accepted]
  · rcases edits? with ⟨unchanged, _⟩ | ⟨edit, rfl, isEdit⟩
    · exact editOf_of_no_changes read parsed unchanged
    · have edited := (areEdits.mem_iff edit).2 ⟨path, affected, editing⟩
      exact absurd isEdit.samePath (unedited edit edited)

end Writes

/-! ## Upgrading again -/

/-- There are no edits where no affected manifest has one. -/
theorem editsOf_eq_nil {tree : FileTree} {scan : Scan} {approved : Table String}
    (none : ∀ path, IsAffected scan approved path →
      editOf tree scan approved path = .ok Option.none) :
    editsOf tree scan approved = .ok [] := by
  have computed : (affectedManifests scan approved).mapM (editOf tree scan approved) =
      .ok ((affectedManifests scan approved).map fun _ => Option.none) :=
    Results.mapM_eq_ok_map fun path member => none path (mem_affectedManifests.1 member)
  refine Results.bind_eq_ok_iff.2 ⟨_, computed, congrArg Except.ok ?_⟩
  rw [List.map_const', List.reduceOption_replicate_none]

section Again

variable {world later : World} {scan : Scan} {approved : Table String} {installer : Installer}
  {outcome : UpgradeOutcome}

/-- After a live run that succeeds, there is nothing left to edit. -/
theorem editsOf_upgraded (wellFormed : world.files.WellFormed)
    (apart : StagedApart world.files scan approved)
    (accepted : ∀ name target, approved.get? name = some target →
      (Version.parseLoose? target).isSome = true)
    (quiet : ∀ tree, ∀ path ∈ scan.manifests,
      (installer scan.root tree).2.readText path = tree.readText path)
    (done : upgrade world scan approved installer false = (.ok outcome, later)) :
    editsOf later.files scan approved = .ok [] := by
  obtain ⟨edits, edited, ⟨rfl, rfl⟩ | ⟨handed, written, files⟩⟩ := written_of_upgrade done
  · exact edited
  · refine editsOf_eq_nil fun path affected => ?_
    have read := quiet handed path affected.1
    rw [← files] at read
    exact (editOf_congr read).trans
      ((areEdits_of_editsOf edited).editOf_written wellFormed apart accepted written affected)

/-- **Upgrading is idempotent.**  After a live run that succeeds, with versions that are accepted
and an installer that leaves manifests alone, a second one succeeds without changes or previews,
and leaves the world as it is: it writes nothing and calls no installer.  No manifest that is read
may be the file in which another is staged. -/
theorem upgrade_again (wellFormed : world.files.WellFormed)
    (apart : StagedApart world.files scan approved)
    (accepted : ∀ name target, approved.get? name = some target →
      (Version.parseLoose? target).isSome = true)
    (quiet : ∀ tree, ∀ path ∈ scan.manifests,
      (installer scan.root tree).2.readText path = tree.readText path)
    (done : upgrade world scan approved installer false = (.ok outcome, later)) :
    upgrade later scan approved installer false = (.ok (.planned []), later) :=
  upgrade_of_no_edits (editsOf_upgraded wellFormed apart accepted quiet done)

end Again

theorem upgrade_again_twoManifests :
    twoManifests.WellFormed ∧
    StagedApart twoManifests twoManifestsScan (Table.ofList [("a", "1.2.0")]) ∧
    ∃ outcome later,
      upgrade ⟨twoManifests, []⟩ twoManifestsScan (Table.ofList [("a", "1.2.0")]) idleInstaller
        false = (.ok outcome, later) ∧
      outcome.changes = [⟨"package.json", "dependencies", "a", "^1.0.0", "^1.2.0"⟩] ∧
      upgrade later twoManifestsScan (Table.ofList [("a", "1.2.0")]) idleInstaller false =
        (.ok (.planned []), later) := by
  have wellFormed : twoManifests.WellFormed := by decide +kernel
  have apart : StagedApart twoManifests twoManifestsScan (Table.ofList [("a", "1.2.0")]) :=
    stagedApart_of_named (by decide)
  have accepted : ∀ name target, (Table.ofList [("a", "1.2.0")]).get? name = some target →
      (Version.parseLoose? target).isSome = true := by
    intro name target found
    cases List.mem_singleton.1 (Table.mem_of_get?_ofList found)
    decide +kernel
  have changes := changes_twoManifests
  refine ⟨wellFormed, apart, ?_⟩
  have again := fun outcome later
    (done : upgrade ⟨twoManifests, []⟩ twoManifestsScan (Table.ofList [("a", "1.2.0")])
      idleInstaller false = (.ok outcome, later)) =>
    upgrade_again wellFormed apart accepted (fun _ _ _ => rfl) done
  generalize upgrade ⟨twoManifests, []⟩ twoManifestsScan (Table.ofList [("a", "1.2.0")])
    idleInstaller false = run at changes again ⊢
  obtain ⟨_ | outcome, later⟩ := run
  · cases changes
  · exact ⟨outcome, later, rfl, Option.some.inj changes, again outcome later rfl⟩

/-- **The manifests of any scan can be upgraded again,** in whatever tree they are upgraded. -/
theorem upgrade_again_of_scan {tree : FileTree} {root : Path} {filter : DependencyFilter}
    {found : Scan} (scanned : scan tree root filter = .ok found) {world later : World}
    {approved : Table String} {installer : Installer} {outcome : UpgradeOutcome}
    (wellFormed : world.files.WellFormed)
    (accepted : ∀ name target, approved.get? name = some target →
      (Version.parseLoose? target).isSome = true)
    (quiet : ∀ files, ∀ path ∈ found.manifests,
      (installer found.root files).2.readText path = files.readText path)
    (done : upgrade world found approved installer false = (.ok outcome, later)) :
    upgrade later found approved installer false = (.ok (.planned []), later) :=
  upgrade_of_no_edits
    (editsOf_upgraded wellFormed (stagedApart_of_scan scanned approved) accepted quiet done)

/-! ## A manifest where another is staged -/

/-- A manifest, and beside it one with the name of its staged file that has the new range. -/
def stagedBeside : FileTree :=
  .directory [
    ("package.json",
      .file (Text.encode "\x7b\"dependencies\": \x7b\"a\": \"^1.0.0\"\x7d\x7d") false),
    ("package.json.migrasaurus-staged",
      .file (Text.encode "\x7b\"dependencies\": \x7b\"a\": \"^1.2.0\"\x7d\x7d") false)]

/-- A scan that lists both. -/
def stagedBesideScan : Scan :=
  let paths : List Path := [⟨["", "package.json"]⟩, ⟨["", "package.json.migrasaurus-staged"]⟩]
  { Scan.empty with
    root := ⟨["", ""]⟩, manifests := paths, manifestsByPackage := Table.ofList [("a", paths)] }

/-- **A manifest in the file where another is staged is lost**: the first upgrade moves it onto the
other, and the second does not find it. -/
theorem second_upgrade_fails :
    let first := upgrade ⟨stagedBeside, []⟩ stagedBesideScan (Table.ofList [("a", "1.2.0")])
      idleInstaller false
    stagedBeside.WellFormed ∧ (Version.parseLoose? "1.2.0").isSome = true ∧
      (∀ tree, ∀ path ∈ stagedBesideScan.manifests,
        (idleInstaller stagedBesideScan.root tree).2.readText path = tree.readText path) ∧
      first.1.isOk = true ∧
      (upgrade first.2 stagedBesideScan (Table.ofList [("a", "1.2.0")]) idleInstaller
        false).1.isOk = false := by
  refine ⟨by decide +kernel, by decide +kernel, fun _ _ _ => rfl, ?_, ?_⟩
  · decide +kernel
  · decide +kernel

end Uplift.Workspace
