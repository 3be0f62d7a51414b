import Mathlib.Data.List.Pairwise
import Mathlib.Data.List.ReduceOption
import Uplift.Proofs.FileTree.Staging
import Uplift.Workspace.Upgrade

/-!
# Upgrading is all or nothing

An upgrade of a workspace either fails and leaves the workspace as it was, or puts the approved
versions into every affected manifest, changes nothing else, and calls the installer once, at the
root, if there was something to change (`upgrade_all_or_nothing`).  The only places left out of
account are those beside manifests where new contents are staged.

The proof reads the edits off the manifests first: an edit is made of exactly the affected
manifests that change (`mem_edits_iff`), and the edited paths are those of the scan in the same
order (`paths_sublist_of_editsOf`).  Manifests that denote different files then give staged writes
that do not disturb each other.
-/

set_option autoImplicit false

namespace Uplift.Workspace

open FileTree (Place Slot)

/-! ## Affected manifests -/

/-- A manifest of a scan that declares an approved package. -/
def IsAffected (scan : Scan) (approved : Table String) (path : Path) : Prop :=
  path ∈ scan.manifests ∧ ∃ name ∈ approved.names, ∃ declaring,
    scan.manifestsByPackage.get? name = some declaring ∧ ∃ other ∈ declaring, path.same other

theorem mem_affectedManifests {scan : Scan} {approved : Table String} {path : Path} :
    path ∈ affectedManifests scan approved ↔ IsAffected scan approved path := by
  simp only [affectedManifests, IsAffected, List.mem_filter, List.any_eq_true, List.mem_flatMap]
  refine and_congr_right fun _ => ?_
  constructor
  · rintro ⟨other, ⟨name, approvedName, member⟩, same⟩
    cases declaring : scan.manifestsByPackage.get? name with
    | none => simp [declaring] at member
    | some paths =>
        rw [declaring, Option.getD_some] at member
        exact ⟨name, approvedName, paths, declaring, other, member, same⟩
  · rintro ⟨name, approvedName, paths, declaring, other, member, same⟩
    exact ⟨other, ⟨name, approvedName, by simpa [declaring] using member⟩, same⟩

/-- A path leads to a file that holds a manifest. -/
structure HoldsManifest (tree : FileTree) (scan : Scan) (path : Path) (place : Place)
    (executable : Bool) (manifest : Manifest) : Prop where
  located : tree.locate path = .ok place
  holds : ∃ content text, tree.entryAt? place = some (.file content executable) ∧
    Text.decode? content = some text ∧ Manifest.parse (scan.relative path) text = .ok manifest

/-- A path leads to one manifest. -/
theorem HoldsManifest.unique {tree : FileTree} {scan : Scan} {path : Path} {place place' : Place}
    {executable executable' : Bool} {manifest manifest' : Manifest}
    (first : HoldsManifest tree scan path place executable manifest)
    (second : HoldsManifest tree scan path place' executable' manifest') :
    manifest = manifest' := by
  cases first.located.symm.trans second.located
  obtain ⟨content, text, file, decoded, parsed⟩ := first.holds
  obtain ⟨content', text', file', decoded', parsed'⟩ := second.holds
  cases file.symm.trans file'
  cases decoded.symm.trans decoded'
  cases parsed.symm.trans parsed'
  rfl

/-- A file that is read is there and holds the text. -/
theorem file_of_readText {tree : FileTree} {path : Path} {text : String}
    (read : tree.readText path = .ok text) :
    ∃ place content executable, tree.locate path = .ok place ∧
      tree.entryAt? place = some (.file content executable) ∧
      Text.decode? content = some text := by
  obtain ⟨content, bytes, decoded⟩ := Results.bind_eq_ok_iff.1 read
  obtain ⟨found, finding, isFile⟩ := Results.bind_eq_ok_iff.1 bytes
  obtain ⟨place, located, here⟩ := Results.bind_eq_ok_iff.1 finding
  split at here
  next there get =>
    cases here
    split at isFile
    next content' executable =>
      cases isFile
      split at decoded
      next text' decoding =>
        cases decoded
        exact ⟨place, content, executable, located,
          (FileTree.entryAt?_eq_file_iff _ _ _ _).2 get, decoding⟩
      next => cases decoded
    next => cases isFile
  next => cases here

/-! ## Edits -/

section Edits

variable {tree : FileTree} {scan : Scan} {approved : Table String}

/-- The edit of a manifest that holds what is read. -/
structure IsEditOf (scan : Scan) (approved : Table String) (path : Path) (manifest : Manifest)
    (edit : ManifestEdit) : Prop where
  samePath : edit.path = path
  after : edit.after = (bumpRanges (scan.relative path) approved manifest).1.render
  changes : edit.changes = (bumpRanges (scan.relative path) approved manifest).2
  changes_ne_nil : edit.changes ≠ []

/-- What is edited is the manifest a path leads to, and there is an edit if a range changes. -/
theorem manifest_of_editOf {path : Path} {edit? : Option ManifestEdit}
    (done : editOf tree scan approved path = .ok edit?) :
    ∃ place executable manifest, HoldsManifest tree scan path place executable manifest ∧
      ((bumpRanges (scan.relative path) approved manifest).2 = [] ∧ edit? = none ∨
        ∃ edit, edit? = some edit ∧ IsEditOf scan approved path manifest edit) := by
  rw [editOf] at done
  split at done
  next text reading =>
    rw [Results.ok_bind] at done
    obtain ⟨manifest, parsed, rest⟩ := Results.bind_eq_ok_iff.1 done
    obtain ⟨place, content, executable, located, file, decoded⟩ := file_of_readText reading
    refine ⟨place, executable, manifest, ⟨located, content, text, file, decoded, parsed⟩, ?_⟩
    by_cases empty : (bumpRanges (scan.relative path) approved manifest).2 = []
    · simp only [empty, List.isEmpty_nil, if_true] at rest
      cases rest
      exact .inl ⟨empty, rfl⟩
    · simp only [List.isEmpty_iff, empty, if_false] at rest
      cases rest
      exact .inr ⟨_, rfl, rfl, rfl, rfl, empty⟩
  next => cases done

/-- The edited paths are paths of affected manifests, in their order. -/
theorem paths_sublist_of_each {paths : List Path} {values : List (Option ManifestEdit)}
    (each : Results.Each (editOf tree scan approved) paths values) :
    (values.reduceOption.map ManifestEdit.path).Sublist paths := by
  induction each with
  | nil => exact .slnil
  | cons done _ ih =>
      obtain ⟨_, _, _, _, ⟨_, rfl⟩ | ⟨edit, rfl, isEdit⟩⟩ := manifest_of_editOf done
      · rw [List.reduceOption_cons_of_none]
        exact ih.cons _
      · rw [List.reduceOption_cons_of_some, List.map_cons, isEdit.samePath]
        exact ih.cons_cons _

/-- The edits of a workspace: those of its affected manifests, in order. -/
structure AreEdits (tree : FileTree) (scan : Scan) (approved : Table String)
    (edits : List ManifestEdit) : Prop where
  paths : (edits.map ManifestEdit.path).Sublist (affectedManifests scan approved)
  done : ∀ path, IsAffected scan approved path → ∃ edit?, editOf tree scan approved path = .ok edit?
  mem_iff : ∀ edit, edit ∈ edits ↔
    ∃ path, IsAffected scan approved path ∧ editOf tree scan approved path = .ok (some edit)

theorem areEdits_of_editsOf {edits : List ManifestEdit}
    (done : editsOf tree scan approved = .ok edits) : AreEdits tree scan approved edits := by
  obtain ⟨values, computed, equal⟩ := Results.bind_eq_ok_iff.1 done
  cases equal
  have each := Results.mapM_eq_ok_iff.1 computed
  refine ⟨paths_sublist_of_each each, ?_, ?_⟩
  · intro path affected
    obtain ⟨edit?, _, editing⟩ := each.exists_of_mem (mem_affectedManifests.2 affected)
    exact ⟨edit?, editing⟩
  · intro edit
    rw [List.reduceOption_mem_iff]
    constructor
    · intro member
      obtain ⟨path, affected, editing⟩ := each.of_mem member
      exact ⟨path, mem_affectedManifests.1 affected, editing⟩
    · rintro ⟨path, affected, editing⟩
      obtain ⟨edit?, member, again⟩ := each.exists_of_mem (mem_affectedManifests.2 affected)
      cases editing.symm.trans again
      exact member

/-- An edit is that of its own path. -/
theorem AreEdits.editOf {edits : List ManifestEdit} (areEdits : AreEdits tree scan approved edits)
    {edit : ManifestEdit} (member : edit ∈ edits) :
    IsAffected scan approved edit.path ∧
      Workspace.editOf tree scan approved edit.path = .ok (some edit) := by
  obtain ⟨path, affected, editing⟩ := (areEdits.mem_iff edit).1 member
  obtain ⟨_, _, _, _, ⟨_, none⟩ | ⟨other, same, isEdit⟩⟩ := manifest_of_editOf editing
  · cases none
  · cases same
    rw [isEdit.samePath]
    exact ⟨affected, editing⟩

theorem AreEdits.holds {edits : List ManifestEdit} (areEdits : AreEdits tree scan approved edits)
    {edit : ManifestEdit} (member : edit ∈ edits) :
    IsAffected scan approved edit.path ∧
      ∃ place executable manifest, HoldsManifest tree scan edit.path place executable manifest ∧
        IsEditOf scan approved edit.path manifest edit := by
  obtain ⟨affected, editing⟩ := areEdits.editOf member
  obtain ⟨place, executable, manifest, holds, ⟨_, none⟩ | ⟨other, same, isEdit⟩⟩ :=
    manifest_of_editOf editing
  · cases none
  · cases same
    exact ⟨affected, place, executable, manifest, holds, isEdit⟩

/-- Without edits there are no changes, and the other way round. -/
theorem AreEdits.changes_eq_nil_iff {edits : List ManifestEdit}
    (areEdits : AreEdits tree scan approved edits) :
    edits.flatMap ManifestEdit.changes = [] ↔ edits = [] := by
  constructor
  · intro none
    rw [List.flatMap_eq_nil_iff] at none
    refine List.eq_nil_iff_forall_not_mem.2 fun edit member => ?_
    obtain ⟨_, _, _, _, _, isEdit⟩ := areEdits.holds member
    exact isEdit.changes_ne_nil (none edit member)
  · rintro rfl
    rfl

/-- The changes are those of the affected manifests. -/
theorem AreEdits.mem_changes_iff {edits : List ManifestEdit}
    (areEdits : AreEdits tree scan approved edits) (change : DependencyChange) :
    change ∈ edits.flatMap ManifestEdit.changes ↔
      ∃ path place executable manifest, IsAffected scan approved path ∧
        HoldsManifest tree scan path place executable manifest ∧
        change ∈ (bumpRanges (scan.relative path) approved manifest).2 := by
  rw [List.mem_flatMap]
  constructor
  · rintro ⟨edit, member, changed⟩
    obtain ⟨affected, place, executable, manifest, holds, isEdit⟩ := areEdits.holds member
    exact ⟨edit.path, place, executable, manifest, affected, holds, isEdit.changes ▸ changed⟩
  · rintro ⟨path, place, executable, manifest, affected, holds, changed⟩
    obtain ⟨edit?, editing⟩ := areEdits.done path affected
    obtain ⟨place', executable', manifest', holds', cases⟩ := manifest_of_editOf editing
    rw [holds.unique holds'] at changed
    rcases cases with ⟨empty, _⟩ | ⟨edit, rfl, isEdit⟩
    · rw [empty] at changed
      cases changed
    · exact ⟨edit, (areEdits.mem_iff edit).2 ⟨path, affected, editing⟩, isEdit.changes ▸ changed⟩

end Edits

/-! ## Where edits are written -/

/-- The slot of a manifest. -/
def manifestSlot (tree : FileTree) (path : Path) : Slot where
  dir :=
    match tree.locate path with
    | .ok place => place.dropLast
    | .error _ => []
  name := manifestFile

/-- A place beside a manifest of a scan where its new content is staged. -/
def BesideManifest (tree : FileTree) (scan : Scan) (place : Place) : Prop :=
  ∃ path ∈ scan.manifests, ∃ slot : Slot, slot.name = manifestFile ∧
    tree.locate path = .ok slot.target ∧ place = slot.sibling

/-- Manifests that denote different files. -/
def DistinctManifests (tree : FileTree) (scan : Scan) : Prop :=
  scan.manifests.Pairwise fun first second =>
    ∀ place, tree.locate first = .ok place → tree.locate second ≠ .ok place

theorem DistinctManifests.eq_of_locate {tree : FileTree} {scan : Scan}
    (distinct : DistinctManifests tree scan) {first second : Path} {place : Place}
    (member : first ∈ scan.manifests) (member' : second ∈ scan.manifests)
    (located : tree.locate first = .ok place) (located' : tree.locate second = .ok place) :
    first = second := by
  by_contra different
  have symmetric : Std.Symm fun first second : Path =>
      ∀ place, tree.locate first = .ok place → tree.locate second ≠ .ok place :=
    ⟨fun _ _ apart place located same => apart place same located⟩
  exact distinct.forall member member' different place located located'

theorem target_manifestSlot_ne_sibling (tree : FileTree) (first second : Path) :
    (manifestSlot tree first).target ≠ (manifestSlot tree second).sibling := by
  intro same
  obtain ⟨_, names⟩ := List.append_inj' same rfl
  have different : [manifestFile] ≠ [manifestFile ++ PendingWrite.stagedSuffix] := by decide
  exact different names

section Writes

variable {tree : FileTree} {scan : Scan} {approved : Table String}

/-- A write to a file that holds a manifest goes to the slot of the manifest. -/
theorem HoldsManifest.goesTo {path : Path} {place : Place} {executable : Bool}
    {manifest : Manifest} (holds : HoldsManifest tree scan path place executable manifest)
    (named : path.fileName? = some manifestFile) (content : String) :
    (manifestSlot tree path).target = place ∧
      FileTree.GoesTo tree ⟨path, content⟩ (manifestSlot tree path) := by
  obtain ⟨bytes, text, file, _, _⟩ := holds.holds
  obtain ⟨dir, name, rfl, lands⟩ := FileTree.lands_of_file holds.located file
  cases lands.fileName?.symm.trans named
  have slot : manifestSlot tree path = ⟨dir, manifestFile⟩ := by
    simp only [manifestSlot, holds.located, List.dropLast_concat]
  have plain : '/' ∉ manifestFile.toList := by decide
  rw [slot]
  exact ⟨rfl, lands, plain⟩

/-- The path of an edit leads to the target of its slot. -/
theorem AreEdits.locate_path {edits : List ManifestEdit}
    (areEdits : AreEdits tree scan approved edits)
    (named : ∀ path ∈ scan.manifests, path.fileName? = some manifestFile) {edit : ManifestEdit}
    (edited : edit ∈ edits) : tree.locate edit.path = .ok (manifestSlot tree edit.path).target := by
  obtain ⟨affected, _, _, _, holds, _⟩ := areEdits.holds edited
  rw [holds.located, (holds.goesTo (named _ affected.1) edit.after).1]

/-- Edits are written to the slots of their manifests. -/
theorem AreEdits.goesTo_manifestSlot {edits : List ManifestEdit}
    (areEdits : AreEdits tree scan approved edits)
    (named : ∀ path ∈ scan.manifests, path.fileName? = some manifestFile) :
    ∀ write ∈ edits.map ManifestEdit.write,
      FileTree.GoesTo tree write (manifestSlot tree write.path) := by
  intro write member
  obtain ⟨edit, edited, rfl⟩ := List.mem_map.1 member
  obtain ⟨affected, _, _, _, holds, _⟩ := areEdits.holds edited
  exact (holds.goesTo (named _ affected.1) _).2

/-- **The edits of distinct manifests do not disturb each other.** -/
theorem AreEdits.separate {edits : List ManifestEdit} (areEdits : AreEdits tree scan approved edits)
    (named : ∀ path ∈ scan.manifests, path.fileName? = some manifestFile)
    (distinct : DistinctManifests tree scan) :
    FileTree.Separate tree (fun write => manifestSlot tree write.path)
      (edits.map ManifestEdit.write) where
  goes := areEdits.goesTo_manifestSlot named
  distinct := by
    have paths : (edits.map ManifestEdit.path).Pairwise fun first second =>
        ∀ place, tree.locate first = .ok place → tree.locate second ≠ .ok place :=
      distinct.sublist (areEdits.paths.trans List.filter_sublist)
    rw [List.pairwise_map] at paths ⊢
    refine paths.imp_of_mem fun {first second} firstMember secondMember apart same => ?_
    refine apart _ (areEdits.locate_path named firstMember) ?_
    have equal : (manifestSlot tree first.path).target = (manifestSlot tree second.path).target :=
      congrArg Slot.target same
    rw [areEdits.locate_path named secondMember, equal]
  apart first _ second _ := target_manifestSlot_ne_sibling tree first.path second.path

theorem AreEdits.flat {edits : List ManifestEdit} (areEdits : AreEdits tree scan approved edits)
    (named : ∀ path ∈ scan.manifests, path.fileName? = some manifestFile) :
    ∀ write ∈ edits.map ManifestEdit.write,
      tree.entryAt? (manifestSlot tree write.path).target ≠ some .directory := by
  intro write member
  obtain ⟨edit, edited, rfl⟩ := List.mem_map.1 member
  obtain ⟨affected, place, executable, manifest, holds, _⟩ := areEdits.holds edited
  obtain ⟨content, text, file, _, _⟩ := holds.holds
  have target := (holds.goesTo (named _ affected.1) edit.after).1
  change tree.entryAt? (manifestSlot tree edit.path).target ≠ some .directory
  rw [target, file]
  simp

/-- A tree in which every affected manifest has its new ranges, and everything else but staged
contents is as in another tree. -/
structure Upgraded (tree : FileTree) (scan : Scan) (approved : Table String) (later : FileTree) :
    Prop where
  affected : ∀ path, IsAffected scan approved path →
    ∃ place executable manifest, HoldsManifest tree scan path place executable manifest ∧
      later.entryAt? place =
        if (bumpRanges (scan.relative path) approved manifest).2 = [] then tree.entryAt? place
        else some (.file
          (Text.encode (bumpRanges (scan.relative path) approved manifest).1.render) executable)
  others : ∀ place, ¬ BesideManifest tree scan place →
    (∀ path, IsAffected scan approved path → tree.locate path ≠ .ok place) →
      later.entryAt? place = tree.entryAt? place

/-- Siblings of edited manifests are beside manifests. -/
theorem AreEdits.besideManifest {edits : List ManifestEdit}
    (areEdits : AreEdits tree scan approved edits)
    (named : ∀ path ∈ scan.manifests, path.fileName? = some manifestFile) {place : Place}
    (sibling : FileTree.Siblings (fun write => manifestSlot tree write.path)
      (edits.map ManifestEdit.write) place) : BesideManifest tree scan place := by
  obtain ⟨write, member, rfl⟩ := sibling
  obtain ⟨edit, edited, rfl⟩ := List.mem_map.1 member
  exact ⟨edit.path, (areEdits.editOf edited).1.1, manifestSlot tree edit.path, rfl,
    areEdits.locate_path named edited, rfl⟩

/-- A place apart from the manifests is written to only where it is that of an edited one. -/
theorem AreEdits.not_touched {edits : List ManifestEdit}
    (areEdits : AreEdits tree scan approved edits)
    (named : ∀ path ∈ scan.manifests, path.fileName? = some manifestFile) {place : Place}
    (apart : ¬ BesideManifest tree scan place)
    (unedited : ∀ edit ∈ edits, tree.locate edit.path ≠ .ok place) :
    ¬ (FileTree.Siblings (fun write => manifestSlot tree write.path)
        (edits.map ManifestEdit.write) place ∨
      FileTree.Targets (fun write => manifestSlot tree write.path)
        (edits.map ManifestEdit.write) place) := by
  rintro (sibling | ⟨write, member, rfl⟩)
  · exact apart (areEdits.besideManifest named sibling)
  · obtain ⟨edit, edited, rfl⟩ := List.mem_map.1 member
    exact unedited edit edited (areEdits.locate_path named edited)

/-- A manifest without an edit is not written to. -/
theorem AreEdits.not_touched_of_none {edits : List ManifestEdit}
    (areEdits : AreEdits tree scan approved edits)
    (named : ∀ path ∈ scan.manifests, path.fileName? = some manifestFile)
    (distinct : DistinctManifests tree scan) {path : Path}
    (affected : IsAffected scan approved path)
    (unedited : Workspace.editOf tree scan approved path = .ok none)
    (located : tree.locate path = .ok (manifestSlot tree path).target) :
    ¬ (FileTree.Siblings (fun write => manifestSlot tree write.path)
        (edits.map ManifestEdit.write) (manifestSlot tree path).target ∨
      FileTree.Targets (fun write => manifestSlot tree write.path)
        (edits.map ManifestEdit.write) (manifestSlot tree path).target) := by
  rintro (⟨write, _, sibling⟩ | ⟨write, member, target⟩)
  · exact target_manifestSlot_ne_sibling tree path write.path sibling
  · obtain ⟨edit, edited, rfl⟩ := List.mem_map.1 member
    obtain ⟨affected', editing⟩ := areEdits.editOf edited
    have located' := areEdits.locate_path named edited
    have samePath : path = edit.path := by
      refine distinct.eq_of_locate affected.1 affected'.1 located ?_
      rw [located', target]
      rfl
    rw [← samePath, unedited] at editing
    cases editing

/-- A tree in which the edits have been written, and nothing else but staged contents has changed,
is the upgraded one. -/
theorem AreEdits.upgraded {edits : List ManifestEdit} (areEdits : AreEdits tree scan approved edits)
    (named : ∀ path ∈ scan.manifests, path.fileName? = some manifestFile)
    (distinct : DistinctManifests tree scan) {later : FileTree}
    (same : FileTree.SameOutside (fun place =>
      FileTree.Siblings (fun write => manifestSlot tree write.path)
          (edits.map ManifestEdit.write) place ∨
        FileTree.Targets (fun write => manifestSlot tree write.path)
          (edits.map ManifestEdit.write) place) tree later)
    (carried : ∀ write ∈ edits.map ManifestEdit.write, FileTree.Carries tree later write
      (manifestSlot tree write.path) (manifestSlot tree write.path).target) :
    Upgraded tree scan approved later where
  affected path affected := by
    obtain ⟨edit?, editing⟩ := areEdits.done path affected
    obtain ⟨place, executable, manifest, holds, edits?⟩ := manifest_of_editOf editing
    have target := (holds.goesTo (named _ affected.1) "").1
    refine ⟨place, executable, manifest, holds, ?_⟩
    rcases edits? with ⟨empty, rfl⟩ | ⟨edit, rfl, isEdit⟩
    · rw [if_pos empty, ← target]
      refine same.outside _ (areEdits.not_touched_of_none named distinct affected editing ?_)
      rw [holds.located, target]
    · have edited := (areEdits.mem_iff edit).2 ⟨path, affected, editing⟩
      obtain ⟨content, text, file, _, _⟩ := holds.holds
      obtain ⟨mode, held, keeps⟩ := carried edit.write (List.mem_map_of_mem edited)
      have slot : (manifestSlot tree edit.write.path).target = place := by
        rw [← target, ← isEdit.samePath]
        rfl
      rw [slot] at held keeps
      rw [if_neg (isEdit.changes ▸ isEdit.changes_ne_nil), held, keeps content executable file,
        ← isEdit.after]
      rfl
  others place apart unaffected :=
    same.outside place (areEdits.not_touched named apart fun edit edited =>
      unaffected edit.path (areEdits.editOf edited).1)

/-- Writing the edits upgrades the workspace, or fails and changes nothing but staged contents. -/
theorem AreEdits.writeAll {edits : List ManifestEdit} (areEdits : AreEdits tree scan approved edits)
    (named : ∀ path ∈ scan.manifests, path.fileName? = some manifestFile)
    (distinct : DistinctManifests tree scan) :
    ∃ later,
      (∃ error, tree.writeAll (edits.map ManifestEdit.write) = (.error error, later) ∧
        ∀ place, ¬ BesideManifest tree scan place →
          later.entryAt? place = tree.entryAt? place) ∨
      tree.writeAll (edits.map ManifestEdit.write) = (.ok (), later) ∧
        Upgraded tree scan approved later := by
  obtain ⟨later, ⟨error, failed, _, same⟩ | ⟨done, same, carried⟩⟩ :=
    FileTree.writeAll_outcome (areEdits.separate named distinct) (areEdits.flat named)
  · exact ⟨later, .inl ⟨error, failed, fun place apart =>
      same.outside place fun sibling => apart (areEdits.besideManifest named sibling)⟩⟩
  · exact ⟨later, .inr ⟨done, areEdits.upgraded named distinct same carried⟩⟩

/-- A tree in which edits have been written: every edited manifest has its new text and keeps its
mode, and everything else but staged contents is as in another tree. -/
structure AreWritten (tree : FileTree) (scan : Scan) (approved : Table String)
    (edits : List ManifestEdit) (later : FileTree) : Prop where
  each : ∀ edit ∈ edits, ∃ place executable manifest,
    HoldsManifest tree scan edit.path place executable manifest ∧
      IsEditOf scan approved edit.path manifest edit ∧
      later.entryAt? place = some (.file (Text.encode edit.after) executable)
  others : ∀ place, ¬ BesideManifest tree scan place →
    (∀ edit ∈ edits, tree.locate edit.path ≠ .ok place) →
      later.entryAt? place = tree.entryAt? place

/-- **Writing that succeeds writes every edit**, whether or not the manifests denote different
files. -/
theorem AreEdits.areWritten {edits : List ManifestEdit}
    (areEdits : AreEdits tree scan approved edits)
    (named : ∀ path ∈ scan.manifests, path.fileName? = some manifestFile) {later : FileTree}
    (done : tree.writeAll (edits.map ManifestEdit.write) = (.ok (), later)) :
    AreWritten tree scan approved edits later := by
  have separate := FileTree.separate_of_writeAll_ok (areEdits.goesTo_manifestSlot named)
    (fun first _ second _ => target_manifestSlot_ne_sibling tree first.path second.path)
    (areEdits.flat named) done
  obtain ⟨after, ⟨_, failed, _⟩ | ⟨written, same, carried⟩⟩ :=
    FileTree.writeAll_outcome separate (areEdits.flat named)
  · rw [done] at failed
    cases failed
  cases done.symm.trans written
  constructor
  · intro edit edited
    obtain ⟨affected, place, executable, manifest, holds, isEdit⟩ := areEdits.holds edited
    obtain ⟨content, text, file, _, _⟩ := holds.holds
    obtain ⟨mode, held, keeps⟩ := carried edit.write (List.mem_map_of_mem edited)
    have slot : (manifestSlot tree edit.write.path).target = place :=
      (holds.goesTo (named _ affected.1) edit.after).1
    rw [slot] at held keeps
    rw [keeps content executable file] at held
    exact ⟨place, executable, manifest, holds, isEdit, held⟩
  · intro place apart unedited
    exact same.outside place (areEdits.not_touched named apart unedited)

end Writes

/-! ## Upgrading -/

theorem changes_carriedOut (edits : List ManifestEdit) (result : Except Failure Unit) :
    (UpgradeOutcome.carriedOut edits result).changes = (UpgradeOutcome.planned edits).changes := by
  cases result <;> rfl

theorem previews_carriedOut (edits : List ManifestEdit) (result : Except Failure Unit) :
    (UpgradeOutcome.carriedOut edits result).previews =
      (UpgradeOutcome.planned edits).previews := by
  cases result <;> rfl

/-- What an upgrade that is carried out leaves behind: the tree handed to the installer is the
upgraded one, and the installer is called at the root if there are changes. -/
structure CarriedOut (world : World) (scan : Scan) (approved : Table String)
    (installer : Installer) (outcome : UpgradeOutcome) (handed : FileTree) (later : World) :
    Prop where
  upgraded : Upgraded world.files scan approved handed
  mem_changes_iff : ∀ change, change ∈ outcome.changes ↔
    ∃ path place executable manifest, IsAffected scan approved path ∧
      HoldsManifest world.files scan path place executable manifest ∧
      change ∈ (bumpRanges (scan.relative path) approved manifest).2
  installs : later.installs =
    if outcome.changes = [] then world.installs else world.installs ++ [scan.root]
  files : later.files =
    if outcome.changes = [] then handed else (installer scan.root handed).2

section Upgrade

variable {world : World} {scan : Scan} {approved : Table String} {installer : Installer}

/-- A dry run reports the edits and leaves the world alone. -/
theorem upgrade_dryRun {edits : List ManifestEdit}
    (edited : editsOf world.files scan approved = .ok edits) :
    upgrade world scan approved installer true = (.ok (.planned edits), world) := by
  rw [upgrade, edited]
  simp

theorem upgrade_of_editsOf_error {failure : Failure}
    (failed : editsOf world.files scan approved = .error failure) (dryRun : Bool) :
    upgrade world scan approved installer dryRun = (.error failure, world) := by
  rw [upgrade, failed]

/-- **What an upgrade can do**: fail over a manifest, plan edits, fail to write them, or write them
and call the installer. -/
theorem upgrade_cases (world : World) (scan : Scan) (approved : Table String)
    (installer : Installer) (dryRun : Bool) :
    (∃ failure, editsOf world.files scan approved = .error failure ∧
      upgrade world scan approved installer dryRun = (.error failure, world)) ∨
    ∃ edits, editsOf world.files scan approved = .ok edits ∧
      ((edits = [] ∨ dryRun = true) ∧
          upgrade world scan approved installer dryRun = (.ok (.planned edits), world) ∨
        dryRun = false ∧
          ((∃ error handed,
              world.files.writeAll (edits.map ManifestEdit.write) = (.error error, handed) ∧
              upgrade world scan approved installer dryRun =
                (.error (.manifest scan.root.text error.message), { world with files := handed })) ∨
            ∃ handed, world.files.writeAll (edits.map ManifestEdit.write) = (.ok (), handed) ∧
              upgrade world scan approved installer dryRun =
                (.ok (.carriedOut edits (installer scan.root handed).1),
                  ⟨(installer scan.root handed).2, world.installs ++ [scan.root]⟩))) := by
  cases edited : editsOf world.files scan approved with
  | error failure => exact .inl ⟨failure, rfl, upgrade_of_editsOf_error edited dryRun⟩
  | ok edits =>
      refine .inr ⟨edits, rfl, ?_⟩
      rw [upgrade, edited]
      by_cases planned : (edits.isEmpty || dryRun) = true
      · refine .inl ⟨?_, if_pos planned⟩
        simpa using planned
      · have live : dryRun = false := by
          rw [Bool.not_eq_true, Bool.or_eq_false_iff] at planned
          exact planned.2
        refine .inr ⟨live, ?_⟩
        simp only [if_neg planned]
        cases writing : world.files.writeAll (edits.map ManifestEdit.write) with
        | mk result handed =>
            cases result with
            | error error => exact .inl ⟨error, handed, rfl, rfl⟩
            | ok => exact .inr ⟨handed, rfl, rfl⟩

/-- The changes of an outcome are those of the edits. -/
theorem edits_of_upgrade {dryRun : Bool} {outcome : UpgradeOutcome} {later : World}
    (done : upgrade world scan approved installer dryRun = (.ok outcome, later)) :
    ∃ edits, editsOf world.files scan approved = .ok edits ∧
      outcome.changes = edits.flatMap ManifestEdit.changes := by
  obtain ⟨_, _, run⟩ | ⟨edits, edited, ⟨_, run⟩ | ⟨_, ⟨_, _, _, run⟩ | ⟨_, _, run⟩⟩⟩ :=
    upgrade_cases world scan approved installer dryRun
  all_goals
    rw [done] at run
    cases run
  · exact ⟨edits, edited, rfl⟩
  · exact ⟨edits, edited, changes_carriedOut _ _⟩

/-- A live run that succeeds has nothing to edit, or has written its edits and called the
installer. -/
theorem written_of_upgrade {outcome : UpgradeOutcome} {later : World}
    (done : upgrade world scan approved installer false = (.ok outcome, later)) :
    ∃ edits, editsOf world.files scan approved = .ok edits ∧
      (edits = [] ∧ later = world ∨
        ∃ handed, world.files.writeAll (edits.map ManifestEdit.write) = (.ok (), handed) ∧
          later.files = (installer scan.root handed).2) := by
  obtain ⟨_, _, run⟩ |
      ⟨edits, edited, ⟨none, run⟩ | ⟨_, ⟨_, _, _, run⟩ | ⟨handed, written, run⟩⟩⟩ :=
    upgrade_cases world scan approved installer false
  all_goals
    rw [done] at run
    cases run
  · exact ⟨edits, edited, .inl ⟨none.resolve_right Bool.false_ne_true, rfl⟩⟩
  · exact ⟨edits, edited, .inr ⟨handed, written, rfl⟩⟩

/-- A run that has nothing to edit does nothing. -/
theorem upgrade_of_no_edits {dryRun : Bool} (none : editsOf world.files scan approved = .ok []) :
    upgrade world scan approved installer dryRun = (.ok (.planned []), world) := by
  rw [upgrade, none]
  rfl

/-- An upgrade that fails has not called the installer. -/
theorem installs_of_upgrade_error {dryRun : Bool} {failure : Failure} {later : World}
    (failed : upgrade world scan approved installer dryRun = (.error failure, later)) :
    later.installs = world.installs := by
  obtain ⟨_, _, run⟩ | ⟨_, _, ⟨_, run⟩ | ⟨_, ⟨_, _, _, run⟩ | ⟨_, _, run⟩⟩⟩ :=
    upgrade_cases world scan approved installer dryRun
  all_goals
    rw [failed] at run
    cases run
  · rfl
  · rfl

/-- An installer that failed was called in a live run, after the edits were written. -/
theorem written_of_installError {dryRun : Bool} {outcome : UpgradeOutcome} {later : World}
    (done : upgrade world scan approved installer dryRun = (.ok outcome, later))
    {failure : Failure} (failed : outcome.installError = some failure) :
    dryRun = false ∧ ∃ edits handed, editsOf world.files scan approved = .ok edits ∧
      world.files.writeAll (edits.map ManifestEdit.write) = (.ok (), handed) ∧
      (installer scan.root handed).1 = .error failure ∧
      outcome.changes = edits.flatMap ManifestEdit.changes ∧
      later = ⟨(installer scan.root handed).2, world.installs ++ [scan.root]⟩ := by
  obtain ⟨_, _, run⟩ |
      ⟨edits, edited, ⟨_, run⟩ | ⟨live, ⟨_, _, _, run⟩ | ⟨handed, written, run⟩⟩⟩ :=
    upgrade_cases world scan approved installer dryRun
  all_goals
    rw [done] at run
    cases run
  · cases failed
  · refine ⟨live, edits, handed, edited, written, ?_, changes_carriedOut _ _, rfl⟩
    cases ended : (installer scan.root handed).1 with
    | ok =>
        rw [ended] at failed
        cases failed
    | error other =>
        rw [ended] at failed
        exact congrArg Except.error (Option.some.inj failed)

/-- Without edits nothing is carried out. -/
theorem Upgraded.refl_of_no_edits {tree : FileTree} (areEdits : AreEdits tree scan approved []) :
    Upgraded tree scan approved tree where
  affected path affected := by
    obtain ⟨edit?, editing⟩ := areEdits.done path affected
    obtain ⟨place, executable, manifest, holds, ⟨empty, _⟩ | ⟨edit, rfl, _⟩⟩ :=
      manifest_of_editOf editing
    · exact ⟨place, executable, manifest, holds, (if_pos empty).symm⟩
    · exact absurd ((areEdits.mem_iff edit).2 ⟨path, affected, editing⟩) List.not_mem_nil
  others _ _ _ := rfl

/-- **A live run** fails with everything but staged contents as it was, or upgrades the workspace
and reports what a dry run reports. -/
theorem upgrade_live {edits : List ManifestEdit} (installer : Installer)
    (named : ∀ path ∈ scan.manifests, path.fileName? = some manifestFile)
    (distinct : DistinctManifests world.files scan)
    (edited : editsOf world.files scan approved = .ok edits) :
    (∃ failure later, upgrade world scan approved installer false = (.error failure, later) ∧
      later.installs = world.installs ∧
      ∀ place, ¬ BesideManifest world.files scan place →
        later.files.entryAt? place = world.files.entryAt? place) ∨
    ∃ outcome handed later, upgrade world scan approved installer false = (.ok outcome, later) ∧
      outcome.changes = (UpgradeOutcome.planned edits).changes ∧
      outcome.previews = (UpgradeOutcome.planned edits).previews ∧
      CarriedOut world scan approved installer outcome handed later := by
  have areEdits := areEdits_of_editsOf edited
  have changes : (UpgradeOutcome.planned edits).changes = [] ↔ edits = [] :=
    areEdits.changes_eq_nil_iff
  by_cases none : edits = []
  · subst none
    refine .inr ⟨.planned [], world.files, world, ?_, rfl, rfl, ?_⟩
    · rw [upgrade, edited]
      rfl
    · exact ⟨.refl_of_no_edits areEdits, areEdits.mem_changes_iff, rfl, rfl⟩
  · obtain ⟨handed, ⟨error, failed, same⟩ | ⟨done, upgraded⟩⟩ := areEdits.writeAll named distinct
    · refine .inl ⟨.manifest scan.root.text error.message, { world with files := handed }, ?_, rfl,
        same⟩
      simp only [upgrade, edited, List.isEmpty_iff, none, Bool.or_false, failed]
      rfl
    · let installed := installer scan.root handed
      refine .inr ⟨.carriedOut edits installed.1, handed,
        ⟨installed.2, world.installs ++ [scan.root]⟩, ?_, changes_carriedOut _ _,
        previews_carriedOut _ _, ?_⟩
      · simp only [upgrade, edited, List.isEmpty_iff, none, Bool.or_false, done, World.install]
        rfl
      · have someChanges : (UpgradeOutcome.carriedOut edits installed.1).changes ≠ [] := by
          rw [changes_carriedOut, ne_eq, changes]
          exact none
        refine ⟨upgraded, ?_, (if_neg someChanges).symm, (if_neg someChanges).symm⟩
        rw [changes_carriedOut]
        exact areEdits.mem_changes_iff

/-- **Upgrading is all or nothing, and complete.**  For manifests that denote different files of
the usual name, and an installer that leaves manifests alone:

- a dry run leaves the world as it was;
- a run that fails calls no installer and leaves every place as it was, staged contents apart;
- a live run that succeeds upgrades every affected manifest and nothing else, and calls the
  installer once, at the root, if there are changes;
- a dry run fails as the live run does or reports the changes and previews of the live run. -/
theorem upgrade_all_or_nothing (world : World) {scan : Scan} (approved : Table String)
    (installer : Installer)
    (named : ∀ path ∈ scan.manifests, path.fileName? = some manifestFile)
    (distinct : DistinctManifests world.files scan)
    (quiet : ∀ tree, ∀ path ∈ scan.manifests, ∀ place, world.files.locate path = .ok place →
      (installer scan.root tree).2.entryAt? place = tree.entryAt? place) :
    (upgrade world scan approved installer true).2 = world ∧
    (∀ failure later, upgrade world scan approved installer false = (.error failure, later) →
      later.installs = world.installs ∧
      ∀ place, ¬ BesideManifest world.files scan place →
        later.files.entryAt? place = world.files.entryAt? place) ∧
    (∀ outcome later, upgrade world scan approved installer false = (.ok outcome, later) →
      ∃ handed, CarriedOut world scan approved installer outcome handed later ∧
        ∀ path ∈ scan.manifests, ∀ place, world.files.locate path = .ok place →
          later.files.entryAt? place = handed.entryAt? place) ∧
    (∀ failure, (upgrade world scan approved installer true).1 = .error failure →
      (upgrade world scan approved installer false).1 = .error failure) ∧
    (∀ outcome, (upgrade world scan approved installer false).1 = .ok outcome →
      ∃ planned, (upgrade world scan approved installer true).1 = .ok planned ∧
        planned.changes = outcome.changes ∧ planned.previews = outcome.previews) := by
  cases edited : editsOf world.files scan approved with
  | error failure =>
      rw [upgrade_of_editsOf_error edited true, upgrade_of_editsOf_error edited false]
      refine ⟨rfl, ?_, ?_, fun _ same => same, ?_⟩
      · intro failure' later same
        cases same
        exact ⟨rfl, fun _ _ => rfl⟩
      · intro outcome later same
        cases same
      · intro outcome same
        cases same
  | ok edits =>
      rw [upgrade_dryRun edited]
      obtain ⟨failure, after, run, installs, files⟩ | ⟨outcome, handed, after, run, changes,
        previews, carriedOut⟩ := upgrade_live installer named distinct edited
      · rw [run]
        refine ⟨rfl, ?_, ?_, ?_, ?_⟩
        · intro failure' later same
          cases same
          exact ⟨installs, files⟩
        · intro outcome later same
          cases same
        · intro failure' same
          cases same
        · intro outcome same
          cases same
      · rw [run]
        refine ⟨rfl, ?_, ?_, ?_, ?_⟩
        · intro failure later same
          cases same
        · intro outcome' later same
          cases same
          refine ⟨handed, carriedOut, fun path member place located => ?_⟩
          rw [carriedOut.files]
          split
          · rfl
          · exact quiet handed path member place located
        · intro failure same
          cases same
        · intro outcome' same
          cases same
          exact ⟨_, rfl, changes.symm, previews.symm⟩

end Upgrade

/-! ## A workspace of two manifests -/

/-- A root manifest that declares a package, and a member that declares none. -/
def twoManifests : FileTree :=
  .directory [
    ("package.json",
      .file (Text.encode "\x7b\"dependencies\": \x7b\"a\": \"^1.0.0\"\x7d\x7d") false),
    ("lib", .directory [("package.json", .file (Text.encode "\x7b\x7d") true)])]

/-- A scan of the two manifests in which both are listed for the package. -/
def twoManifestsScan : Scan :=
  let paths : List Path := [⟨["", "package.json"]⟩, ⟨["", "lib", "package.json"]⟩]
  { Scan.empty with
    root := ⟨["", ""]⟩, manifests := paths, manifestsByPackage := Table.ofList [("a", paths)] }

/-- An installer that does nothing. -/
def idleInstaller : Installer :=
  fun _ tree => (.ok (), tree)

theorem changes_twoManifests :
    (upgrade ⟨twoManifests, []⟩ twoManifestsScan (Table.ofList [("a", "1.2.0")])
        idleInstaller false).1.toOption.map UpgradeOutcome.changes =
      some [⟨"package.json", "dependencies", "a", "^1.0.0", "^1.2.0"⟩] := by
  decide +kernel

theorem upgrade_all_or_nothing_twoManifests :
    (∀ path ∈ twoManifestsScan.manifests, path.fileName? = some manifestFile) ∧
    DistinctManifests twoManifests twoManifestsScan ∧
    ∃ outcome handed later,
      upgrade ⟨twoManifests, []⟩ twoManifestsScan (Table.ofList [("a", "1.2.0")]) idleInstaller
        false = (.ok outcome, later) ∧
      outcome.changes = [⟨"package.json", "dependencies", "a", "^1.0.0", "^1.2.0"⟩] ∧
      CarriedOut ⟨twoManifests, []⟩ twoManifestsScan (Table.ofList [("a", "1.2.0")]) idleInstaller
        outcome handed later := by
  have named : ∀ path ∈ twoManifestsScan.manifests, path.fileName? = some manifestFile := by
    decide
  have distinct : DistinctManifests twoManifests twoManifestsScan := by
    refine List.pairwise_pair.2 fun place located same => ?_
    have equal : (.ok ["package.json"] : Except FileError Place) = .ok ["lib", "package.json"] :=
      located.trans same.symm
    simp at equal
  have results := upgrade_all_or_nothing ⟨twoManifests, []⟩ (Table.ofList [("a", "1.2.0")])
    idleInstaller named distinct fun _ _ _ _ _ => rfl
  have changes := changes_twoManifests
  refine ⟨named, distinct, ?_⟩
  generalize upgrade ⟨twoManifests, []⟩ twoManifestsScan (Table.ofList [("a", "1.2.0")])
    idleInstaller false = run at changes results ⊢
  obtain ⟨_ | outcome, later⟩ := run
  · cases changes
  · obtain ⟨handed, carriedOut, _⟩ := results.2.2.1 outcome later rfl
    exact ⟨outcome, handed, later, rfl, Option.some.inj changes, carriedOut⟩

end Uplift.Workspace
