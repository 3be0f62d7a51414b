import Uplift.Proofs.Codemod.Coverage
import Uplift.Proofs.Codemod.Outcome
import Uplift.Proofs.FileTree.Sweeping
import Uplift.Proofs.Text.Cutting

/-!
# Rewrites that are tried and rewrites that are made

The edits of a plan are of different files (`pairwise_edits`), and none has the name of a staged
file (`exists_isEditOf`), so they do not disturb each other when they are written
(`separate_edits`).  Rewriting therefore reports what a dry run reports and leaves the plan written,
or stops when an edit cannot be staged, and then has changed nothing but staged files
(`run_agrees`).

What lies beside a planned file under the name of its staged file is written over, and does not
outlast a rewriting that succeeds (`leftover_is_lost`).
-/

set_option autoImplicit false

namespace Uplift.Codemod

namespace Imports

open FileTree (Place Opens Lands SameOutside comparePlaces slotOf)

/-! ## Files that are edited -/

/-- An edit is of a file whose name is not that of a staged file. -/
structure IsEditOf (tree : FileTree) (edit : FileEdit) (place : Place) : Prop where
  located : tree.locate edit.path = .ok place
  file : ∃ content executable, tree.entryAt? place = some (.file content executable)
  unstaged : ∀ name, edit.path.fileName? ≠ some (name ++ PendingWrite.stagedSuffix)

namespace IsEditOf

variable {tree : FileTree} {edit other : FileEdit} {place place' : Place}

theorem fileName? {dir : Place} {name : String} (isEdit : IsEditOf tree edit (dir ++ [name])) :
    edit.path.fileName? = some name := by
  obtain ⟨content, executable, file⟩ := isEdit.file
  obtain ⟨dir', name', same, lands⟩ := FileTree.lands_of_file isEdit.located file
  obtain ⟨_, names⟩ := List.append_inj' same rfl
  rw [List.singleton_inj.1 names]
  exact lands.fileName?

/-- The write of an edit goes to the slot of the file. -/
theorem goesTo (isEdit : IsEditOf tree edit place) (wellFormed : tree.WellFormed) :
    (slotOf tree edit.path).target = place ∧
      FileTree.GoesTo tree edit.write (slotOf tree edit.path) := by
  obtain ⟨content, executable, file⟩ := isEdit.file
  exact FileTree.goesTo_slotOf wellFormed isEdit.located file edit.after

theorem slotOf_ne (isEdit : IsEditOf tree edit place) (isOther : IsEditOf tree other place')
    (wellFormed : tree.WellFormed) (different : place ≠ place') :
    slotOf tree edit.path ≠ slotOf tree other.path := by
  intro same
  rw [← (isEdit.goesTo wellFormed).1, ← (isOther.goesTo wellFormed).1, same] at different
  exact different rfl

/-- No edited file is where another is staged. -/
theorem target_ne_sibling (isEdit : IsEditOf tree edit place) (wellFormed : tree.WellFormed)
    (slot : FileTree.Slot) : (slotOf tree edit.path).target ≠ slot.sibling := by
  intro same
  obtain ⟨_, names⟩ := List.append_inj' same rfl
  refine isEdit.unstaged slot.name ?_
  rw [← List.singleton_inj.1 names]
  exact (isEdit.goesTo wellFormed).2.lands.fileName?

end IsEditOf

/-- A source does not have the name of a staged file. -/
theorem fileName?_ne_staged {file : Path} {dialect : Source.Dialect}
    (source : Source.Dialect.ofPath? file = some dialect) (name : String) :
    file.fileName? ≠ some (name ++ PendingWrite.stagedSuffix) := by
  intro named
  have suffix : PendingWrite.stagedSuffix.toList = '.' :: "migrasaurus-staged".toList := by
    decide
  have cut : Text.splitLast? '.' (name ++ PendingWrite.stagedSuffix).toList =
      some (name.toList, "migrasaurus-staged".toList) := by
    rw [String.toList_append, suffix]
    exact Text.splitLast?_append (by decide) _
  have extension : file.extension? =
      if name.toList.isEmpty then none else some (String.ofList "migrasaurus-staged".toList) := by
    rw [Path.extension?, named]
    change (Text.splitLast? '.' (name ++ PendingWrite.stagedSuffix).toList).bind _ = _
    rw [cut]
    rfl
  have none : Source.Dialect.ofPath? file = none := by
    rw [Source.Dialect.ofPath?, extension]
    split <;> decide
  rw [none] at source
  cases source

theorem manifestFile_ne_staged (name : String) :
    manifestFile ≠ name ++ PendingWrite.stagedSuffix := by
  intro same
  have lengths := congrArg String.length same
  rw [String.length_append] at lengths
  have short : manifestFile.length < PendingWrite.stagedSuffix.length := by decide
  omega

section Plans

variable {read : Source.Reading} {tree : FileTree} {target : Path} {spec : Spec}

theorem manifests_plan : (plan read tree target spec).manifests =
    (ownersOf (findingsOf read tree target spec)).filterMap fun dir =>
      (packageEdit? tree target spec (findingsOf read tree target spec) dir).bind
        Except.toOption := by
  rw [plan]
  exact List.filterMap_filterMap

end Plans

section Edits

variable {read : Source.Reading} {tree : FileTree} {target : Path} {spec : Spec}
  (wellFormed : tree.WellFormed)
include wellFormed

/-- The edit of a source is of the file at its place. -/
theorem isEditOf_of_mem_sourcesOf {entry : Place × Contribution} {edit : FileEdit}
    (member : entry ∈ sourcesOf read tree target spec) (changed : entry.2.changed? = some edit) :
    ∃ top, tree.locate target = .ok top ∧ IsEditOf tree edit (top ++ entry.1) ∧
      edit.path.fileName? ≠ some manifestFile := by
  obtain ⟨names, contribution⟩ := entry
  obtain ⟨⟨dialect, content, source⟩, contributes⟩ := sourceAt_of_mem_sourcesOf wellFormed member
  obtain ⟨top, executable, located, there⟩ := source.found
  cases contributes <;> cases changed
  exact ⟨top, located, ⟨locate_below wellFormed located there,
    ⟨content, executable, (FileTree.entryAt?_eq_file_iff _ _ _ _).2 there⟩,
    fileName?_ne_staged source.dialect⟩, fileName?_ne_of_dialect source.dialect⟩

/-- The edit of a manifest is of the manifest in the directory of its package. -/
theorem isEditOf_of_mem_ownersOf {dir : Path} {edit : FileEdit}
    (isOwner : dir ∈ ownersOf (findingsOf read tree target spec))
    (planned : (packageEdit? tree target spec (findingsOf read tree target spec) dir).bind
      Except.toOption = some edit) :
    ∃ place, Opens tree dir place ∧ IsEditOf tree edit (place ++ [manifestFile]) := by
  obtain ⟨result, packaged, isOk⟩ := Option.bind_eq_some_iff.1 planned
  cases Results.toOption_eq_some_iff.1 isOk
  obtain ⟨path, done⟩ := packageEdit?_ok packaged
  obtain ⟨_, _, text, _⟩ := manifestEdit_eq_some done
  have held := FileTree.hasFile_of_readText text
  rw [path] at held
  obtain ⟨place, opens, _⟩ := exists_accounted wellFormed isOwner held
  have has := (hasFile_joinText_iff opens).1 held
  refine ⟨place, opens, path ▸ locate_manifest opens has, ?_, fun name named => ?_⟩
  · obtain ⟨content, executable, there⟩ := has
    exact ⟨content, executable, (FileTree.entryAt?_eq_file_iff _ _ _ _).2 there⟩
  · rw [path, (opens.lands isEntryName_manifestFile).fileName?] at named
    exact manifestFile_ne_staged name (Option.some.inj named)

/-- Every edit of a plan is of a file. -/
theorem exists_isEditOf {edit : FileEdit} (planned : edit ∈ (plan read tree target spec).edits) :
    ∃ place, IsEditOf tree edit place := by
  rcases List.mem_append.1 planned with planned | planned
  · rw [files_plan] at planned
    obtain ⟨entry, member, changed⟩ := List.mem_filterMap.1 planned
    obtain ⟨top, _, isEdit, _⟩ := isEditOf_of_mem_sourcesOf wellFormed member changed
    exact ⟨_, isEdit⟩
  · rw [manifests_plan] at planned
    obtain ⟨dir, isOwner, packaged⟩ := List.mem_filterMap.1 planned
    obtain ⟨place, _, isEdit⟩ := isEditOf_of_mem_ownersOf wellFormed isOwner packaged
    exact ⟨_, isEdit⟩

/-! ## Edits of different files -/

/-- Sources have different places. -/
theorem pairwise_files :
    (plan read tree target spec).files.Pairwise fun first second =>
      slotOf tree first.path ≠ slotOf tree second.path := by
  rw [files_plan, List.pairwise_filterMap]
  have ascending : ((sourcesOf read tree target spec).map Prod.fst).Pairwise fun first second =>
      comparePlaces first second = .lt := by
    rw [map_fst_sourcesOf]
    exact (pairwise_placesBelow wellFormed).filter _
  refine (List.pairwise_map.1 ascending).imp_of_mem ?_
  intro first second member member' before edit changed edit' changed'
  obtain ⟨top, located, isEdit, _⟩ := isEditOf_of_mem_sourcesOf wellFormed member changed
  obtain ⟨top', located', isEdit', _⟩ := isEditOf_of_mem_sourcesOf wellFormed member' changed'
  cases located.symm.trans located'
  refine isEdit.slotOf_ne isEdit' wellFormed fun same => ?_
  have equal : List.compareLex compare second.1 second.1 = .eq := Std.ReflCmp.compare_self
  rw [List.append_cancel_left same, FileTree.comparePlaces_eq, equal] at before
  cases before

omit wellFormed in
/-- Nothing is below a target that is a manifest. -/
theorem IsManifest.ne_below {place top : Place} {dir : Path}
    (isManifest : IsManifest tree target place dir) (located : tree.locate target = .ok top)
    (names : Place) : place ≠ top ++ names := by
  obtain ⟨content, executable, file⟩ := isManifest.file
  cases located.symm.trans (isManifest.lands.locate (FileTree.entryAt?_ne_none file))
  intro same
  simpa using congrArg List.length same

/-- Packages with manifests that open the same directory are the same. -/
theorem same_of_opens {first second : Path} {place : Place}
    (isOwner : first ∈ ownersOf (findingsOf read tree target spec))
    (isOwner' : second ∈ ownersOf (findingsOf read tree target spec))
    (opens : Opens tree first place) (opens' : Opens tree second place)
    (has : HasManifest tree place) : first.same second = true := by
  have unique : ∀ {dir : Path} {place other : Place}, Opens tree dir place →
      Opens tree dir other → place = other := by
    intro dir place other opens opens'
    rw [Opens] at opens opens'
    exact Except.ok.inj (opens.symm.trans opens')
  obtain ⟨top, names, located, stands⟩ | ⟨here, isManifest⟩ :=
    owner_cases wellFormed isOwner ((hasFile_joinText_iff opens).2 has)
  · have there := unique opens stands.opens
    obtain ⟨top', names', located', stands'⟩ | ⟨here, isManifest⟩ :=
      owner_cases wellFormed isOwner' ((hasFile_joinText_iff opens').2 has)
    · cases located.symm.trans located'
      have equal := there.symm.trans (unique opens' stands'.opens)
      rw [Path.same_iff, stands.components, stands'.components, List.append_cancel_left equal]
    · exact absurd (unique isManifest.opens opens' |>.trans there) (isManifest.ne_below located _)
  · have there := unique isManifest.opens opens
    obtain ⟨top, names, located, stands⟩ | ⟨here', isManifest'⟩ :=
      owner_cases wellFormed isOwner' ((hasFile_joinText_iff opens').2 has)
    · exact absurd (there.trans (unique opens' stands.opens)) (isManifest.ne_below located _)
    · cases isManifest.parent.symm.trans isManifest'.parent
      exact Path.same_iff.2 rfl

/-- Packages have different manifests. -/
theorem pairwise_manifests :
    (plan read tree target spec).manifests.Pairwise fun first second =>
      slotOf tree first.path ≠ slotOf tree second.path := by
  rw [manifests_plan, List.pairwise_filterMap]
  refine (pairwise_ownersOf _).imp_of_mem ?_
  intro first second isOwner isOwner' different edit packaged edit' packaged'
  obtain ⟨place, opens, isEdit⟩ := isEditOf_of_mem_ownersOf wellFormed isOwner packaged
  obtain ⟨place', opens', isEdit'⟩ := isEditOf_of_mem_ownersOf wellFormed isOwner' packaged'
  refine isEdit.slotOf_ne isEdit' wellFormed fun same => ?_
  obtain rfl := List.append_cancel_right same
  rw [same_of_opens wellFormed isOwner isOwner' opens opens' ?_] at different
  · cases different
  · obtain ⟨content, executable, file⟩ := isEdit.file
    exact ⟨content, executable, (FileTree.entryAt?_eq_file_iff _ _ _ _).1 file⟩

/-- **The edits of a plan are of different files.** -/
theorem pairwise_edits :
    (plan read tree target spec).edits.Pairwise fun first second =>
      slotOf tree first.path ≠ slotOf tree second.path := by
  refine List.pairwise_append.2
    ⟨pairwise_files wellFormed, pairwise_manifests wellFormed, fun edit file edit' manifest => ?_⟩
  rw [files_plan] at file
  rw [manifests_plan] at manifest
  obtain ⟨entry, member, changed⟩ := List.mem_filterMap.1 file
  obtain ⟨dir, isOwner, packaged⟩ := List.mem_filterMap.1 manifest
  obtain ⟨top, _, isEdit, unnamed⟩ := isEditOf_of_mem_sourcesOf wellFormed member changed
  obtain ⟨place, _, isEdit'⟩ := isEditOf_of_mem_ownersOf wellFormed isOwner packaged
  refine isEdit.slotOf_ne isEdit' wellFormed fun same => unnamed ?_
  rw [same] at isEdit
  exact isEdit.fileName?

variable (read target spec) in
/-- **The edits of a plan do not disturb each other** when they are written. -/
theorem separate_edits :
    FileTree.Separate tree (fun write => slotOf tree write.path)
      ((plan read tree target spec).edits.map FileEdit.write) where
  goes write member := by
    obtain ⟨edit, planned, rfl⟩ := List.mem_map.1 member
    obtain ⟨place, isEdit⟩ := exists_isEditOf wellFormed planned
    exact (isEdit.goesTo wellFormed).2
  distinct := List.pairwise_map.2 (pairwise_edits wellFormed)
  apart first member second _ := by
    obtain ⟨edit, planned, rfl⟩ := List.mem_map.1 member
    obtain ⟨place, isEdit⟩ := exists_isEditOf wellFormed planned
    exact isEdit.target_ne_sibling wellFormed _

variable (read target spec) in
/-- Edits are written to files. -/
theorem files_edits :
    ∀ write ∈ (plan read tree target spec).edits.map FileEdit.write, ∃ content executable,
      tree.entryAt? (slotOf tree write.path).target = some (.file content executable) := by
  intro write member
  obtain ⟨edit, planned, rfl⟩ := List.mem_map.1 member
  obtain ⟨place, isEdit⟩ := exists_isEditOf wellFormed planned
  change ∃ content executable, tree.entryAt? (slotOf tree edit.path).target = _
  rw [(isEdit.goesTo wellFormed).1]
  exact isEdit.file

end Edits

/-! ## Trees in which a plan was written -/

namespace Plan

/-- A place beside a planned file, under the name of its staged file. -/
def Beside (plan : Plan) (tree : FileTree) (place : Place) : Prop :=
  ∃ edit ∈ plan.edits, ∃ dir name, tree.locate edit.path = .ok (dir ++ [name]) ∧
    place = dir ++ [name ++ PendingWrite.stagedSuffix]

/-- A tree in which a plan was written. -/
structure Written (plan : Plan) (tree later : FileTree) : Prop where
  /-- Every planned file has its planned content, with the mode it had. -/
  planned : ∀ edit ∈ plan.edits, ∃ place content executable,
    tree.locate edit.path = .ok place ∧ tree.get? place = some (.file content executable) ∧
      later.get? place = some (.file (Text.encode edit.after) executable)
  /-- Other places are as they were. -/
  others : ∀ place, (∀ edit ∈ plan.edits, tree.locate edit.path ≠ .ok place) →
    ¬ plan.Beside tree place → later.entryAt? place = tree.entryAt? place
  /-- Nothing is left under the name of a staged file. -/
  swept : ∀ place, plan.Beside tree place → later.entryAt? place = none

end Plan

section Main

variable {tree : FileTree} (wellFormed : tree.WellFormed) (read : Source.Reading) (target : Path)
  (spec : Spec)
include wellFormed

/-- What is staged lies beside the planned files. -/
theorem beside_iff (place : Place) :
    (plan read tree target spec).Beside tree place ↔
      FileTree.Siblings (fun write => slotOf tree write.path)
        ((plan read tree target spec).edits.map FileEdit.write) place := by
  constructor
  · rintro ⟨edit, planned, dir, name, located, rfl⟩
    refine ⟨edit.write, List.mem_map_of_mem planned, ?_⟩
    have slot : slotOf tree edit.path = ⟨dir, name⟩ := by
      simp [slotOf, located]
    change _ = (slotOf tree edit.path).sibling
    rw [slot]
    rfl
  · rintro ⟨_, member, rfl⟩
    obtain ⟨edit, planned, rfl⟩ := List.mem_map.1 member
    obtain ⟨place, isEdit⟩ := exists_isEditOf wellFormed planned
    refine ⟨edit, planned, (slotOf tree edit.path).dir, (slotOf tree edit.path).name, ?_, rfl⟩
    rw [isEdit.located, ← (isEdit.goesTo wellFormed).1]
    rfl

/-- Where every target carries its write, siblings are gone and nothing else has changed, the plan
is written. -/
theorem written_of_carries {later : FileTree}
    (same : SameOutside (fun place =>
      FileTree.Siblings (fun write => slotOf tree write.path)
        ((plan read tree target spec).edits.map FileEdit.write) place ∨
      FileTree.Targets (fun write => slotOf tree write.path)
        ((plan read tree target spec).edits.map FileEdit.write) place) tree later)
    (carried : ∀ write ∈ (plan read tree target spec).edits.map FileEdit.write,
      FileTree.Carries tree later write (slotOf tree write.path) (slotOf tree write.path).target)
    (gone : ∀ write ∈ (plan read tree target spec).edits.map FileEdit.write,
      later.entryAt? (slotOf tree write.path).sibling = none) :
    (plan read tree target spec).Written tree later where
  planned edit planned := by
    obtain ⟨place, isEdit⟩ := exists_isEditOf wellFormed planned
    obtain ⟨content, executable, file⟩ := isEdit.file
    obtain ⟨mode, held, kept⟩ := carried edit.write (List.mem_map_of_mem planned)
    have target := (isEdit.goesTo wellFormed).1
    change (slotOf tree edit.write.path).target = place at target
    rw [target] at held kept
    rw [kept content executable file] at held
    exact ⟨place, content, executable, isEdit.located,
      (FileTree.entryAt?_eq_file_iff _ _ _ _).1 file,
      (FileTree.entryAt?_eq_file_iff _ _ _ _).1 held⟩
  others place unplanned apart := by
    refine same.outside place (not_or.2 ⟨fun sibling => apart ?_, ?_⟩)
    · exact (beside_iff wellFormed read target spec place).2 sibling
    · rintro ⟨_, member, rfl⟩
      obtain ⟨edit, planned, rfl⟩ := List.mem_map.1 member
      obtain ⟨place, isEdit⟩ := exists_isEditOf wellFormed planned
      refine unplanned edit planned ?_
      change _ = Except.ok (slotOf tree edit.path).target
      rw [isEdit.located, (isEdit.goesTo wellFormed).1]
  swept place inside := by
    obtain ⟨write, member, rfl⟩ := (beside_iff wellFormed read target spec place).1 inside
    exact gone write member

/-- Writing the edits of a plan leaves the plan written, or changes nothing but staged files because
an edit could not be staged. -/
theorem writeAll_edits :
    ∃ later,
      tree.writeAll ((plan read tree target spec).edits.map FileEdit.write) = (.ok (), later) ∧
          (plan read tree target spec).Written tree later ∨
        ∃ error,
          tree.writeAll ((plan read tree target spec).edits.map FileEdit.write) =
            (.error error, later) ∧
          tree.stageAll [] ((plan read tree target spec).edits.map FileEdit.write) =
            (.error error, later) ∧
          SameOutside ((plan read tree target spec).Beside tree) tree later := by
  have separate := separate_edits read target spec wellFormed
  have files := files_edits read target spec wellFormed
  obtain ⟨later, ⟨error, failed, staging, same⟩ | ⟨done, same, carried⟩⟩ :=
    FileTree.writeAll_outcome separate fun write member => by
      obtain ⟨_, _, file⟩ := files write member
      simp [file]
  · exact ⟨later, .inr ⟨error, failed, staging,
      same.mono fun place => (beside_iff wellFormed read target spec place).2⟩⟩
  · refine ⟨later, .inl ⟨done, ?_⟩⟩
    refine written_of_carries wellFormed read target spec same carried fun write member => ?_
    by_contra there
    have present := (FileTree.swept_of_writeAll_ok separate files done).present
    exact ((present _).1 there).2 (List.mem_map_of_mem member)

/-- **Rewriting agrees with a dry run.**  A dry run reports the plan and changes nothing.  A live
run on the same tree reports the same and leaves the plan written, or could not stage an edit: then
it has changed nothing but staged files, and reports all planned files as skipped, with one more
error.  Either report is read back from its document. -/
theorem run_agrees :
    ∃ outcome later,
      run read tree target spec true = (outcome, tree) ∧
      outcome = (plan read tree target spec).outcome ∧
      (run read tree target spec false = (outcome, later) ∧
          (plan read tree target spec).Written tree later ∨
        ∃ error,
          tree.stageAll [] ((plan read tree target spec).edits.map FileEdit.write) =
            (.error error, later) ∧
          run read tree target spec false =
            (⟨[], outcome.skippedFiles ++ outcome.changedFiles,
              outcome.errors ++ [s!"failed to write rewrites: {error.message}"]⟩, later) ∧
          SameOutside ((plan read tree target spec).Beside tree) tree later) ∧
      ∀ dryRun, Outcome.ofJson (run read tree target spec dryRun).1.toJson =
        .ok (run read tree target spec dryRun).1 := by
  obtain ⟨later, ⟨done, written⟩ | ⟨error, failed, staging, same⟩⟩ :=
    writeAll_edits wellFormed read target spec
  · refine ⟨_, later, rfl, rfl, .inl ⟨?_, written⟩, fun dryRun => Outcome.ofJson_toJson _⟩
    rw [run, if_neg Bool.false_ne_true, done]
  · refine ⟨_, later, rfl, rfl, .inr ⟨error, staging, ?_, same⟩,
      fun dryRun => Outcome.ofJson_toJson _⟩
    rw [run, if_neg Bool.false_ne_true, failed]
    rfl

end Main

theorem run_agrees_onePackage :
    onePackage.WellFormed ∧
      ∃ later, run Source.parse? onePackage ⟨["", ""]⟩ (sendingTo "f") false =
          (⟨["a.ts", "package.json"], [], []⟩, later) ∧
        (planSendingTo "f").Written onePackage later := by
  have wellFormed : onePackage.WellFormed := by decide +kernel
  have staged : (onePackage.stageAll [] ((planSendingTo "f").edits.map FileEdit.write)).1.isOk =
      true := by
    rw [planSendingTo, plan, walkErrors, findingsOf, filesBelow_onePackage]
    decide +kernel
  have reported : (planSendingTo "f").outcome = ⟨["a.ts", "package.json"], [], []⟩ := by
    rw [planSendingTo, plan, walkErrors, findingsOf, filesBelow_onePackage]
    decide +kernel
  obtain ⟨outcome, later, _, rfl, ⟨done, written⟩ | ⟨error, failed, _⟩, _⟩ :=
    run_agrees wellFormed Source.parse? ⟨["", ""]⟩ (sendingTo "f")
  · rw [planSendingTo] at reported
    rw [reported] at done
    exact ⟨wellFormed, later, done, written⟩
  · rw [planSendingTo, failed] at staged
    cases staged

/-! ## A source with a leftover -/

/-- A source beside a file with the name of its staged file. -/
def leftover : FileTree :=
  .directory [
    ("a.ts", .file (Text.encode "import \"old\";\n") false),
    ("a.ts.migrasaurus-staged", .file (Text.encode "left") false)]

theorem filesBelow_leftover :
    filesBelow leftover ⟨["", ""]⟩ =
      .ok [⟨["", "a.ts"]⟩, ⟨["", "a.ts.migrasaurus-staged"]⟩] := by
  rw [filesBelow_of_pairwise rfl (by decide +kernel)]
  rfl

/-- **A leftover is lost.**  The live run reports what the dry run reports and nothing fails, but a
file that is not planned is gone. -/
theorem leftover_is_lost :
    let plan := plan Source.parse? leftover ⟨["", ""]⟩ (sendingTo "f")
    let live := run Source.parse? leftover ⟨["", ""]⟩ (sendingTo "f") false
    leftover.WellFormed ∧
      live.1 = (run Source.parse? leftover ⟨["", ""]⟩ (sendingTo "f") true).1 ∧
      live.1 = ⟨["a.ts"], [], []⟩ ∧
      (∀ edit ∈ plan.edits, leftover.locate edit.path ≠ .ok ["a.ts.migrasaurus-staged"]) ∧
      leftover.entryAt? ["a.ts.migrasaurus-staged"] =
        some (.file (Text.encode "left") false) ∧
      live.2.entryAt? ["a.ts.migrasaurus-staged"] = none := by
  simp only [run, plan, walkErrors, findingsOf, filesBelow_leftover]
  refine ⟨?_, ?_, ?_, ?_, rfl, ?_⟩ <;> decide +kernel

end Imports

end Uplift.Codemod
