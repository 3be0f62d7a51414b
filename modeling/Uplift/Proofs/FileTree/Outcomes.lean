import Uplift.Proofs.FileTree.Staging

/-!
# How staged writes end

A write *aims* at a slot if its path ends in the name of the slot, perhaps with slashes or single
dots after it, and its content is staged in the sibling of the slot (`Aims`).  Only a write whose
path has nothing after the name can be moved to its slot; any other is staged and then fails to be
moved, and so does a write onto a directory.

Staging and moving stop at the first write that fails.  What has happened by then is what a run over
the writes before it does (`staged_of_stageAll`, `moved_of_commitAll`), and removing what was staged
leaves no file at any of the places it goes over (`cleared_of_discardStaged`).  So there are three
ends: all is written; a write could not be staged, and what lies at the staging paths of the writes
after it was not looked at; or a write could not be moved, and those before it are written
(`Outcome`).
-/

set_option autoImplicit false

namespace Uplift.FileTree

/-! ## Where writes aim -/

/-- A write aims at a slot: its path ends in the name of the slot, and it is staged in the
sibling. -/
structure Aims (tree : FileTree) (write : PendingWrite) (slot : Slot) : Prop where
  fileName : write.path.fileName? = some slot.name
  plain : '/' ∉ slot.name.toList
  lands : Lands tree write.stagedPath slot.dir (slot.name ++ PendingWrite.stagedSuffix)

/-- A path whose last component is a name. -/
def Named (path : Path) : Prop :=
  ∃ name, path.fileName? = some name ∧ '/' ∉ name.toList

theorem pieces_stagedPath {write : PendingWrite} {name : String}
    (fileName : write.path.fileName? = some name) (plain : '/' ∉ name.toList) :
    ∃ above, write.stagedPath.pieces = above ++ [name ++ PendingWrite.stagedSuffix] := by
  refine ⟨Path.openEnd (write.path.parent?.getD Path.empty).pieces, ?_⟩
  rw [PendingWrite.stagedPath, fileName, Option.getD_some, Path.withFileName, fileName,
    Option.isSome_some, if_pos rfl, Path.pieces_joinText (plain_staged plain)]

/-- Where a staged file lands, it has the name of its target with the suffix. -/
theorem aims_of_lands {tree : FileTree} {write : PendingWrite} {dir : Place} {name other : String}
    (fileName : write.path.fileName? = some name) (plain : '/' ∉ name.toList)
    (lands : Lands tree write.stagedPath dir other) : Aims tree write ⟨dir, name⟩ := by
  obtain ⟨above, pieces⟩ := pieces_stagedPath fileName plain
  have last := Path.fileName?_of_pieces pieces (isName_staged name)
  rw [lands.fileName?] at last
  cases last
  exact ⟨fileName, plain, lands⟩

/-- A path that can take something new lands, if it ends in a name. -/
theorem lands_of_locateNew {tree : FileTree} {path : Path} {above : List String} {name : String}
    (pieces : path.pieces = above ++ [name]) (isName : IsName name) {place : Place}
    (located : tree.locateNew path = .ok place) : ∃ dir, Lands tree path dir name := by
  have named : ((above ++ [name]).reverse.dropWhile (· = "")).reverse = above ++ [name] := by
    simp [isName.1]
  rw [FileTree.locateNew, pieces, named] at located
  simp only [List.getLast?_concat, List.dropLast_concat, isName.2.1, isName.2.2, or_false,
    if_false] at located
  obtain ⟨dir, followed, _⟩ := Results.bind_eq_ok_iff.1 located
  exact ⟨dir, isName, above, pieces, followed⟩

namespace Aims

variable {tree : FileTree} {write : PendingWrite} {slot other : Slot}

theorem of_sameDirectories (aims : Aims tree write slot) {later : FileTree}
    (same : SameDirectories tree later) : Aims later write slot :=
  ⟨aims.fileName, aims.plain, aims.lands.of_sameDirectories same⟩

/-- A write aims at one slot only. -/
theorem unique (aims : Aims tree write slot) (again : Aims tree write other) : slot = other := by
  have located := aims.lands.locateNew
  rw [again.lands.locateNew] at located
  exact Slot.sibling_injective (Except.ok.inj located).symm

/-- A write whose path has nothing after the name goes to its slot. -/
theorem goesTo (aims : Aims tree write slot) {above : List String} {name : String}
    (pieces : write.path.pieces = above ++ [name]) (isName : IsName name) :
    GoesTo tree write slot := by
  have same : name = slot.name := by
    have found := Path.fileName?_of_pieces pieces isName
    rw [aims.fileName] at found
    exact (Option.some.inj found).symm
  subst same
  refine ⟨⟨isName, above, pieces, ?_⟩, aims.plain⟩
  obtain ⟨before, split, followed⟩ := aims.lands.reached
  rw [PendingWrite.stagedPath, aims.fileName, Option.getD_some,
    Path.pieces_withFileName pieces isName (plain_staged aims.plain)] at split
  obtain ⟨rfl, _⟩ := List.append_inj' split rfl
  rwa [follow_trimAbove] at followed

end Aims

theorem GoesTo.aims {tree : FileTree} {write : PendingWrite} {slot : Slot}
    (goes : GoesTo tree write slot) : Aims tree write slot :=
  ⟨goes.lands.fileName?, goes.plain, goes.staged⟩

/-! ## Single steps -/

section Steps

variable {tree : FileTree} {write : PendingWrite}

/-- No file is at a place. -/
def NoFile (tree : FileTree) (place : Place) : Prop :=
  ∀ content executable, tree.entryAt? place ≠ some (.file content executable)

/-- The content of a write is staged in the sibling of a slot, with the mode of the file at the slot
if the write goes there. -/
def HasStaged (tree later : FileTree) (write : PendingWrite) (slot : Slot) : Prop :=
  ∃ executable,
    later.entryAt? slot.sibling = some (.file (Text.encode write.content) executable) ∧
      (GoesTo tree write slot → ∀ content mode,
        tree.entryAt? slot.target = some (.file content mode) → executable = mode)

/-- **A write that could be staged** aims at a slot, and its content is in the sibling. -/
theorem aims_of_stage_ok (named : Named write.path) {later : FileTree}
    (done : tree.stage write = .ok later) :
    ∃ slot value, Aims tree write slot ∧ Updated tree slot.sibling value later ∧
      HasStaged tree later write slot := by
  obtain ⟨name, fileName, plain⟩ := named
  obtain ⟨above, pieces⟩ := pieces_stagedPath fileName plain
  obtain ⟨place, located⟩ : ∃ place, tree.locateNew write.stagedPath = .ok place := by
    cases located : tree.locateNew write.stagedPath with
    | ok place => exact ⟨place, rfl⟩
    | error error =>
        rw [stage, writeText, writeBytes, located] at done
        cases done
  obtain ⟨dir, lands⟩ := lands_of_locateNew pieces (isName_staged name) located
  have aims := aims_of_lands fileName plain lands
  have flat : tree.entryAt? (Slot.sibling ⟨dir, name⟩) ≠ some .directory := by
    intro directory
    rw [lands.stage_directory directory] at done
    cases done
  obtain ⟨_, _, next, executable, _, again, updated, _⟩ := lands.stage flat
  rw [done] at again
  cases again
  refine ⟨⟨dir, name⟩, _, aims, updated, executable, updated.here, fun goes content mode file => ?_⟩
  obtain ⟨next, kept, again, updatedAgain, modes⟩ := goes.stage flat
  rw [done] at again
  cases again
  have held : later.entryAt? (dir ++ [name ++ PendingWrite.stagedSuffix]) = _ := updatedAgain.here
  rw [updated.here] at held
  cases held
  exact modes content mode file

/-- **A staged file that could be moved** went to the slot of its write. -/
theorem goesTo_of_rename_ok {slot : Slot} (aims : Aims tree write slot) {content : ByteArray}
    {executable : Bool} (file : tree.entryAt? slot.sibling = some (.file content executable))
    {later : FileTree} (done : tree.rename write.stagedPath write.path = .ok later) :
    GoesTo tree write slot ∧ ∃ between, Updated tree slot.sibling none between ∧
      Updated between slot.target (some (.file content executable)) later := by
  have source := aims.lands.locate (by
    change tree.entryAt? slot.sibling ≠ none
    rw [file]
    exact Option.some_ne_none _)
  have found : tree.get? (slot.dir ++ [slot.name ++ PendingWrite.stagedSuffix]) =
      some (.file content executable) := (entryAt?_eq_file_iff _ _ _ _).1 file
  have ends : write.path.endsInName = true ∧ write.path.endsInSlash = false := by
    rw [FileTree.rename, source, Results.ok_bind] at done
    obtain ⟨place, _, moved⟩ := Results.bind_eq_ok_iff.1 done
    simp only [found] at moved
    split at moved
    · cases moved
    next named =>
      split at moved
      · cases moved
      next unslashed =>
        rw [isFile, Bool.true_and, Bool.not_eq_true] at unslashed
        rw [Bool.not_eq_true, Bool.not_eq_false'] at named
        exact ⟨named, unslashed⟩
  obtain ⟨above, name, pieces, isName⟩ := Path.pieces_of_endsInName ends.1 ends.2
  have goes := aims.goesTo pieces isName
  have flat : tree.entryAt? slot.target ≠ some .directory := by
    intro directory
    rw [aims.lands.rename_directory goes.lands slot.name_ne_staged file directory] at done
    cases done
  obtain ⟨between, next, again, emptied, filled⟩ := goes.commit file flat
  rw [done] at again
  cases again
  exact ⟨goes, between, emptied, filled⟩

/-- A path that lands nowhere has no file to discard. -/
theorem discard_of_nowhere {path : Path} (nowhere : ∀ dir name, ¬ Lands tree path dir name) :
    tree.discard path = tree := by
  rw [discard, removeFile]
  cases located : tree.locate path with
  | error error => rfl
  | ok place =>
      rw [Results.ok_bind]
      cases found : tree.get? place with
      | none => rfl
      | some there =>
          cases there with
          | directory entries => rfl
          | file content executable =>
              obtain ⟨dir, name, rfl, lands⟩ :=
                lands_of_file located ((entryAt?_eq_file_iff _ _ _ _).2 found)
              exact absurd lands (nowhere dir name)

/-- A write has no file at its staging path if there is none where it aims. -/
theorem hasFile_stagedPath_eq_false (named : Named write.path)
    (none : ∀ slot, Aims tree write slot → NoFile tree slot.sibling) :
    tree.hasFile write.stagedPath = false := by
  obtain ⟨name, fileName, plain⟩ := named
  rw [hasFile, find]
  cases located : tree.locate write.stagedPath with
  | error error => rfl
  | ok place =>
      rw [Results.ok_bind]
      cases found : tree.get? place with
      | none => rfl
      | some there =>
          cases there with
          | directory entries => rfl
          | file content executable =>
              have file := (entryAt?_eq_file_iff _ _ _ _).2 found
              obtain ⟨dir, other, rfl, lands⟩ := lands_of_file located file
              have aims := aims_of_lands fileName plain lands
              have same : other = name ++ PendingWrite.stagedSuffix := by
                have here := lands.fileName?
                rw [aims.lands.fileName?] at here
                exact (Option.some.inj here).symm
              subst same
              exact absurd file (none ⟨dir, name⟩ aims content executable)

end Steps

/-! ## Places of several writes -/

/-- The siblings of the slots at which some writes aim. -/
def AimSiblings (tree : FileTree) (writes : List PendingWrite) (place : Place) : Prop :=
  ∃ write ∈ writes, ∃ slot, Aims tree write slot ∧ place = slot.sibling

/-- The slots at which some writes aim. -/
def AimTargets (tree : FileTree) (writes : List PendingWrite) (place : Place) : Prop :=
  ∃ write ∈ writes, ∃ slot, Aims tree write slot ∧ place = slot.target

theorem AimSiblings.mono {tree : FileTree} {writes more : List PendingWrite} {place : Place}
    (sibling : AimSiblings tree writes place) (subset : writes ⊆ more) :
    AimSiblings tree more place := by
  obtain ⟨write, member, aimed⟩ := sibling
  exact ⟨write, subset member, aimed⟩

theorem AimTargets.mono {tree : FileTree} {writes more : List PendingWrite} {place : Place}
    (target : AimTargets tree writes place) (subset : writes ⊆ more) :
    AimTargets tree more place := by
  obtain ⟨write, member, aimed⟩ := target
  exact ⟨write, subset member, aimed⟩

/-- No two of some writes, one from each list, aim at the same slot. -/
def NoCommonSlot (tree : FileTree) (first second : List PendingWrite) : Prop :=
  ∀ write ∈ first, ∀ other ∈ second, ∀ slot, Aims tree write slot → ¬ Aims tree other slot

namespace NoCommonSlot

variable {tree : FileTree} {first second : List PendingWrite}

theorem symm (none : NoCommonSlot tree first second) : NoCommonSlot tree second first :=
  fun write member other member' slot aims again => none other member' write member slot again aims

theorem not_sibling (none : NoCommonSlot tree first second) {write : PendingWrite}
    (member : write ∈ first) {slot : Slot} (aims : Aims tree write slot) :
    ¬ AimSiblings tree second slot.sibling := by
  rintro ⟨other, member', slot', again, same⟩
  rw [← Slot.sibling_injective same] at again
  exact none write member other member' slot aims again

theorem not_target (none : NoCommonSlot tree first second) {write : PendingWrite}
    (member : write ∈ first) {slot : Slot} (aims : Aims tree write slot) :
    ¬ AimTargets tree second slot.target := by
  rintro ⟨other, member', slot', again, same⟩
  rw [← Slot.target_injective same] at again
  exact none write member other member' slot aims again

end NoCommonSlot

/-- Writes whose paths end in names and that aim at distinct slots, none at the sibling of
another. -/
structure AimsApart (tree : FileTree) (writes : List PendingWrite) : Prop where
  named : ∀ write ∈ writes, Named write.path
  distinct : writes.Pairwise fun first second =>
    ∀ slot, Aims tree first slot → ¬ Aims tree second slot
  apart : ∀ first ∈ writes, ∀ second ∈ writes, ∀ slot other,
    Aims tree first slot → Aims tree second other → slot.target ≠ other.sibling

namespace AimsApart

variable {tree : FileTree} {writes : List PendingWrite}

theorem sublist (separate : AimsApart tree writes) {fewer : List PendingWrite}
    (sublist : fewer.Sublist writes) : AimsApart tree fewer where
  named write member := separate.named write (sublist.subset member)
  distinct := separate.distinct.sublist sublist
  apart first member second member' :=
    separate.apart first (sublist.subset member) second (sublist.subset member')

theorem noCommonSlot {first second : List PendingWrite}
    (separate : AimsApart tree (first ++ second)) : NoCommonSlot tree first second :=
  fun write member other member' =>
    (List.pairwise_append.1 separate.distinct).2.2 write member other member'

theorem target_not_sibling (separate : AimsApart tree writes) {write : PendingWrite}
    (member : write ∈ writes) {slot : Slot} (aims : Aims tree write slot) :
    ¬ AimSiblings tree writes slot.target := by
  rintro ⟨other, member', slot', again, same⟩
  exact separate.apart write member other member' slot slot' aims again same

theorem sibling_not_target (separate : AimsApart tree writes) {write : PendingWrite}
    (member : write ∈ writes) {slot : Slot} (aims : Aims tree write slot) :
    ¬ AimTargets tree writes slot.sibling := by
  rintro ⟨other, member', slot', again, same⟩
  exact separate.apart other member' write member slot' slot again aims same.symm

/-- Writes are apart if their staged files have places of their own and their names are too short
for names of staged files. -/
theorem of_locateNew (named : ∀ write ∈ writes, Named write.path)
    (distinct : (writes.filterMap fun write => (tree.locateNew write.stagedPath).toOption).Nodup)
    (short : ∀ write ∈ writes, ∀ name, write.path.fileName? = some name →
      name.length < PendingWrite.stagedSuffix.length) : AimsApart tree writes where
  named := named
  distinct := by
    refine (List.pairwise_filterMap.1 distinct).imp fun different slot aims again => ?_
    refine different slot.sibling ?_ slot.sibling ?_ rfl
    · rw [aims.lands.locateNew]
      rfl
    · rw [again.lands.locateNew]
      rfl
  apart first member _ _ slot other aims _ same := by
    have names : slot.name = other.name ++ PendingWrite.stagedSuffix := by
      have last := (List.append_inj' same rfl).2
      exact List.singleton_inj.1 last
    have length := short first member slot.name aims.fileName
    rw [names, String.length_append] at length
    omega

end AimsApart

/-! ## Runs that succeed -/

section Runs

variable {origin tree later : FileTree} {writes : List PendingWrite}

/-- **Staging that succeeds** leaves the content of every write in the sibling where it aims, and
changes nothing else. -/
theorem staged_of_stageAll {staged : List PendingWrite} (separate : AimsApart origin writes)
    (same : SameDirectories origin tree) (done : tree.stageAll staged writes = (.ok (), later)) :
    SameOutside (AimSiblings origin writes) tree later ∧
      ∀ write ∈ writes, ∃ slot, Aims origin write slot ∧ HasStaged tree later write slot := by
  induction writes generalizing tree staged with
  | nil =>
      cases done
      exact ⟨.refl _ _, fun write member => absurd member List.not_mem_nil⟩
  | cons write rest ih =>
      rw [stageAll] at done
      split at done
      next next staging =>
        obtain ⟨slot, _, aimsHere, updated, executable, held, mode⟩ :=
          aims_of_stage_ok (separate.named write List.mem_cons_self) staging
        have aims := aimsHere.of_sameDirectories fun place => (same place).symm
        obtain ⟨sameLater, each⟩ := ih (separate.sublist (List.sublist_cons_self write rest))
          (same.trans updated.sameDirectories) done
        have first : SameOutside (AimSiblings origin (write :: rest)) tree next :=
          .of_updated updated ⟨write, List.mem_cons_self, slot, aims, rfl⟩
        refine ⟨first.trans (sameLater.mono fun place inside =>
          inside.mono (List.subset_cons_self write rest)), List.forall_mem_cons.2 ⟨?_, ?_⟩⟩
        · refine ⟨slot, aims, executable, ?_, mode⟩
          have apart : ¬ AimSiblings origin rest slot.sibling :=
            NoCommonSlot.not_sibling (AimsApart.noCommonSlot separate)
              (List.mem_singleton.2 rfl) aims
          rw [sameLater.outside _ apart, held]
        · intro other member
          obtain ⟨otherSlot, aimsOther, kept, heldOther, modes⟩ := each other member
          refine ⟨otherSlot, aimsOther, kept, heldOther, fun goes content mode' file => ?_⟩
          refine modes (goes.of_sameDirectories updated.sameDirectories) content mode' ?_
          rw [updated.elsewhere, file]
          exact separate.apart other (List.mem_cons_of_mem _ member) write List.mem_cons_self _ _
            aimsOther aims
      next => cases done

/-- One move, with other writes to come: the slot has what was in the sibling, the sibling is empty,
and the siblings of the other writes are as they were. -/
theorem moved_of_rename_ok {write : PendingWrite} {rest : List PendingWrite}
    (separate : AimsApart origin (write :: rest)) (same : SameDirectories origin tree) {slot : Slot}
    (aims : Aims origin write slot) {content : ByteArray} {executable : Bool}
    (file : tree.entryAt? slot.sibling = some (.file content executable)) {next : FileTree}
    (done : tree.rename write.stagedPath write.path = .ok next) :
    GoesTo origin write slot ∧
      SameOutside (fun place => AimSiblings origin [write] place ∨ AimTargets origin [write] place)
        tree next ∧
      next.entryAt? slot.target = tree.entryAt? slot.sibling ∧
      next.entryAt? slot.sibling = none ∧
      ∀ other ∈ rest, ∀ otherSlot, Aims origin other otherSlot →
        next.entryAt? otherSlot.sibling = tree.entryAt? otherSlot.sibling := by
  obtain ⟨goes, between, emptied, filled⟩ :=
    goesTo_of_rename_ok (aims.of_sameDirectories same) file done
  have here : write ∈ [write] := List.mem_singleton.2 rfl
  refine ⟨goes.of_sameDirectories fun place => (same place).symm, ?_, ?_, ?_, ?_⟩
  · exact (SameOutside.of_updated emptied (.inl ⟨write, here, slot, aims, rfl⟩)).trans
      (.of_updated filled (.inr ⟨write, here, slot, aims, rfl⟩))
  · rw [filled.here, file]
  · rw [filled.elsewhere slot.sibling_ne_target, emptied.here]
  · intro other member otherSlot aimsOther
    have apart : NoCommonSlot origin [write] rest := AimsApart.noCommonSlot separate
    rw [filled.elsewhere, emptied.elsewhere]
    · intro equal
      exact apart.not_sibling here aims ⟨other, member, otherSlot, aimsOther, equal.symm⟩
    · exact (separate.apart write List.mem_cons_self other (List.mem_cons_of_mem _ member) _ _ aims
        aimsOther).symm

/-- **Moving that succeeds** leaves at every target what was in the sibling, and nothing in the
sibling. -/
theorem moved_of_commitAll (separate : AimsApart origin writes)
    (same : SameDirectories origin tree)
    (staged : ∀ write ∈ writes, ∃ slot, Aims origin write slot ∧
      ∃ content executable, tree.entryAt? slot.sibling = some (.file content executable))
    (done : tree.commitAll writes = (.ok (), later)) :
    SameOutside (fun place => AimSiblings origin writes place ∨ AimTargets origin writes place)
        tree later ∧
      ∀ write ∈ writes, ∃ slot, GoesTo origin write slot ∧
        later.entryAt? slot.target = tree.entryAt? slot.sibling ∧
        later.entryAt? slot.sibling = none := by
  induction writes generalizing tree with
  | nil =>
      cases done
      exact ⟨.refl _ _, fun write member => absurd member List.not_mem_nil⟩
  | cons write rest ih =>
      obtain ⟨slot, aims, content, executable, file⟩ := staged write List.mem_cons_self
      rw [commitAll] at done
      split at done
      next next moving =>
        obtain ⟨goes, first, filled, emptied, others⟩ :=
          moved_of_rename_ok separate same aims file moving
        have head : [write] ⊆ write :: rest := List.cons_subset_cons write (List.nil_subset rest)
        have tail : rest ⊆ write :: rest := List.subset_cons_self write rest
        have stagedRest : ∀ other ∈ rest, ∃ slot, Aims origin other slot ∧
            ∃ content executable, next.entryAt? slot.sibling = some (.file content executable) := by
          intro other member
          obtain ⟨otherSlot, aimsOther, held⟩ := staged other (tail member)
          refine ⟨otherSlot, aimsOther, ?_⟩
          rwa [others other member otherSlot aimsOther]
        obtain ⟨sameLater, each⟩ := ih (separate.sublist (List.sublist_cons_self write rest))
          (same.trans first.directories) stagedRest done
        refine ⟨(first.mono fun place inside => inside.imp (·.mono head) (·.mono head)).trans
          (sameLater.mono fun place inside => inside.imp (·.mono tail) (·.mono tail)),
          List.forall_mem_cons.2 ⟨⟨slot, goes, ?_, ?_⟩, ?_⟩⟩
        · rw [sameLater.outside, filled]
          rintro (sibling | target)
          · exact separate.target_not_sibling List.mem_cons_self aims (sibling.mono tail)
          · exact (AimsApart.noCommonSlot separate).not_target (List.mem_singleton.2 rfl) aims target
        · rw [sameLater.outside, emptied]
          rintro (sibling | target)
          · exact (AimsApart.noCommonSlot separate).not_sibling (List.mem_singleton.2 rfl) aims
              sibling
          · exact separate.sibling_not_target List.mem_cons_self aims (target.mono tail)
        · intro other member
          obtain ⟨otherSlot, goesOther, moved, empty⟩ := each other member
          refine ⟨otherSlot, goesOther, ?_, empty⟩
          rw [moved, others other member otherSlot goesOther.aims]
      next => cases done

/-! ## Removing what was staged -/

/-- Discarding the staged file of a write leaves no file there. -/
theorem cleared_of_discard {write : PendingWrite} (named : Named write.path)
    (same : SameDirectories origin tree) :
    SameOutside (AimSiblings origin [write]) tree (tree.discard write.stagedPath) ∧
      ∀ place, AimSiblings origin [write] place →
        NoFile (tree.discard write.stagedPath) place := by
  by_cases aimed : ∃ slot, Aims origin write slot
  · obtain ⟨slot, aims⟩ := aimed
    have lands := (aims.of_sameDirectories same).lands
    have only : ∀ place, AimSiblings origin [write] place → place = slot.sibling := by
      rintro place ⟨other, member, otherSlot, aimsOther, rfl⟩
      rw [List.mem_singleton.1 member] at aimsOther
      rw [aims.unique aimsOther]
    by_cases flat : tree.entryAt? slot.sibling = some .directory
    · rw [lands.discard_directory flat]
      refine ⟨.refl _ _, fun place sibling content executable file => ?_⟩
      rw [only place sibling, flat] at file
      cases file
    · have updated := lands.discard flat
      refine ⟨.of_updated updated ⟨write, List.mem_singleton.2 rfl, slot, aims, rfl⟩,
        fun place sibling content executable file => ?_⟩
      have empty : (tree.discard write.stagedPath).entryAt? slot.sibling = none := updated.here
      rw [only place sibling, empty] at file
      cases file
  · obtain ⟨name, fileName, plain⟩ := named
    have nowhere : ∀ dir other, ¬ Lands tree write.stagedPath dir other := fun dir other lands =>
      aimed ⟨⟨dir, name⟩, (aims_of_lands fileName plain lands).of_sameDirectories
        fun place => (same place).symm⟩
    rw [discard_of_nowhere nowhere]
    refine ⟨.refl _ _, fun place sibling => ?_⟩
    obtain ⟨other, member, slot, aims, _⟩ := sibling
    rw [List.mem_singleton.1 member] at aims
    exact absurd ⟨slot, aims⟩ aimed

/-- **Discarding the staged files of some writes** leaves no file where they are staged, and changes
nothing else. -/
theorem cleared_of_discardStaged (named : ∀ write ∈ writes, Named write.path)
    (same : SameDirectories origin tree) :
    SameOutside (AimSiblings origin writes) tree (tree.discardStaged writes) ∧
      ∀ place, AimSiblings origin writes place → NoFile (tree.discardStaged writes) place := by
  induction writes generalizing tree with
  | nil =>
      refine ⟨.refl _ _, fun place sibling => ?_⟩
      obtain ⟨write, member, _⟩ := sibling
      exact absurd member List.not_mem_nil
  | cons write rest ih =>
      obtain ⟨first, cleared⟩ := cleared_of_discard (named write List.mem_cons_self) same
      obtain ⟨sameLater, clearedLater⟩ := ih
        (fun other member => named other (List.mem_cons_of_mem _ member))
        (same.trans first.directories)
      have head : [write] ⊆ write :: rest := List.cons_subset_cons write (List.nil_subset rest)
      refine ⟨(first.mono fun place inside => inside.mono head).trans
        (sameLater.mono fun place inside => inside.mono (List.subset_cons_self write rest)), ?_⟩
      intro place sibling
      by_cases inRest : AimSiblings origin rest place
      · exact clearedLater place inRest
      · obtain ⟨other, member, slot, aims, rfl⟩ := sibling
        rcases List.mem_cons.1 member with rfl | member
        · intro content executable
          change (tree.discard other.stagedPath |>.discardStaged rest).entryAt? _ ≠ _
          rw [sameLater.outside _ inRest]
          exact cleared _ ⟨other, List.mem_singleton.2 rfl, slot, aims, rfl⟩ content executable
        · exact absurd ⟨other, member, slot, aims, rfl⟩ inRest

end Runs

/-! ## Where runs stop -/

/-- Staging succeeds, or stops at the first write that cannot be staged. -/
theorem stageAll_cases (tree : FileTree) (staged writes : List PendingWrite) :
    (∃ later, tree.stageAll staged writes = (.ok (), later)) ∨
      ∃ early write late between error, writes = early ++ write :: late ∧
        tree.stageAll staged early = (.ok (), between) ∧ between.stage write = .error error ∧
        tree.stageAll staged writes =
          (.error error, between.discardStaged (write :: (staged ++ early))) := by
  induction writes generalizing tree staged with
  | nil => exact .inl ⟨tree, rfl⟩
  | cons write rest ih =>
      cases staging : tree.stage write with
      | error error =>
          refine .inr ⟨[], write, rest, tree, error, rfl, rfl, staging, ?_⟩
          rw [stageAll, staging, List.append_nil]
          rfl
      | ok next =>
          have step : ∀ more, tree.stageAll staged (write :: more) =
              next.stageAll (staged ++ [write]) more := fun more => by rw [stageAll, staging]
          obtain ⟨later, done⟩ |
              ⟨early, failing, late, between, error, rfl, before, failed, done⟩ :=
            ih next (staged ++ [write])
          · exact .inl ⟨later, by rw [step, done]⟩
          · refine .inr ⟨write :: early, failing, late, between, error, rfl, ?_, failed, ?_⟩
            · rw [step, before]
            · rw [step, done, List.append_assoc]
              rfl

/-- Moving succeeds, or stops at the first write that cannot be moved. -/
theorem commitAll_cases (tree : FileTree) (writes : List PendingWrite) :
    (∃ later, tree.commitAll writes = (.ok (), later)) ∨
      ∃ early write late between error, writes = early ++ write :: late ∧
        tree.commitAll early = (.ok (), between) ∧
        between.rename write.stagedPath write.path = .error error ∧
        tree.commitAll writes = (.error error, between.discardStaged (write :: late)) := by
  induction writes generalizing tree with
  | nil => exact .inl ⟨tree, rfl⟩
  | cons write rest ih =>
      cases moving : tree.rename write.stagedPath write.path with
      | error error =>
          refine .inr ⟨[], write, rest, tree, error, rfl, rfl, moving, ?_⟩
          rw [commitAll, moving]
      | ok next =>
          have step : ∀ more, tree.commitAll (write :: more) = next.commitAll more := fun more => by
            rw [commitAll, moving]
          obtain ⟨later, done⟩ |
              ⟨early, failing, late, between, error, rfl, before, failed, done⟩ :=
            ih next
          · exact .inl ⟨later, by rw [step, done]⟩
          · exact .inr ⟨write :: early, failing, late, between, error, rfl, by rw [step, before],
              failed, by rw [step, done]⟩

/-! ## The three ends -/

/-- A write is carried out: the file at its slot has the new content, with the mode of the file it
replaced. -/
def Written (tree later : FileTree) (write : PendingWrite) : Prop :=
  ∃ slot, GoesTo tree write slot ∧ Carries tree later write slot slot.target

/-- The target of a write is as it was. -/
def Kept (tree later : FileTree) (write : PendingWrite) : Prop :=
  ∀ slot, Aims tree write slot → later.entryAt? slot.target = tree.entryAt? slot.target

/-- How writing several files can end. -/
inductive Outcome (tree : FileTree) (writes : List PendingWrite) :
    Except FileError Unit × FileTree → Prop where
  /-- All is written. -/
  | written {later : FileTree}
      (held : ∀ write ∈ writes, Written tree later write)
      (cleared : ∀ write ∈ writes, later.hasFile write.stagedPath = false)
      (same : SameOutside (fun place => AimSiblings tree writes place ∨
        AimTargets tree writes place) tree later) :
      Outcome tree writes (.ok (), later)
  /-- A write could not be staged, after those before it. -/
  | unstaged {early late : List PendingWrite} {write : PendingWrite} {between later : FileTree}
      {error : FileError}
      (split : writes = early ++ write :: late)
      (staged : tree.stageAll [] early = (.ok (), between))
      (failed : between.stage write = .error error)
      (kept : ∀ other ∈ writes, Kept tree later other)
      (cleared : ∀ other ∈ early ++ [write], later.hasFile other.stagedPath = false)
      (same : SameOutside (AimSiblings tree (early ++ [write])) tree later) :
      Outcome tree writes (.error error, later)
  /-- All was staged, and a write could not be moved, after those before it. -/
  | unmoved {early late : List PendingWrite} {write : PendingWrite}
      {ready between later : FileTree} {error : FileError}
      (split : writes = early ++ write :: late)
      (staged : tree.stageAll [] writes = (.ok (), ready))
      (moved : ready.commitAll early = (.ok (), between))
      (failed : between.rename write.stagedPath write.path = .error error)
      (held : ∀ other ∈ early, Written tree later other)
      (kept : ∀ other ∈ write :: late, Kept tree later other)
      (cleared : ∀ other ∈ writes, later.hasFile other.stagedPath = false)
      (same : SameOutside (fun place => AimSiblings tree writes place ∨
        AimTargets tree early place) tree later) :
      Outcome tree writes (.error error, later)

section Ends

variable {tree : FileTree} {writes : List PendingWrite}

/-- There is no file at the staging path of a write if none is at any sibling. -/
theorem hasFile_eq_false_of_cleared {later : FileTree} (named : ∀ write ∈ writes, Named write.path)
    (same : SameDirectories tree later)
    (cleared : ∀ place, AimSiblings tree writes place → NoFile later place) :
    ∀ write ∈ writes, later.hasFile write.stagedPath = false := by
  intro write member
  refine hasFile_stagedPath_eq_false (named write member) fun slot aims => ?_
  have before := aims.of_sameDirectories fun place => (same place).symm
  exact cleared _ ⟨write, member, slot, before, rfl⟩

/-- What changes only siblings keeps the targets. -/
theorem kept_of_sameOutside (separate : AimsApart tree writes) {later : FileTree}
    (same : SameOutside (AimSiblings tree writes) tree later) :
    ∀ write ∈ writes, Kept tree later write :=
  fun _ member _ aims => same.outside _ (separate.target_not_sibling member aims)

theorem outcome_of_unstaged {early late : List PendingWrite} {write : PendingWrite}
    {between : FileTree} {error : FileError} (split : writes = early ++ write :: late)
    (separate : AimsApart tree writes) (staged : tree.stageAll [] early = (.ok (), between))
    (failed : between.stage write = .error error) :
    Outcome tree writes (.error error, between.discardStaged (write :: early)) := by
  have before : (early ++ [write]).Sublist writes := by
    rw [split, List.append_cons early write late]
    exact List.sublist_append_left _ late
  have separateEarly := separate.sublist ((List.sublist_append_left early [write]).trans before)
  obtain ⟨sameBetween, _⟩ := staged_of_stageAll separateEarly (.refl tree) staged
  have swap : write :: early ⊆ early ++ [write] := by
    intro other member
    rcases List.mem_cons.1 member with rfl | member
    · simp
    · simp [member]
  have back : early ++ [write] ⊆ write :: early := by
    intro other member
    rcases List.mem_append.1 member with member | here
    · exact List.mem_cons_of_mem _ member
    · rw [List.mem_singleton.1 here]
      exact List.mem_cons_self
  have named : ∀ other ∈ early ++ [write], Named other.path := fun other member =>
    separate.named other (before.subset member)
  obtain ⟨sameLater, cleared⟩ := cleared_of_discardStaged
    (fun other member => named other (swap member)) sameBetween.directories
  have same : SameOutside (AimSiblings tree (early ++ [write])) tree
      (between.discardStaged (write :: early)) :=
    (sameBetween.mono fun place inside => inside.mono (List.subset_append_left _ _)).trans
      (sameLater.mono fun place inside => inside.mono swap)
  refine .unstaged split staged failed ?_ ?_ same
  · exact kept_of_sameOutside separate (same.mono fun place inside => inside.mono before.subset)
  · exact hasFile_eq_false_of_cleared named same.directories fun place inside =>
      cleared place (inside.mono back)

/-- What a run of moves has written, after staging. -/
theorem written_of_moved {ready later : FileTree} {moved : List PendingWrite}
    (staged : ∀ write ∈ moved, ∃ slot, Aims tree write slot ∧ HasStaged tree ready write slot)
    (held : ∀ write ∈ moved, ∃ slot, GoesTo tree write slot ∧
      later.entryAt? slot.target = ready.entryAt? slot.sibling) :
    ∀ write ∈ moved, Written tree later write := by
  intro write member
  obtain ⟨slot, goes, there⟩ := held write member
  obtain ⟨other, aims, executable, file, mode⟩ := staged write member
  obtain rfl := goes.aims.unique aims
  exact ⟨slot, goes, executable, there.trans file, mode goes⟩

/-- A staged write has a file in the sibling. -/
theorem file_of_hasStaged {ready : FileTree}
    (staged : ∀ write ∈ writes, ∃ slot, Aims tree write slot ∧ HasStaged tree ready write slot) :
    ∀ write ∈ writes, ∃ slot, Aims tree write slot ∧
      ∃ content executable, ready.entryAt? slot.sibling = some (.file content executable) := by
  intro write member
  obtain ⟨slot, aims, executable, file, _⟩ := staged write member
  exact ⟨slot, aims, _, executable, file⟩

theorem outcome_of_written {ready later : FileTree} (separate : AimsApart tree writes)
    (staged : tree.stageAll [] writes = (.ok (), ready))
    (moved : ready.commitAll writes = (.ok (), later)) : Outcome tree writes (.ok (), later) := by
  obtain ⟨sameReady, each⟩ := staged_of_stageAll separate (.refl tree) staged
  obtain ⟨sameLater, held⟩ :=
    moved_of_commitAll separate sameReady.directories (file_of_hasStaged each) moved
  have same := (sameReady.mono fun _ => .inl).trans sameLater
  refine .written ?_ ?_ same
  · refine written_of_moved each fun write member => ?_
    obtain ⟨slot, goes, there, _⟩ := held write member
    exact ⟨slot, goes, there⟩
  · refine hasFile_eq_false_of_cleared separate.named same.directories fun place sibling => ?_
    obtain ⟨write, member, slot, aims, rfl⟩ := sibling
    obtain ⟨other, goes, _, empty⟩ := held write member
    obtain rfl := aims.unique goes.aims
    intro content executable file
    rw [empty] at file
    cases file

theorem outcome_of_unmoved {early late : List PendingWrite} {write : PendingWrite}
    {ready between : FileTree} {error : FileError}
    (separate : AimsApart tree (early ++ write :: late))
    (staged : tree.stageAll [] (early ++ write :: late) = (.ok (), ready))
    (moved : ready.commitAll early = (.ok (), between))
    (failed : between.rename write.stagedPath write.path = .error error) :
    Outcome tree (early ++ write :: late)
      (.error error, between.discardStaged (write :: late)) := by
  have none : NoCommonSlot tree early (write :: late) := separate.noCommonSlot
  have isEarly : early ⊆ early ++ write :: late := List.subset_append_left _ _
  have isLate : write :: late ⊆ early ++ write :: late := List.subset_append_right _ _
  obtain ⟨sameReady, each⟩ := staged_of_stageAll separate (.refl tree) staged
  have eachEarly := fun other member => each other (isEarly member)
  obtain ⟨sameBetween, held⟩ :=
    moved_of_commitAll (separate.sublist (List.sublist_append_left early _))
      sameReady.directories (file_of_hasStaged eachEarly) moved
  obtain ⟨sameLater, cleared⟩ := cleared_of_discardStaged
    (fun other member => separate.named other (isLate member))
    (sameReady.directories.trans sameBetween.directories)
  have same : SameOutside (fun place => AimSiblings tree (early ++ write :: late) place ∨
      AimTargets tree early place) tree (between.discardStaged (write :: late)) :=
    (sameReady.mono fun _ => .inl).trans
      ((sameBetween.mono fun _ inside => inside.imp_left (·.mono isEarly)).trans
        (sameLater.mono fun _ inside => .inl (inside.mono isLate)))
  refine .unmoved rfl staged moved failed ?_ ?_ ?_ same
  · refine written_of_moved eachEarly fun other member => ?_
    obtain ⟨slot, goes, there, _⟩ := held other member
    refine ⟨slot, goes, ?_⟩
    rw [sameLater.outside, there]
    exact fun sibling => separate.target_not_sibling (isEarly member) goes.aims
      (sibling.mono isLate)
  · intro other member slot aims
    refine same.outside _ ?_
    rintro (sibling | target)
    · exact separate.target_not_sibling (isLate member) aims sibling
    · exact none.symm.not_target member aims target
  · refine hasFile_eq_false_of_cleared separate.named same.directories fun place sibling => ?_
    obtain ⟨other, member, slot, aims, rfl⟩ := sibling
    rcases List.mem_append.1 member with member | member
    · obtain ⟨again, goes, _, empty⟩ := held other member
      obtain rfl := aims.unique goes.aims
      intro content executable file
      rw [sameLater.outside _ (none.not_sibling member aims), empty] at file
      cases file
    · exact cleared _ ⟨other, member, slot, aims, rfl⟩

end Ends

/-- **Writing several files has three ends.**  All is written; or a write could not be staged, and
every target is as it was; or a write could not be moved, the targets before it are written, and
those from it on are as they were.  What else changes are staging paths only.  No file is left at
the staging path of any write, except that where staging fails, what lies at the staging paths of
the writes after the one that failed stays as it was. -/
theorem outcome_of_writeAll {tree : FileTree} {writes : List PendingWrite}
    (separate : AimsApart tree writes) : Outcome tree writes (tree.writeAll writes) := by
  rw [writeAll]
  obtain ⟨ready, staged⟩ | ⟨early, write, late, between, error, split, staged, failed, done⟩ :=
    stageAll_cases tree [] writes
  · rw [staged]
    obtain ⟨later, moved⟩ | ⟨early, write, late, between, error, rfl, moved, failed, done⟩ :=
      commitAll_cases ready writes
    · change Outcome tree writes (ready.commitAll writes)
      rw [moved]
      exact outcome_of_written separate staged moved
    · change Outcome tree _ (ready.commitAll (early ++ write :: late))
      rw [done]
      exact outcome_of_unmoved separate staged moved failed
  · rw [done]
    exact outcome_of_unstaged split separate staged failed

/-! ### A write onto a directory -/

/-- An executable file and a directory. -/
def blockedTree : FileTree :=
  .directory [("a", .file (Text.encode "old") true), ("b", .directory [])]

/-- Writes to the file, to the directory and to a new file. -/
def blockedWrites : List PendingWrite :=
  [⟨⟨["", "a"]⟩, "new a"⟩, ⟨⟨["", "b"]⟩, "new b"⟩, ⟨⟨["", "c"]⟩, "new c"⟩]

theorem blockedWrites_apart : AimsApart blockedTree blockedWrites := by
  refine .of_locateNew ?_ (by decide +kernel) ?_
  · simp only [blockedWrites, List.forall_mem_cons]
    exact ⟨⟨"a", by decide +kernel⟩, ⟨"b", by decide +kernel⟩, ⟨"c", by decide +kernel⟩, nofun⟩
  · decide +kernel

/-- The write onto the directory fails once the first file is written. -/
theorem outcome_of_writeAll_blocked :
    AimsApart blockedTree blockedWrites ∧
      Outcome blockedTree blockedWrites (blockedTree.writeAll blockedWrites) ∧
      (blockedTree.writeAll blockedWrites).1.isOk = false ∧
      ((blockedTree.writeAll blockedWrites).2.readText ⟨["", "a"]⟩).toOption = some "new a" :=
  ⟨blockedWrites_apart, outcome_of_writeAll blockedWrites_apart, by decide +kernel,
    by decide +kernel⟩

/-! ### A staged file left over -/

/-- A file at the staging path of a file that is not there. -/
def leftoverTree : FileTree :=
  .directory [("c.json.migrasaurus-staged", .file (Text.encode "left") false)]

/-- Writes to a directory that is missing, and to the file that is not there. -/
def leftoverWrites : List PendingWrite :=
  [⟨⟨["", "missing", "a.json"]⟩, "a"⟩, ⟨⟨["", "c.json"]⟩, "c"⟩]

/-- **Where staging fails, what lies at later staging paths stays.**  It was there before, and the
write it would have been replaced for was never staged. -/
theorem leftover_stays :
    AimsApart leftoverTree leftoverWrites ∧
      (leftoverTree.writeAll leftoverWrites).1.isOk = false ∧
      ∃ write ∈ leftoverWrites,
        (leftoverTree.writeAll leftoverWrites).2.hasFile write.stagedPath = true := by
  refine ⟨.of_locateNew ?_ (by decide +kernel) (by decide +kernel), by decide +kernel,
    ⟨⟨["", "c.json"]⟩, "c"⟩, by decide +kernel, by decide +kernel⟩
  simp only [leftoverWrites, List.forall_mem_cons]
  exact ⟨⟨"a.json", by decide +kernel⟩, ⟨"c.json", by decide +kernel⟩, nofun⟩

end Uplift.FileTree
