import Uplift.Proofs.FileTree.Operations

/-!
# What staged writes do to a tree

A write that goes to a slot, a name in a directory, is staged in the sibling of the slot: the place
in the same directory whose name has the suffix of staged files.

Staging several writes either fails, and then nothing has changed outside the siblings
(`sameOutside_of_stageAll_error`), or leaves in each sibling the content of its write with the mode
of the file it is going to replace (`stageAll_ok`).  Moving the staged files cannot fail where the
slots are distinct and none of them holds a directory, and afterwards every slot holds what its
sibling held (`commitAll_ok`).  All directories stay in place throughout.
-/

set_option autoImplicit false

namespace Uplift.FileTree

/-! ## Slots -/

/-- Where a write goes: a name in a directory. -/
structure Slot where
  dir : Place
  name : String
  deriving DecidableEq

namespace Slot

/-- The place of the file to be written. -/
def target (slot : Slot) : Place :=
  slot.dir ++ [slot.name]

/-- The place beside it where the content is staged. -/
def sibling (slot : Slot) : Place :=
  slot.dir ++ [slot.name ++ PendingWrite.stagedSuffix]

theorem target_injective : Function.Injective target := by
  rintro ⟨dir, name⟩ ⟨dir', name'⟩ same
  obtain ⟨rfl, names⟩ := List.append_inj' same rfl
  cases names
  rfl

theorem sibling_injective : Function.Injective sibling := by
  rintro ⟨dir, name⟩ ⟨dir', name'⟩ same
  obtain ⟨rfl, names⟩ := List.append_inj' same rfl
  have equal : name = name' := by simpa using names
  rw [equal]

theorem name_ne_staged (slot : Slot) : slot.name ++ PendingWrite.stagedSuffix ≠ slot.name := by
  intro same
  have lengths := congrArg String.length same
  rw [String.length_append] at lengths
  have positive : PendingWrite.stagedSuffix.length ≠ 0 := by decide
  omega

theorem sibling_ne_target (slot : Slot) : slot.sibling ≠ slot.target := by
  simpa [sibling, target] using slot.name_ne_staged

end Slot

/-- What a file is staged under is a name, since it is long. -/
theorem isName_staged (name : String) : IsName (name ++ PendingWrite.stagedSuffix) := by
  have suffix : PendingWrite.stagedSuffix.length = 19 := by decide
  have long : 2 < (name ++ PendingWrite.stagedSuffix).length := by
    rw [String.length_append]
    omega
  exact isName_of_length long

theorem plain_staged {name : String} (plain : '/' ∉ name.toList) :
    '/' ∉ (name ++ PendingWrite.stagedSuffix).toList := by
  rw [String.toList_append, List.mem_append, not_or]
  exact ⟨plain, by decide⟩

/-- Whether something may be executed.  Directories may. -/
def Entry.mode : Entry → Bool
  | .directory => true
  | .file _ executable => executable

/-- Staging where no directory is puts the content there, with the mode that the target has once it
is written. -/
theorem Lands.stage {tree : FileTree} {write : PendingWrite} {dir : Place} {name : String}
    (lands : Lands tree write.stagedPath dir name)
    (flat : tree.entryAt? (dir ++ [name]) ≠ some .directory) :
    ∃ written fresh later executable,
      Updated tree (dir ++ [name]) (some (.file (Text.encode write.content) fresh)) written ∧
      tree.stage write = .ok later ∧
      Updated tree (dir ++ [name]) (some (.file (Text.encode write.content) executable)) later ∧
      ∀ mode, written.mode? write.path = some mode → executable = mode := by
  obtain ⟨written, fresh, done, updated⟩ := lands.writeBytes flat (Text.encode write.content)
  rw [FileTree.stage, writeText, done, Results.ok_bind]
  cases held : written.mode? write.path with
  | none =>
      refine ⟨written, fresh, written, fresh, updated, rfl, updated, fun mode same => ?_⟩
      rw [held] at same
      cases same
  | some mode =>
      have landsOn := lands.of_sameDirectories updated.sameDirectories
      obtain ⟨later, set, second⟩ := landsOn.setExecutable updated.here mode
      refine ⟨written, fresh, later, mode, updated, set, updated.again second, fun _ same => ?_⟩
      rw [held] at same
      exact Option.some.inj same

theorem Lands.stage_directory {tree : FileTree} {write : PendingWrite} {dir : Place} {name : String}
    (lands : Lands tree write.stagedPath dir name)
    (directory : tree.entryAt? (dir ++ [name]) = some .directory) :
    tree.stage write = .error .isDirectory := by
  rw [FileTree.stage, writeText, lands.writeBytes_directory directory, Results.error_bind]

/-- A write goes to a slot. -/
structure GoesTo (tree : FileTree) (write : PendingWrite) (slot : Slot) : Prop where
  lands : Lands tree write.path slot.dir slot.name
  plain : '/' ∉ slot.name.toList

namespace GoesTo

variable {tree : FileTree} {write : PendingWrite} {slot : Slot}

theorem of_sameDirectories (goes : GoesTo tree write slot) {later : FileTree}
    (same : SameDirectories tree later) : GoesTo later write slot :=
  ⟨goes.lands.of_sameDirectories same, goes.plain⟩

/-- The staged file of a write lands beside its target. -/
theorem staged (goes : GoesTo tree write slot) :
    Lands tree write.stagedPath slot.dir (slot.name ++ PendingWrite.stagedSuffix) := by
  rw [PendingWrite.stagedPath, goes.lands.fileName?, Option.getD_some]
  exact goes.lands.withFileName (isName_staged slot.name) (plain_staged goes.plain)

/-- The mode of what is at the target. -/
theorem mode? (goes : GoesTo tree write slot) :
    tree.mode? write.path = (tree.entryAt? slot.target).map Entry.mode := by
  rw [FileTree.mode?]
  cases found : tree.get? slot.target with
  | none =>
      have absent := (entryAt?_eq_none_iff _ _).2 found
      obtain ⟨error, missing⟩ := goes.lands.locate_error absent
      rw [find, missing, Results.error_bind, absent]
      rfl
  | some there =>
      rw [goes.lands.find found, entryAt?, found]
      cases there <;> rfl

/-- **Staging a write** puts its content into the sibling, with the mode of the file at the
target. -/
theorem stage (goes : GoesTo tree write slot)
    (flat : tree.entryAt? slot.sibling ≠ some .directory) :
    ∃ later executable, tree.stage write = .ok later ∧
      Updated tree slot.sibling (some (.file (Text.encode write.content) executable)) later ∧
      ∀ content mode, tree.entryAt? slot.target = some (.file content mode) →
        executable = mode := by
  obtain ⟨written, fresh, later, executable, filled, done, updated, mode⟩ := goes.staged.stage flat
  refine ⟨later, executable, done, updated, fun content kept file => mode kept ?_⟩
  have target : written.entryAt? slot.target = tree.entryAt? slot.target :=
    filled.elsewhere slot.sibling_ne_target.symm
  rw [(goes.of_sameDirectories filled.sameDirectories).mode?, target, file]
  rfl

theorem stage_directory (goes : GoesTo tree write slot)
    (directory : tree.entryAt? slot.sibling = some .directory) :
    tree.stage write = .error .isDirectory :=
  goes.staged.stage_directory directory

/-- **Moving a staged file** empties the sibling and puts its file at the target. -/
theorem commit (goes : GoesTo tree write slot) {content : ByteArray} {executable : Bool}
    (file : tree.entryAt? slot.sibling = some (.file content executable))
    (flat : tree.entryAt? slot.target ≠ some .directory) :
    ∃ between later, tree.rename write.stagedPath write.path = .ok later ∧
      Updated tree slot.sibling none between ∧
      Updated between slot.target (some (.file content executable)) later :=
  goes.staged.rename goes.lands slot.name_ne_staged file flat

/-- **Staging that succeeds** stages the first write, beside which no directory lies, and then the
others. -/
theorem stageAll_cons_ok (goes : GoesTo tree write slot) {staged writes : List PendingWrite}
    {later : FileTree} (done : tree.stageAll staged (write :: writes) = (.ok (), later)) :
    tree.entryAt? slot.sibling ≠ some .directory ∧
      ∃ next executable, tree.stage write = .ok next ∧
        Updated tree slot.sibling (some (.file (Text.encode write.content) executable)) next ∧
        (∀ content mode, tree.entryAt? slot.target = some (.file content mode) →
          executable = mode) ∧
        next.stageAll (staged ++ [write]) writes = (.ok (), later) := by
  rw [stageAll] at done
  by_cases flat : tree.entryAt? slot.sibling = some .directory
  · rw [goes.stage_directory flat] at done
    cases done
  · obtain ⟨next, executable, staging, updated, mode⟩ := goes.stage flat
    rw [staging] at done
    exact ⟨flat, next, executable, staging, updated, mode, done⟩

end GoesTo

/-! ## Runs of writes -/

/-- Trees with the same directories that differ only inside some places. -/
structure SameOutside (inside : Place → Prop) (tree later : FileTree) : Prop where
  directories : SameDirectories tree later
  outside : ∀ place, ¬ inside place → later.entryAt? place = tree.entryAt? place

namespace SameOutside

variable {inside : Place → Prop} {tree later : FileTree}

theorem refl (inside : Place → Prop) (tree : FileTree) : SameOutside inside tree tree :=
  ⟨.refl tree, fun _ _ => rfl⟩

theorem trans {last : FileTree} (same : SameOutside inside tree later)
    (next : SameOutside inside later last) : SameOutside inside tree last where
  directories := same.directories.trans next.directories
  outside place apart := (next.outside place apart).trans (same.outside place apart)

theorem mono {wider : Place → Prop} (same : SameOutside inside tree later)
    (within : ∀ place, inside place → wider place) : SameOutside wider tree later where
  directories := same.directories
  outside place apart := same.outside place fun holds => apart (within place holds)

theorem of_updated {place : Place} {value : Option Entry}
    (updated : Updated tree place value later) (within : inside place) :
    SameOutside inside tree later where
  directories := updated.sameDirectories
  outside _ apart := updated.elsewhere fun same => apart (same ▸ within)

end SameOutside

/-- The siblings of some writes' slots. -/
def Siblings (slot : PendingWrite → Slot) (writes : List PendingWrite) (place : Place) : Prop :=
  ∃ write ∈ writes, place = (slot write).sibling

/-- The slots of some writes. -/
def Targets (slot : PendingWrite → Slot) (writes : List PendingWrite) (place : Place) : Prop :=
  ∃ write ∈ writes, place = (slot write).target

variable {slot : PendingWrite → Slot}

/-- Discarding staged files changes nothing but siblings. -/
theorem sameOutside_discard {tree : FileTree} {write : PendingWrite}
    (goes : GoesTo tree write (slot write)) {inside : Place → Prop}
    (within : inside (slot write).sibling) :
    SameOutside inside tree (tree.discard write.stagedPath) := by
  by_cases flat : tree.entryAt? (slot write).sibling = some .directory
  · rw [goes.staged.discard_directory flat]
    exact .refl inside tree
  · exact .of_updated (goes.staged.discard flat) within

theorem sameOutside_discardStaged {tree : FileTree} {writes : List PendingWrite}
    {inside : Place → Prop}
    (goes : ∀ write ∈ writes, GoesTo tree write (slot write))
    (within : ∀ write ∈ writes, inside (slot write).sibling) :
    SameOutside inside tree (tree.discardStaged writes) := by
  induction writes generalizing tree with
  | nil => exact .refl inside tree
  | cons write writes ih =>
      have first := sameOutside_discard (goes write List.mem_cons_self)
        (within write List.mem_cons_self)
      refine first.trans (ih ?_ fun other member => within other (List.mem_cons_of_mem _ member))
      intro other member
      exact (goes other (List.mem_cons_of_mem _ member)).of_sameDirectories first.directories

/-- **Staging that fails** changes nothing but siblings. -/
theorem sameOutside_of_stageAll_error {tree later : FileTree} {staged writes : List PendingWrite}
    {error : FileError} {inside : Place → Prop}
    (goes : ∀ write ∈ staged ++ writes, GoesTo tree write (slot write))
    (within : ∀ write ∈ staged ++ writes, inside (slot write).sibling)
    (failed : tree.stageAll staged writes = (.error error, later)) :
    SameOutside inside tree later := by
  induction writes generalizing tree staged with
  | nil => cases failed
  | cons write writes ih =>
      have here := goes write (by simp)
      rw [stageAll] at failed
      by_cases flat : tree.entryAt? (slot write).sibling = some .directory
      · rw [here.stage_directory flat] at failed
        cases failed
        have first := sameOutside_discard here (within write (by simp))
        have goesOn : ∀ other ∈ staged,
            GoesTo (tree.discard write.stagedPath) other (slot other) := fun other member =>
          (goes other (by simp [member])).of_sameDirectories first.directories
        exact first.trans (sameOutside_discardStaged goesOn fun other member =>
          within other (by simp [member]))
      · obtain ⟨next, _, done, updated, _⟩ := here.stage flat
        rw [done] at failed
        have first : SameOutside inside tree next := .of_updated updated (within write (by simp))
        refine first.trans (ih ?_ ?_ failed)
        · intro other member
          exact (goes other (by simpa using member)).of_sameDirectories first.directories
        · intro other member
          exact within other (by simpa using member)

/-- Writes that go to distinct slots, none of which is the sibling of one of them. -/
structure Separate (tree : FileTree) (slot : PendingWrite → Slot) (writes : List PendingWrite) :
    Prop where
  goes : ∀ write ∈ writes, GoesTo tree write (slot write)
  distinct : writes.Pairwise fun first second => slot first ≠ slot second
  apart : ∀ first ∈ writes, ∀ second ∈ writes, (slot first).target ≠ (slot second).sibling

namespace Separate

variable {tree : FileTree} {write : PendingWrite} {writes : List PendingWrite}

theorem tail (separate : Separate tree slot (write :: writes)) {later : FileTree}
    (same : SameDirectories tree later) : Separate later slot writes where
  goes other member :=
    (separate.goes other (List.mem_cons_of_mem _ member)).of_sameDirectories same
  distinct := separate.distinct.of_cons
  apart first member second member' :=
    separate.apart first (List.mem_cons_of_mem _ member) second (List.mem_cons_of_mem _ member')

theorem of_sameDirectories (separate : Separate tree slot writes) {later : FileTree}
    (same : SameDirectories tree later) : Separate later slot writes where
  goes := fun other member => (separate.goes other member).of_sameDirectories same
  distinct := separate.distinct
  apart := separate.apart

theorem not_siblings (separate : Separate tree slot (write :: writes)) :
    ¬ Siblings slot writes (slot write).sibling := by
  rintro ⟨other, member, same⟩
  exact (List.pairwise_cons.1 separate.distinct).1 other member (Slot.sibling_injective same)

theorem not_targets (separate : Separate tree slot (write :: writes)) :
    ¬ Targets slot writes (slot write).target := by
  rintro ⟨other, member, same⟩
  exact (List.pairwise_cons.1 separate.distinct).1 other member (Slot.target_injective same)

/-- Moving the first staged file does not touch the siblings of the other writes. -/
theorem sibling_of_commit (separate : Separate tree slot (write :: writes))
    {between next : FileTree} {moved : Option Entry}
    (emptied : Updated tree (slot write).sibling none between)
    (filled : Updated between (slot write).target moved next) :
    ∀ other ∈ writes, next.entryAt? (slot other).sibling = tree.entryAt? (slot other).sibling := by
  intro other member
  rw [filled.elsewhere, emptied.elsewhere]
  · intro same
    exact separate.not_siblings ⟨other, member, same.symm⟩
  · exact (separate.apart write List.mem_cons_self other (List.mem_cons_of_mem _ member)).symm

/-- Moving the first staged file does not touch the targets of the other writes. -/
theorem target_of_commit (separate : Separate tree slot (write :: writes))
    {between next : FileTree} {moved : Option Entry}
    (emptied : Updated tree (slot write).sibling none between)
    (filled : Updated between (slot write).target moved next) :
    ∀ other ∈ writes, next.entryAt? (slot other).target = tree.entryAt? (slot other).target := by
  intro other member
  rw [filled.elsewhere, emptied.elsewhere]
  · exact separate.apart other (List.mem_cons_of_mem _ member) write List.mem_cons_self
  · intro same
    exact separate.not_targets ⟨other, member, same.symm⟩

end Separate

theorem Siblings.of_tail {write : PendingWrite} {writes : List PendingWrite} {place : Place}
    (sibling : Siblings slot writes place) : Siblings slot (write :: writes) place := by
  obtain ⟨other, member, rfl⟩ := sibling
  exact ⟨other, List.mem_cons_of_mem _ member, rfl⟩

theorem Targets.of_tail {write : PendingWrite} {writes : List PendingWrite} {place : Place}
    (target : Targets slot writes place) : Targets slot (write :: writes) place := by
  obtain ⟨other, member, rfl⟩ := target
  exact ⟨other, List.mem_cons_of_mem _ member, rfl⟩

/-- A place of a later tree carries a write: it holds the content of the write, with the mode of the
file at the target. -/
def Carries (tree later : FileTree) (write : PendingWrite) (slot : Slot) (place : Place) : Prop :=
  ∃ executable,
    later.entryAt? place = some (.file (Text.encode write.content) executable) ∧
      ∀ content mode, tree.entryAt? slot.target = some (.file content mode) → executable = mode

/-- **Staging that succeeds** stages every write and changes nothing but siblings. -/
theorem stageAll_ok {tree later : FileTree} {staged writes : List PendingWrite}
    (separate : Separate tree slot writes)
    (done : tree.stageAll staged writes = (.ok (), later)) :
    SameOutside (Siblings slot writes) tree later ∧
      ∀ write ∈ writes,
        Carries tree later write (slot write) (slot write).sibling := by
  induction writes generalizing tree staged with
  | nil =>
      cases done
      exact ⟨.refl _ _, fun write member => absurd member List.not_mem_nil⟩
  | cons write writes ih =>
      obtain ⟨_, next, executable, _, updated, mode, rest⟩ :=
        (separate.goes write List.mem_cons_self).stageAll_cons_ok done
      obtain ⟨same, each⟩ := ih (separate.tail updated.sameDirectories) rest
      have first : SameOutside (Siblings slot (write :: writes)) tree next :=
        .of_updated updated ⟨write, List.mem_cons_self, rfl⟩
      refine ⟨first.trans (same.mono fun _ => .of_tail), ?_⟩
      intro other member
      rcases List.mem_cons.1 member with rfl | member
      · refine ⟨executable, ?_, mode⟩
        rw [same.outside _ separate.not_siblings, updated.here]
      · obtain ⟨executable, held, mode⟩ := each other member
        refine ⟨executable, held, fun content mode' file => mode content mode' ?_⟩
        rw [updated.elsewhere]
        · exact file
        · exact separate.apart other (List.mem_cons_of_mem _ member) write List.mem_cons_self

/-- **Moving staged files** onto distinct targets that are no directories succeeds: every target
then holds what was staged for it, and nothing else changes but siblings. -/
theorem commitAll_ok {tree : FileTree} {writes : List PendingWrite}
    (separate : Separate tree slot writes)
    (files : ∀ write ∈ writes, ∃ content executable,
      tree.entryAt? (slot write).sibling = some (.file content executable))
    (flat : ∀ write ∈ writes, tree.entryAt? (slot write).target ≠ some .directory) :
    ∃ later, tree.commitAll writes = (.ok (), later) ∧
      SameOutside (fun place => Siblings slot writes place ∨ Targets slot writes place)
        tree later ∧
      ∀ write ∈ writes,
        later.entryAt? (slot write).target = tree.entryAt? (slot write).sibling := by
  induction writes generalizing tree with
  | nil => exact ⟨tree, rfl, .refl _ tree, fun write member => absurd member List.not_mem_nil⟩
  | cons write writes ih =>
      obtain ⟨content, executable, file⟩ := files write List.mem_cons_self
      obtain ⟨between, next, moving, emptied, filled⟩ :=
        (separate.goes write List.mem_cons_self).commit file (flat write List.mem_cons_self)
      have first : SameOutside (fun place => Siblings slot (write :: writes) place ∨
          Targets slot (write :: writes) place) tree next :=
        (SameOutside.of_updated emptied (.inl ⟨write, List.mem_cons_self, rfl⟩)).trans
          (.of_updated filled (.inr ⟨write, List.mem_cons_self, rfl⟩))
      have sibling := separate.sibling_of_commit emptied filled
      have target := separate.target_of_commit emptied filled
      obtain ⟨later, done, same, each⟩ := ih (separate.tail first.directories)
        (fun other member => sibling other member ▸ files other (List.mem_cons_of_mem _ member))
        (fun other member => target other member ▸ flat other (List.mem_cons_of_mem _ member))
      refine ⟨later, ?_, ?_, ?_⟩
      · rw [commitAll, moving]
        exact done
      · exact first.trans (same.mono fun _ => Or.imp .of_tail .of_tail)
      · intro other member
        rcases List.mem_cons.1 member with rfl | member
        · rw [same.outside, filled.here, file]
          rintro (⟨later, member, equal⟩ | inside)
          · exact separate.apart other List.mem_cons_self later
              (List.mem_cons_of_mem _ member) equal
          · exact separate.not_targets inside
        · rw [each other member, sibling other member]

/-! ## Writing all files -/

/-- **Writing several files is all or nothing** where the targets are distinct and hold no
directories.  A failure leaves everything but siblings as it was; after a success every target holds
its new content, with the mode of the file it replaced, and nothing else has changed but
siblings. -/
theorem writeAll_outcome {tree : FileTree} {writes : List PendingWrite}
    (separate : Separate tree slot writes)
    (flat : ∀ write ∈ writes, tree.entryAt? (slot write).target ≠ some .directory) :
    ∃ later,
      (∃ error, tree.writeAll writes = (.error error, later) ∧
        tree.stageAll [] writes = (.error error, later) ∧
        SameOutside (Siblings slot writes) tree later) ∨
      tree.writeAll writes = (.ok (), later) ∧
        SameOutside (fun place => Siblings slot writes place ∨ Targets slot writes place)
          tree later ∧
        ∀ write ∈ writes, Carries tree later write (slot write) (slot write).target := by
  cases staging : tree.stageAll [] writes with
  | mk result between =>
      cases result with
      | error error =>
          refine ⟨between, .inl ⟨error, ?_, rfl, ?_⟩⟩
          · rw [writeAll, staging]
          · exact sameOutside_of_stageAll_error separate.goes
              (fun write member => ⟨write, member, rfl⟩) staging
      | ok =>
          obtain ⟨same, each⟩ := stageAll_ok separate staging
          have separateLater := separate.of_sameDirectories same.directories
          obtain ⟨later, done, sameLater, held⟩ := commitAll_ok separateLater
            (fun write member => by
              obtain ⟨executable, file, _⟩ := each write member
              exact ⟨_, executable, file⟩)
            (fun write member holds => flat write member ((same.directories _).2 holds))
          refine ⟨later, .inr ⟨?_, ?_, ?_⟩⟩
          · rw [writeAll, staging]
            exact done
          · exact (same.mono fun _ => .inl).trans sameLater
          · intro write member
            obtain ⟨executable, file, mode⟩ := each write member
            exact ⟨executable, (held write member).trans file, mode⟩

/-! ## Writes that succeeded -/

/-- Where staging succeeds, no staged file goes where a directory is. -/
theorem flat_of_stageAll_ok {tree later : FileTree} {staged writes : List PendingWrite}
    (goes : ∀ write ∈ writes, GoesTo tree write (slot write))
    (done : tree.stageAll staged writes = (.ok (), later)) :
    SameDirectories tree later ∧
      ∀ write ∈ writes, tree.entryAt? (slot write).sibling ≠ some .directory := by
  induction writes generalizing tree staged with
  | nil =>
      cases done
      exact ⟨.refl _, fun write member => absurd member List.not_mem_nil⟩
  | cons write writes ih =>
      obtain ⟨flat, next, _, _, updated, _, rest⟩ :=
        (goes write List.mem_cons_self).stageAll_cons_ok done
      have same := updated.sameDirectories
      obtain ⟨directories, others⟩ := ih (fun other member =>
        (goes other (List.mem_cons_of_mem _ member)).of_sameDirectories same) rest
      refine ⟨same.trans directories, List.forall_mem_cons.2 ⟨flat, fun other member => ?_⟩⟩
      rw [ne_eq, same]
      exact others other member

/-- Where moving succeeds, every sibling held a file, so that no slot comes twice: moving a staged
file empties its sibling. -/
theorem distinct_of_commitAll_ok {tree later : FileTree} {writes : List PendingWrite}
    (goes : ∀ write ∈ writes, GoesTo tree write (slot write))
    (apart : ∀ first ∈ writes, ∀ second ∈ writes, (slot first).target ≠ (slot second).sibling)
    (flatSiblings : ∀ write ∈ writes, tree.entryAt? (slot write).sibling ≠ some .directory)
    (flat : ∀ write ∈ writes, tree.entryAt? (slot write).target ≠ some .directory)
    (done : tree.commitAll writes = (.ok (), later)) :
    (∀ write ∈ writes, tree.entryAt? (slot write).sibling ≠ none) ∧
      writes.Pairwise fun first second => slot first ≠ slot second := by
  induction writes generalizing tree with
  | nil => exact ⟨fun write member => absurd member List.not_mem_nil, .nil⟩
  | cons write writes ih =>
      have here := goes write List.mem_cons_self
      rw [commitAll] at done
      cases held : tree.entryAt? (slot write).sibling with
      | none =>
          obtain ⟨error, missing⟩ := here.staged.locate_error held
          rw [rename, missing, Results.error_bind] at done
          cases done
      | some there =>
          cases there with
          | directory => exact absurd held (flatSiblings write List.mem_cons_self)
          | file content executable =>
              obtain ⟨between, next, moving, emptied, filled⟩ :=
                here.commit held (flat write List.mem_cons_self)
              rw [moving] at done
              have same := emptied.sameDirectories.trans filled.sameDirectories
              obtain ⟨present, distinct⟩ := ih
                (fun other member =>
                  (goes other (List.mem_cons_of_mem _ member)).of_sameDirectories same)
                (fun first member second member' => apart first (List.mem_cons_of_mem _ member)
                  second (List.mem_cons_of_mem _ member'))
                (fun other member directory =>
                  flatSiblings other (List.mem_cons_of_mem _ member) ((same _).2 directory))
                (fun other member directory =>
                  flat other (List.mem_cons_of_mem _ member) ((same _).2 directory)) done
              have empty : next.entryAt? (slot write).sibling = none := by
                rw [filled.elsewhere (slot write).sibling_ne_target, emptied.here]
              have different : ∀ other ∈ writes, slot write ≠ slot other := by
                intro other member equal
                exact present other member (equal ▸ empty)
              refine ⟨List.forall_mem_cons.2 ⟨by simp [held], fun other member => ?_⟩,
                List.pairwise_cons.2 ⟨different, distinct⟩⟩
              have stays : next.entryAt? (slot other).sibling =
                  tree.entryAt? (slot other).sibling := by
                rw [filled.elsewhere, emptied.elsewhere]
                · exact fun equal => different other member (Slot.sibling_injective equal).symm
                · exact (apart write List.mem_cons_self other
                    (List.mem_cons_of_mem _ member)).symm
              rw [← stays]
              exact present other member

/-- **Writes that succeed do not disturb each other**, if none goes to the sibling of another. -/
theorem separate_of_writeAll_ok {tree later : FileTree} {writes : List PendingWrite}
    (goes : ∀ write ∈ writes, GoesTo tree write (slot write))
    (apart : ∀ first ∈ writes, ∀ second ∈ writes, (slot first).target ≠ (slot second).sibling)
    (flat : ∀ write ∈ writes, tree.entryAt? (slot write).target ≠ some .directory)
    (done : tree.writeAll writes = (.ok (), later)) : Separate tree slot writes := by
  rw [writeAll] at done
  split at done
  next between staging =>
    obtain ⟨same, flatSiblings⟩ := flat_of_stageAll_ok goes staging
    refine ⟨goes, (distinct_of_commitAll_ok ?_ apart ?_ ?_ done).2, apart⟩
    · exact fun write member => (goes write member).of_sameDirectories same
    · exact fun write member directory => flatSiblings write member ((same _).2 directory)
    · exact fun write member directory => flat write member ((same _).2 directory)
  next => cases done

end Uplift.FileTree
