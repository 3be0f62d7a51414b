import Uplift.Proofs.FileTree.Names
import Uplift.Proofs.FileTree.Staging

/-!
# Directories after staged writes

Writing files that exist leaves every directory listed as before, in the same order, without the
staged files (`swept_of_writeAll_ok`).  A file that already had the name of a staged file is gone:
it was written over, and moved onto its target.

What a directory lists is followed through single changes first (`listing?_alter`).  Apart from
staged files, neither staging nor moving shows in it (`SameListing`).
-/

set_option autoImplicit false

namespace Uplift.FileTree

/-! ## Writes to files that exist -/

/-- The slot of the file that a path leads to. -/
def slotOf (tree : FileTree) (path : Path) : Slot :=
  match tree.locate path with
  | .ok place => ⟨place.dropLast, place.getLast?.getD ""⟩
  | .error _ => ⟨[], ""⟩

/-- A write to a file goes to the slot of the file. -/
theorem goesTo_slotOf {tree : FileTree} (wellFormed : tree.WellFormed) {path : Path} {place : Place}
    (located : tree.locate path = .ok place) {bytes : ByteArray} {executable : Bool}
    (file : tree.entryAt? place = some (.file bytes executable)) (content : String) :
    (slotOf tree path).target = place ∧ GoesTo tree ⟨path, content⟩ (slotOf tree path) := by
  obtain ⟨dir, name, rfl, lands⟩ := lands_of_file located file
  have slot : slotOf tree path = ⟨dir, name⟩ := by
    simp [slotOf, located]
  have there : tree.entryAt? (dir ++ [name]) ≠ none := by simp [file]
  rw [slot]
  exact ⟨rfl, lands, (wellFormed.isEntryName there).2⟩

/-! ## Listings -/

/-- The names a directory at a place lists. -/
def listing? (tree : FileTree) (place : Place) : Option (List String) :=
  (tree.get? place).bind fun found =>
    match found with
    | .directory entries => some (entries.map Prod.fst)
    | .file .. => none

theorem listing?_of_directory {tree : FileTree} {place : Place} {entries : Entries}
    (found : tree.get? place = some (.directory entries)) :
    tree.listing? place = some (entries.map Prod.fst) := by
  rw [listing?, found]
  rfl

/-- Nothing is listed at or below what is no directory. -/
theorem listing?_of_flat {tree : FileTree} (flat : tree.isDirectory = false) (place : Place) :
    tree.listing? place = none := by
  cases tree with
  | directory entries => cases flat
  | file content executable =>
      cases place with
      | nil => rfl
      | cons name place => rfl

theorem listing?_cons (entries : Entries) (name : String) (place : Place) :
    (FileTree.directory entries).listing? (name :: place) =
      (Entries.get? entries name).bind fun child => child.listing? place := by
  rw [listing?, get?, child?, Option.bind_assoc]
  rfl

/-- A change from and to what is no directory shows in the listing of its own directory alone. -/
theorem listing?_alter (change : Option FileTree → Option FileTree) {tree : FileTree} {dir : Place}
    {entries : Entries} (found : tree.get? dir = some (.directory entries)) {name : String}
    (flat : ∀ child, Entries.get? entries name = some child → child.isDirectory = false)
    (stays : ∀ child, change (Entries.get? entries name) = some child →
      child.isDirectory = false) (other : Place) :
    (alter change tree (dir ++ [name])).listing? other =
      if other = dir then
        some ((Entries.put entries name (change (Entries.get? entries name))).map Prod.fst)
      else tree.listing? other := by
  induction dir generalizing tree other with
  | nil =>
      cases found
      cases other with
      | nil => rfl
      | cons next other =>
          rw [List.nil_append, alter, if_neg (List.cons_ne_nil _ _), listing?_cons, listing?_cons,
            Entries.get?_put]
          split
          next same =>
            subst same
            have nothing : ∀ value : Option FileTree,
                (∀ child, value = some child → child.isDirectory = false) →
                  (value.bind fun child => child.listing? other) = none := by
              intro value flat
              cases value with
              | none => rfl
              | some child => exact listing?_of_flat (flat child rfl) other
            rw [nothing _ stays, nothing _ flat]
          next => rfl
  | cons first dir ih =>
      obtain ⟨others, child, rfl, here, below⟩ := exists_child_of_get? found
      rw [List.cons_append, alter_cons change others first (by simp), here]
      cases other with
      | nil =>
          have member : first ∈ others.map Prod.fst :=
            Entries.get?_ne_none_iff.1 (by simp [here])
          rw [if_neg (List.cons_ne_nil _ _).symm]
          simp only [listing?, get?, Option.bind_some, Entries.names_insert, if_pos member]
      | cons next other =>
          simp only [listing?_cons, Entries.get?_insert, List.cons.injEq]
          by_cases same : first = next
          · subst same
            rw [if_pos rfl, here, Option.bind_some, Option.bind_some, ih below other]
            simp only [true_and]
          · rw [if_neg same, if_neg fun equal => same equal.1.symm]

/-! ## Listings without staged files -/

/-- The names a directory lists, without those of some places. -/
def listed (staged : List Place) (tree : FileTree) (place : Place) : Option (List String) :=
  (tree.listing? place).map (List.filter fun name => place ++ [name] ∉ staged)

/-- Trees whose directories list the same, apart from some places. -/
def SameListing (staged : List Place) (tree later : FileTree) : Prop :=
  ∀ place, listed staged later place = listed staged tree place

namespace SameListing

variable {staged : List Place} {tree later : FileTree}

theorem refl (staged : List Place) (tree : FileTree) : SameListing staged tree tree :=
  fun _ => rfl

theorem trans {last : FileTree} (same : SameListing staged tree later)
    (next : SameListing staged later last) : SameListing staged tree last :=
  fun place => (next place).trans (same place)

/-- A change is not listed if the names it changes are those of staged files. -/
theorem of_alter (change : Option FileTree → Option FileTree) {dir : Place} {entries : Entries}
    (found : tree.get? dir = some (.directory entries)) {name : String}
    (flat : ∀ child, Entries.get? entries name = some child → child.isDirectory = false)
    (stays : ∀ child, change (Entries.get? entries name) = some child →
      child.isDirectory = false)
    (names : ((Entries.put entries name (change (Entries.get? entries name))).map Prod.fst).filter
        (fun other => dir ++ [other] ∉ staged) =
      (entries.map Prod.fst).filter fun other => dir ++ [other] ∉ staged) :
    SameListing staged tree (alter change tree (dir ++ [name])) := by
  intro other
  rw [listed, listed, listing?_alter change found flat stays]
  split
  next same =>
    subst same
    rw [listing?_of_directory found, Option.map_some, Option.map_some, names]
  next => rfl

end SameListing

section Changes

variable {staged : List Place} {tree : FileTree} {dir : Place} {name : String}

theorem isDirectory_of_flat {entries : Entries}
    (found : tree.get? dir = some (.directory entries))
    (flat : tree.entryAt? (dir ++ [name]) ≠ some .directory) :
    ∀ child, Entries.get? entries name = some child → child.isDirectory = false := by
  intro child here
  rw [entryAt?, get?_concat found, here, Option.map_some] at flat
  cases child with
  | file content executable => rfl
  | directory entries => exact absurd rfl flat

/-- Putting a file where a staged file goes, or where there is a file, shows in no listing. -/
theorem sameListing_set (parent : tree.entryAt? dir = some .directory)
    (flat : tree.entryAt? (dir ++ [name]) ≠ some .directory)
    (hidden : dir ++ [name] ∈ staged ∨ tree.entryAt? (dir ++ [name]) ≠ none)
    (content : ByteArray) (executable : Bool) :
    SameListing staged tree (tree.set (dir ++ [name]) (.file content executable)) := by
  obtain ⟨entries, found⟩ := (entryAt?_eq_directory_iff tree dir).1 parent
  refine .of_alter _ found (isDirectory_of_flat found flat) ?_ ?_
  · rintro child same
    cases same
    rfl
  · rw [Entries.put, Entries.names_insert]
    split
    next => rfl
    next fresh =>
      rcases hidden with hidden | present
      · rw [List.filter_append, List.filter_singleton]
        simp [hidden]
      · refine absurd (Entries.get?_ne_none_iff.1 ?_) fresh
        rwa [ne_eq, entryAt?_eq_none_iff, get?_concat found] at present

/-- Removing a staged file shows in no listing. -/
theorem sameListing_erase (parent : tree.entryAt? dir = some .directory)
    (flat : tree.entryAt? (dir ++ [name]) ≠ some .directory) (hidden : dir ++ [name] ∈ staged) :
    SameListing staged tree (tree.erase (dir ++ [name])) := by
  obtain ⟨entries, found⟩ := (entryAt?_eq_directory_iff tree dir).1 parent
  refine .of_alter _ found (isDirectory_of_flat found flat) (fun child same => by cases same) ?_
  rw [Entries.put, Entries.erase, List.filter_map, List.filter_map, List.filter_filter]
  refine congrArg _ (List.filter_congr fun entry _ => ?_)
  by_cases same : entry.1 = name
  · simp [same, hidden]
  · simp [same]

end Changes

/-! ## Single writes -/

section Writes

variable {staged : List Place} {tree later : FileTree}

theorem Lands.sameListing_writeBytes {path : Path} {dir : Place} {name : String}
    (lands : Lands tree path dir name)
    (flat : tree.entryAt? (dir ++ [name]) ≠ some .directory) (hidden : dir ++ [name] ∈ staged)
    {content : ByteArray} (done : tree.writeBytes path content = .ok later) :
    SameListing staged tree later := by
  have set := sameListing_set lands.directory flat (.inl hidden) content
  rw [FileTree.writeBytes, lands.locateNew, Results.ok_bind, lands.endsInSlash,
    if_neg Bool.false_ne_true] at done
  split at done
  · cases done
  next old executable _ =>
    cases done
    exact set executable
  next =>
    cases done
    exact set false

theorem Lands.sameListing_setExecutable {path : Path} {dir : Place} {name : String}
    (lands : Lands tree path dir name) {content : ByteArray} {old : Bool}
    (file : tree.entryAt? (dir ++ [name]) = some (.file content old)) {executable : Bool}
    (done : tree.setExecutable path executable = .ok later) : SameListing staged tree later := by
  rw [FileTree.setExecutable, lands.locate (by simp [file]), Results.ok_bind,
    (entryAt?_eq_file_iff _ _ _ _).1 file] at done
  cases done
  exact sameListing_set lands.directory (by simp [file]) (.inr (by simp [file])) content executable

namespace GoesTo

variable {write : PendingWrite} {slot : Slot}

/-- Staging a write shows in no listing. -/
theorem sameListing_stage (goes : GoesTo tree write slot)
    (flat : tree.entryAt? slot.sibling ≠ some .directory) (hidden : slot.sibling ∈ staged)
    (done : tree.stage write = .ok later) : SameListing staged tree later := by
  obtain ⟨written, writing, rest⟩ := Results.bind_eq_ok_iff.1 done
  have first := goes.staged.sameListing_writeBytes flat hidden writing
  obtain ⟨_, executable, again, updated⟩ :=
    goes.staged.writeBytes flat (Text.encode write.content)
  cases writing.symm.trans again
  split at rest
  · exact first.trans ((goes.of_sameDirectories updated.sameDirectories).staged
      |>.sameListing_setExecutable updated.here rest)
  · cases rest
    exact first

/-- Moving a staged file onto a file shows in no listing. -/
theorem sameListing_commit (goes : GoesTo tree write slot) {content : ByteArray}
    {executable : Bool} (file : tree.entryAt? slot.sibling = some (.file content executable))
    (flat : tree.entryAt? slot.target ≠ some .directory)
    (present : tree.entryAt? slot.target ≠ none) (hidden : slot.sibling ∈ staged)
    (done : tree.rename write.stagedPath write.path = .ok later) :
    SameListing staged tree later := by
  have flatSibling : tree.entryAt? slot.sibling ≠ some .directory := by simp [file]
  have located : tree.locate write.stagedPath = .ok slot.sibling :=
    goes.staged.locate (by rw [← Slot.sibling, file]; exact Option.some_ne_none _)
  have erased := sameListing_erase goes.lands.directory flatSibling hidden
  have view := entryAt?_erase_file goes.lands.directory flatSibling
  have target : (tree.erase slot.sibling).entryAt? slot.target = tree.entryAt? slot.target := by
    rw [Slot.sibling, view]
    exact Function.update_of_ne slot.sibling_ne_target.symm _ _
  have parent : (tree.erase slot.sibling).entryAt? slot.dir = some .directory := by
    rw [Slot.sibling, view, Function.update_of_ne]
    · exact goes.lands.directory
    · exact fun same => by simpa using congrArg List.length same
  have set : SameListing staged (tree.erase slot.sibling)
      ((tree.erase slot.sibling).set slot.target (.file content executable)) :=
    sameListing_set parent (target ▸ flat) (.inr (target ▸ present)) content executable
  rw [rename, located, Results.ok_bind,
    goes.lands.locateNew, Results.ok_bind, (entryAt?_eq_file_iff _ _ _ _).1 file] at done
  simp only [goes.lands.endsInName, goes.lands.endsInSlash, Bool.and_false, Bool.not_true,
    Bool.false_eq_true, if_false] at done
  split at done
  · cases done
    exact .refl staged tree
  · split at done
    · cases done
    · obtain ⟨_, _, equal⟩ := Results.bind_eq_ok_iff.1 done
      cases equal
      exact erased.trans set

end GoesTo

end Writes

/-! ## Runs of writes -/

section Runs

variable {staged : List Place} {slot : PendingWrite → Slot} {tree later : FileTree}
  {writes : List PendingWrite}

theorem sameListing_stageAll_ok {before : List PendingWrite}
    (goes : ∀ write ∈ writes, GoesTo tree write (slot write))
    (hidden : ∀ write ∈ writes, (slot write).sibling ∈ staged)
    (done : tree.stageAll before writes = (.ok (), later)) : SameListing staged tree later := by
  induction writes generalizing tree before with
  | nil =>
      cases done
      exact .refl staged _
  | cons write writes ih =>
      have here := goes write List.mem_cons_self
      obtain ⟨flat, next, _, staging, updated, _, rest⟩ := here.stageAll_cons_ok done
      have first := here.sameListing_stage flat (hidden write List.mem_cons_self) staging
      refine first.trans (ih ?_ ?_ rest)
      · intro other member
        exact (goes other (List.mem_cons_of_mem _ member)).of_sameDirectories
          updated.sameDirectories
      · exact fun other member => hidden other (List.mem_cons_of_mem _ member)

/-- Moving staged files onto files empties the siblings, and shows in no listing but theirs. -/
theorem sameListing_commitAll_ok (separate : Separate tree slot writes)
    (files : ∀ write ∈ writes, ∃ content executable,
      tree.entryAt? (slot write).sibling = some (.file content executable))
    (targets : ∀ write ∈ writes, ∃ content executable,
      tree.entryAt? (slot write).target = some (.file content executable))
    (hidden : ∀ write ∈ writes, (slot write).sibling ∈ staged)
    (done : tree.commitAll writes = (.ok (), later)) :
    SameListing staged tree later ∧
      ∀ write ∈ writes, later.entryAt? (slot write).sibling = none := by
  have flat : ∀ write ∈ writes, tree.entryAt? (slot write).target ≠ some .directory := by
    intro write member
    obtain ⟨_, _, file⟩ := targets write member
    simp [file]
  induction writes generalizing tree with
  | nil =>
      cases done
      exact ⟨.refl staged _, fun write member => absurd member List.not_mem_nil⟩
  | cons write writes ih =>
      obtain ⟨content, executable, file⟩ := files write List.mem_cons_self
      obtain ⟨_, _, held⟩ := targets write List.mem_cons_self
      have here := separate.goes write List.mem_cons_self
      obtain ⟨between, next, moving, emptied, filled⟩ :=
        here.commit file (flat write List.mem_cons_self)
      rw [commitAll, moving] at done
      have first := here.sameListing_commit file (flat write List.mem_cons_self) (by simp [held])
        (hidden write List.mem_cons_self) moving
      have directories := emptied.sameDirectories.trans filled.sameDirectories
      have sibling := separate.sibling_of_commit emptied filled
      have target := separate.target_of_commit emptied filled
      have filesLater : ∀ other ∈ writes, ∃ content executable,
          next.entryAt? (slot other).sibling = some (.file content executable) :=
        fun other member => sibling other member ▸ files other (List.mem_cons_of_mem _ member)
      have flatLater : ∀ other ∈ writes, next.entryAt? (slot other).target ≠ some .directory :=
        fun other member => target other member ▸ flat other (List.mem_cons_of_mem _ member)
      obtain ⟨listing, emptiedLater⟩ := ih (separate.tail directories) filesLater
        (fun other member => target other member ▸ targets other (List.mem_cons_of_mem _ member))
        (fun other member => hidden other (List.mem_cons_of_mem _ member)) done flatLater
      refine ⟨first.trans listing, List.forall_mem_cons.2 ⟨?_, emptiedLater⟩⟩
      obtain ⟨_, again, same, _⟩ :=
        commitAll_ok (separate.tail directories) filesLater flatLater
      cases done.symm.trans again
      rw [same.outside, filled.elsewhere (slot write).sibling_ne_target, emptied.here]
      rintro (inside | ⟨other, member, equal⟩)
      · exact separate.not_siblings inside
      · exact separate.apart other (List.mem_cons_of_mem _ member) write List.mem_cons_self
          equal.symm

/-- **What swept staged files leave**: the same directories, listed in the same order, and the same
files apart from staged ones, which are gone. -/
structure Swept (staged : List Place) (tree later : FileTree) : Prop where
  directories : SameDirectories tree later
  flat : ∀ place ∈ staged, tree.entryAt? place ≠ some .directory
  present : ∀ place, later.entryAt? place ≠ none ↔ tree.entryAt? place ≠ none ∧ place ∉ staged
  listing : ∀ place, later.listing? place = listed staged tree place

/-- Without staged files, a directory lists what is left when they are taken out. -/
theorem listed_of_gone (gone : ∀ place ∈ staged, tree.entryAt? place = none) (place : Place) :
    listed staged tree place = tree.listing? place := by
  rw [listed]
  cases found : tree.get? place with
  | none => rw [listing?, found]; rfl
  | some there =>
      cases there with
      | file content executable => rw [listing?, found]; rfl
      | directory entries =>
          rw [listing?_of_directory found, Option.map_some, List.filter_eq_self.2]
          intro name member
          rw [decide_eq_true_eq]
          intro inside
          have absent := gone _ inside
          rw [entryAt?_eq_none_iff, get?_concat found] at absent
          exact Entries.get?_ne_none_iff.2 member absent

/-- **Writing files that exist sweeps away staged files.** -/
theorem swept_of_writeAll_ok (separate : Separate tree slot writes)
    (targets : ∀ write ∈ writes, ∃ content executable,
      tree.entryAt? (slot write).target = some (.file content executable))
    (done : tree.writeAll writes = (.ok (), later)) :
    Swept (writes.map fun write => (slot write).sibling) tree later := by
  have hidden : ∀ write ∈ writes,
      (slot write).sibling ∈ writes.map fun write => (slot write).sibling :=
    fun write member => List.mem_map_of_mem member
  have siblings : ∀ place, Siblings slot writes place ↔
      place ∈ writes.map fun write => (slot write).sibling := by
    intro place
    simp only [Siblings, List.mem_map, eq_comm]
  rw [writeAll] at done
  split at done
  next between staging =>
    obtain ⟨same, each⟩ := stageAll_ok separate staging
    obtain ⟨_, flat⟩ := flat_of_stageAll_ok separate.goes staging
    have separateLater := separate.of_sameDirectories same.directories
    have files : ∀ write ∈ writes, ∃ content executable,
        between.entryAt? (slot write).sibling = some (.file content executable) := by
      intro write member
      obtain ⟨executable, file, _⟩ := each write member
      exact ⟨_, executable, file⟩
    have targetsLater : ∀ write ∈ writes, ∃ content executable,
        between.entryAt? (slot write).target = some (.file content executable) := by
      intro write member
      rw [same.outside]
      · exact targets write member
      · rintro ⟨other, member', equal⟩
        exact separate.apart write member other member' equal
    obtain ⟨_, again, sameLater, held⟩ := commitAll_ok separateLater files fun write member => by
      obtain ⟨_, _, file⟩ := targetsLater write member
      simp [file]
    cases done.symm.trans again
    obtain ⟨listing, emptied⟩ :=
      sameListing_commitAll_ok separateLater files targetsLater hidden done
    have gone : ∀ place ∈ writes.map fun write => (slot write).sibling,
        later.entryAt? place = none := by
      intro place member
      obtain ⟨write, among, rfl⟩ := List.mem_map.1 member
      exact emptied write among
    refine ⟨same.directories.trans sameLater.directories, ?_, fun place => ?_, fun place => ?_⟩
    · intro place member
      obtain ⟨write, among, rfl⟩ := List.mem_map.1 member
      exact flat write among
    · by_cases staged : place ∈ writes.map fun write => (slot write).sibling
      · simp [gone place staged, staged]
      · by_cases target : Targets slot writes place
        · obtain ⟨write, among, rfl⟩ := target
          obtain ⟨_, _, file⟩ := targets write among
          obtain ⟨_, _, moved⟩ := files write among
          simp [held write among, moved, file, staged]
        · have apart : ¬ Siblings slot writes place := fun sibling =>
            staged ((siblings place).1 sibling)
          rw [sameLater.outside place (not_or.2 ⟨apart, target⟩), same.outside place apart]
          simp [staged]
    · rw [← listed_of_gone gone]
      exact (sameListing_stageAll_ok separate.goes hidden staging).trans listing place
  next => cases done

end Runs

end Uplift.FileTree
