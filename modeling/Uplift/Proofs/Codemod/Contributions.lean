import Uplift.Proofs.Codemod.Imports
import Uplift.Proofs.Codemod.Packages
import Uplift.Proofs.FileTree.Walking

/-!
# What source files contribute to a plan

A plan looks at the files below its target that no skipped directory holds (`mem_placesBelow_iff`),
in the order of their places.  Those with the extension of a source contribute an edit, their name
or a message each (`sourceAt_of_mem_sourcesOf`), and whatever is collected from what was found is
collected from these contributions (`filterMap_findingsOf`).
-/

set_option autoImplicit false

namespace Uplift.Codemod.Imports

open FileTree (Place Opens Lands IsEntryName comparePlaces filePlaces)

/-! ## Files below a target -/

section Files

variable {tree : FileTree} {target : Path}

/-- The places of the files that a plan looks at, from the target. -/
def placesBelow (tree : FileTree) (target : Path) : List Place :=
  match tree.find target with
  | .ok top => filePlaces (fun name => !skippedDirectories.contains name) top
  | .error _ => []

theorem filesBelow_eq (tree : FileTree) (target : Path) :
    filesBelow tree target = (tree.find target).map fun _ =>
      (placesBelow tree target).map target.below := by
  rw [filesBelow, placesBelow]
  cases found : tree.find target with
  | error error => rfl
  | ok top =>
      change (if top.isFile then _ else _) = Except.ok (List.map target.below (filePlaces _ top))
      unfold filePlaces
      split
      next => rfl
      next =>
        rw [List.map_map, ← List.filterMap_eq_filter, List.map_filterMap]
        refine congrArg Except.ok (List.filterMap_congr fun entry _ => ?_)
        cases isFile : entry.2.isFile <;> simp [Option.guard, isFile, Path.below]

/-- **The files that a plan looks at** are all below the target, but for those in directories that
are skipped. -/
theorem mem_placesBelow_iff (wellFormed : tree.WellFormed) {names : Place} :
    names ∈ placesBelow tree target ↔
      (∃ top content executable, tree.locate target = .ok top ∧
        tree.get? (top ++ names) = some (.file content executable)) ∧
      ∀ name ∈ names.dropLast, name ∉ skippedDirectories := by
  rw [placesBelow, FileTree.find]
  cases located : tree.locate target with
  | error error => simp
  | ok top =>
      rw [Results.ok_bind]
      cases there : tree.get? top with
      | none => simp [FileTree.get?_append, there]
      | some found =>
          dsimp only
          rw [FileTree.mem_filePlaces_iff (wellFormed.get? there)]
          simp [FileTree.get?_append, there]

theorem pairwise_placesBelow (wellFormed : tree.WellFormed) :
    (placesBelow tree target).Pairwise fun first second => comparePlaces first second = .lt := by
  rw [placesBelow, FileTree.find]
  cases located : tree.locate target with
  | error error => exact .nil
  | ok top =>
      rw [Results.ok_bind]
      cases there : tree.get? top with
      | none => exact .nil
      | some found => exact FileTree.pairwise_filePlaces (wellFormed.get? there)

/-- Something in a directory below the target. -/
structure IsInside (tree : FileTree) (target : Path) (top dirs : Place) (name : String) : Prop where
  opens : Opens tree target top
  isName : ∀ dir ∈ dirs, IsEntryName dir
  last : IsEntryName name
  directory : tree.entryAt? (top ++ dirs) = some .directory

theorem isInside_of_locate (wellFormed : tree.WellFormed) {top dirs : Place} {name : String}
    (located : tree.locate target = .ok top)
    (there : tree.entryAt? (top ++ (dirs ++ [name])) ≠ none) :
    IsInside tree target top dirs name := by
  have names : ∀ names : Place, tree.entryAt? (top ++ names) ≠ none →
      ∀ name ∈ names, IsEntryName name := by
    intro names
    induction names using List.reverseRecOn with
    | nil => exact fun _ name member => absurd member List.not_mem_nil
    | append_singleton names name ih =>
        intro there
        rw [← List.append_assoc] at there
        have above := FileTree.entryAt?_above there
        refine List.forall_mem_append.2 ⟨ih (by simp [above]), ?_⟩
        exact List.forall_mem_singleton.2 (wellFormed.isEntryName there)
  obtain ⟨isName, last⟩ := List.forall_mem_append.1 (names _ there)
  have directory : tree.entryAt? (top ++ dirs) = some .directory := by
    rw [← List.append_assoc] at there
    exact FileTree.entryAt?_above there
  have start : tree.entryAt? top = some .directory := by
    cases dirs with
    | nil => rwa [List.append_nil] at directory
    | cons dir dirs =>
        have below : tree.entryAt? (top ++ dir :: dirs) ≠ none := by
          rw [directory]
          exact Option.some_ne_none _
        exact FileTree.entryAt?_above below
  exact ⟨FileTree.opens_of_locate located start, isName, last name (List.mem_singleton_self _),
    directory⟩

namespace IsInside

variable {top dirs : Place} {name : String} (inside : IsInside tree target top dirs name)
include inside

theorem lands : Lands tree (target.below (dirs ++ [name])) (top ++ dirs) name := by
  rw [Path.below_concat]
  exact (inside.opens.below inside.isName inside.directory).lands inside.last

theorem fileName? : (target.below (dirs ++ [name])).fileName? = some name :=
  inside.lands.fileName?

/-- The directory of what is inside. -/
theorem parent? : ∃ dir, (target.below (dirs ++ [name])).parent? = some dir ∧
    StandsFor tree target top dirs dir :=
  ⟨_, Path.parent?_of_pieces (Path.pieces_below_concat inside.isName inside.last) inside.last.1,
    standsFor_enclosing inside.opens inside.isName inside.directory⟩

theorem owner_below : ∃ package, IsNearest tree top dirs package ∧
    StandsFor tree target top package (owner tree target (target.below (dirs ++ [name]))) :=
  Imports.owner_below inside.opens inside.isName inside.last inside.directory

end IsInside

/-- The path of a file below the target leads there. -/
theorem locate_below (wellFormed : tree.WellFormed) {top names : Place}
    (located : tree.locate target = .ok top) {content : ByteArray} {executable : Bool}
    (there : tree.get? (top ++ names) = some (.file content executable)) :
    tree.locate (target.below names) = .ok (top ++ names) := by
  rcases List.eq_nil_or_concat names with rfl | ⟨dirs, name, rfl⟩
  · rw [List.append_nil]
    exact located
  · rw [List.concat_eq_append] at there ⊢
    have present := FileTree.entryAt?_ne_none there
    have inside := isInside_of_locate wellFormed located present
    rw [← List.append_assoc] at present ⊢
    exact inside.lands.locate present

/-! ## Sources -/

/-- A source file below a target. -/
structure SourceAt (tree : FileTree) (target : Path) (names : Place) (dialect : Source.Dialect)
    (content : ByteArray) : Prop where
  found : ∃ top executable, tree.locate target = .ok top ∧
    tree.get? (top ++ names) = some (.file content executable)
  /-- No directory between the target and the file is skipped. -/
  entered : ∀ name ∈ names.dropLast, name ∉ skippedDirectories
  dialect : Source.Dialect.ofPath? (target.below names) = some dialect

theorem exists_sourceAt_iff (wellFormed : tree.WellFormed) {names : Place}
    {dialect : Source.Dialect} :
    (∃ content, SourceAt tree target names dialect content) ↔
      names ∈ placesBelow tree target ∧
        Source.Dialect.ofPath? (target.below names) = some dialect := by
  rw [mem_placesBelow_iff wellFormed]
  constructor
  · rintro ⟨content, ⟨top, executable, located, there⟩, entered, dialect⟩
    exact ⟨⟨⟨top, content, executable, located, there⟩, entered⟩, dialect⟩
  · rintro ⟨⟨⟨top, content, executable, located, there⟩, entered⟩, dialect⟩
    exact ⟨content, ⟨top, executable, located, there⟩, entered, dialect⟩

end Files

section Sources

variable (read : Source.Reading) (tree : FileTree) (target : Path) (spec : Spec)

/-- A source file with a text is relocated. -/
def Relocates (names : Place) (text : String) (relocated : Source.Relocated) : Prop :=
  ∃ dialect content, SourceAt tree target names dialect content ∧
    Text.decode? content = some text ∧
    Source.relocate read dialect text spec.relocations = .ok relocated

/-- A source file is not relocated: it is no text, or cannot be read as a source. -/
def Fails (names : Place) (message : String) : Prop :=
  ∃ dialect content, SourceAt tree target names dialect content ∧
    (Text.decode? content = none ∧ message = FileError.notText.message ∨
      ∃ text error, Text.decode? content = some text ∧
        Source.relocate read dialect text spec.relocations = .error error ∧
        message = error.message)

/-- What a plan says about a source file. -/
inductive Contribution where
  /-- Something is relocated. -/
  | changed (edit : FileEdit)
  /-- Nothing is relocated. -/
  | skipped (name : String)
  /-- It could not be read. -/
  | failed (message : String)

/-- The contribution of a source file to a plan, under the name that the target gives it. -/
inductive Contributes (names : Place) : Contribution → Prop where
  | changed {text : String} {relocated : Source.Relocated} :
      Relocates read tree target spec names text relocated → relocated.replaced ≠ 0 →
        Contributes names (.changed ⟨target.below names, target.display (target.below names),
          text, relocated.output⟩)
  | skipped {text : String} {relocated : Source.Relocated} :
      Relocates read tree target spec names text relocated → relocated.replaced = 0 →
        Contributes names (.skipped (target.display (target.below names)))
  | failed {message : String} :
      Fails read tree target spec names message →
        Contributes names (.failed s!"{target.display (target.below names)}: {message}")

end Sources

namespace Contribution

def changed? : Contribution → Option FileEdit
  | .changed edit => some edit
  | _ => none

def skipped? : Contribution → Option String
  | .skipped name => some name
  | _ => none

def failed? : Contribution → Option String
  | .failed message => some message
  | _ => none

end Contribution

/-- The contribution of what was found in a file. -/
def Finding.contribution? : Finding → Option Contribution
  | .manifest _ => none
  | .source _ edit relocated =>
    some (if relocated.replaced = 0 then .skipped edit.relative else .changed edit)
  | .broken _ relative message => some (.failed s!"{relative}: {message}")

theorem Finding.edit?_eq (finding : Finding) :
    finding.edit? = finding.contribution?.bind Contribution.changed? := by
  cases finding with
  | source owner edit relocated =>
      rw [edit?, contribution?]
      split <;> rfl
  | _ => rfl

theorem Finding.skipped?_eq (finding : Finding) :
    finding.skipped? = finding.contribution?.bind Contribution.skipped? := by
  cases finding with
  | source owner edit relocated =>
      rw [skipped?, contribution?]
      split <;> rfl
  | _ => rfl

theorem Finding.error?_eq (finding : Finding) :
    finding.error? = finding.contribution?.bind Contribution.failed? := by
  cases finding with
  | source owner edit relocated =>
      rw [contribution?]
      split <;> rfl
  | _ => rfl

section Readings

variable {read : Source.Reading} {tree : FileTree} {target : Path} {spec : Spec}
  (wellFormed : tree.WellFormed) {names : Place} {dialect : Source.Dialect} {content : ByteArray}
include wellFormed

/-- What is found in a source file is what its bytes come to. -/
theorem readSource_of_sourceAt (source : SourceAt tree target names dialect content) :
    readSource read tree spec target (target.below names) dialect =
      match Text.decode? content with
      | none => .broken (owner tree target (target.below names))
          (target.display (target.below names)) FileError.notText.message
      | some text =>
        match Source.relocate read dialect text spec.relocations with
        | .error error => .broken (owner tree target (target.below names))
            (target.display (target.below names)) error.message
        | .ok relocated => .source (owner tree target (target.below names))
            ⟨target.below names, target.display (target.below names), text, relocated.output⟩
            relocated := by
  obtain ⟨top, executable, located, there⟩ := source.found
  have bytes : tree.readBytes (target.below names) = .ok content := by
    rw [FileTree.readBytes, FileTree.find, locate_below wellFormed located there, Results.ok_bind,
      there]
    rfl
  rw [readSource, FileTree.readText, bytes, Results.ok_bind]
  cases Text.decode? content with
  | none => rfl
  | some text =>
      cases relocated : Source.relocate read dialect text spec.relocations <;>
        simp only [relocated]

variable (read spec) in
theorem readSource_cases_of_sourceAt (source : SourceAt tree target names dialect content) :
    (∃ message, Fails read tree target spec names message ∧
      readSource read tree spec target (target.below names) dialect =
        .broken (owner tree target (target.below names)) (target.display (target.below names))
          message) ∨
    ∃ text relocated, Relocates read tree target spec names text relocated ∧
      readSource read tree spec target (target.below names) dialect =
        .source (owner tree target (target.below names))
          ⟨target.below names, target.display (target.below names), text, relocated.output⟩
          relocated := by
  rw [readSource_of_sourceAt wellFormed source]
  cases decoded : Text.decode? content with
  | none => exact .inl ⟨_, ⟨dialect, content, source, .inl ⟨decoded, rfl⟩⟩, rfl⟩
  | some text =>
      dsimp only
      cases relocated : Source.relocate read dialect text spec.relocations with
      | error error =>
          left
          exact ⟨_, ⟨dialect, content, source, .inr ⟨text, error, decoded, relocated, rfl⟩⟩, rfl⟩
      | ok done =>
          right
          exact ⟨text, done, ⟨dialect, content, source, decoded, relocated⟩, rfl⟩

variable (read spec) in
theorem contributes_of_sourceAt (source : SourceAt tree target names dialect content) :
    ∃ contribution,
      (readSource read tree spec target (target.below names) dialect).contribution? =
        some contribution ∧ Contributes read tree target spec names contribution := by
  obtain ⟨message, fails, found⟩ | ⟨text, relocated, relocates, found⟩ :=
    readSource_cases_of_sourceAt read spec wellFormed source
  · rw [found]
    exact ⟨_, rfl, .failed fails⟩
  · rw [found, Finding.contribution?]
    split
    next none => exact ⟨_, rfl, .skipped relocates none⟩
    next some => exact ⟨_, rfl, .changed relocates some⟩

end Readings

/-! ## The sources of a plan -/

section Plans

variable {read : Source.Reading} {tree : FileTree} {target : Path} {spec : Spec}

/-- The contribution of the file at a place below a target, if it is a source. -/
def contributionAt? (read : Source.Reading) (tree : FileTree) (target : Path) (spec : Spec)
    (names : Place) : Option Contribution :=
  (finding? read tree spec target (target.below names)).bind Finding.contribution?

/-- The source files below a target in order, with what they contribute. -/
def sourcesOf (read : Source.Reading) (tree : FileTree) (target : Path) (spec : Spec) :
    List (Place × Contribution) :=
  (placesBelow tree target).filterMap fun names =>
    (contributionAt? read tree target spec names).map fun contribution => (names, contribution)

theorem findingsOf_eq (read : Source.Reading) (tree : FileTree) (target : Path) (spec : Spec) :
    findingsOf read tree target spec = (placesBelow tree target).filterMap fun names =>
      finding? read tree spec target (target.below names) := by
  rw [findingsOf, filesBelow_eq]
  cases found : tree.find target with
  | error error =>
      rw [placesBelow, found]
      rfl
  | ok top => exact List.filterMap_map

/-- What is collected from the findings is collected from the sources. -/
theorem filterMap_findingsOf {α : Type} (part : Finding → Option α)
    (given : Contribution → Option α)
    (split : ∀ finding, part finding = finding.contribution?.bind given) :
    (findingsOf read tree target spec).filterMap part =
      (sourcesOf read tree target spec).filterMap fun entry => given entry.2 := by
  rw [findingsOf_eq, sourcesOf, List.filterMap_filterMap, List.filterMap_filterMap]
  refine List.filterMap_congr fun names _ => ?_
  rw [contributionAt?, Option.bind_map, Option.bind_assoc]
  exact Option.bind_congr fun finding _ => split finding

/-- The edits of sources are what the sources contribute. -/
theorem files_plan : (plan read tree target spec).files =
    (sourcesOf read tree target spec).filterMap fun entry => entry.2.changed? := by
  rw [plan]
  exact filterMap_findingsOf _ _ Finding.edit?_eq

theorem map_fst_sourcesOf :
    (sourcesOf read tree target spec).map Prod.fst =
      (placesBelow tree target).filter fun names =>
        (contributionAt? read tree target spec names).isSome := by
  rw [sourcesOf, List.map_filterMap, ← List.filterMap_eq_filter]
  refine List.filterMap_congr fun names _ => ?_
  cases contributed : contributionAt? read tree target spec names <;>
    simp [Option.guard, contributed]

theorem mem_sourcesOf_iff {names : Place} {contribution : Contribution} :
    (names, contribution) ∈ sourcesOf read tree target spec ↔
      names ∈ placesBelow tree target ∧
        contributionAt? read tree target spec names = some contribution := by
  rw [sourcesOf, List.mem_filterMap]
  constructor
  · rintro ⟨names, below, found⟩
    obtain ⟨contribution, contributed, equal⟩ := Option.map_eq_some_iff.1 found
    cases equal
    exact ⟨below, contributed⟩
  · rintro ⟨below, contributed⟩
    exact ⟨names, below, by rw [contributed]; rfl⟩

/-- Only a source contributes. -/
theorem exists_dialect_of_contributionAt? {names : Place} {contribution : Contribution}
    (contributed : contributionAt? read tree target spec names = some contribution) :
    ∃ dialect, Source.Dialect.ofPath? (target.below names) = some dialect ∧
      contributionAt? read tree target spec names =
        (readSource read tree spec target (target.below names) dialect).contribution? := by
  obtain ⟨finding, found, contribution⟩ := Option.bind_eq_some_iff.1 contributed
  cases source : Source.Dialect.ofPath? (target.below names) with
  | none =>
      rw [finding?, source] at found
      split at found
      next =>
        obtain ⟨dir, _, rfl⟩ := Option.map_eq_some_iff.1 found
        cases contribution
      next => cases found
  | some dialect =>
      refine ⟨dialect, rfl, ?_⟩
      rw [contributionAt?, finding?_of_dialect source]
      rfl

section

variable (wellFormed : tree.WellFormed)
include wellFormed

theorem sourceAt_of_mem_sourcesOf {names : Place} {contribution : Contribution}
    (member : (names, contribution) ∈ sourcesOf read tree target spec) :
    (∃ dialect content, SourceAt tree target names dialect content) ∧
      Contributes read tree target spec names contribution := by
  obtain ⟨below, contributed⟩ := mem_sourcesOf_iff.1 member
  obtain ⟨dialect, source, equal⟩ := exists_dialect_of_contributionAt? contributed
  obtain ⟨content, source⟩ := (exists_sourceAt_iff wellFormed).2 ⟨below, source⟩
  obtain ⟨given, found, contributes⟩ :=
    contributes_of_sourceAt read spec wellFormed source
  rw [← equal, contributed] at found
  cases found
  exact ⟨⟨dialect, content, source⟩, contributes⟩

theorem mem_sourcesOf_of_sourceAt {names : Place} {dialect : Source.Dialect}
    {content : ByteArray} (source : SourceAt tree target names dialect content) :
    ∃ contribution, (names, contribution) ∈ sourcesOf read tree target spec := by
  obtain ⟨below, isSource⟩ := (exists_sourceAt_iff wellFormed).1 ⟨content, source⟩
  obtain ⟨contribution, found, _⟩ :=
    contributes_of_sourceAt read spec wellFormed source
  refine ⟨contribution, mem_sourcesOf_iff.2 ⟨below, ?_⟩⟩
  rw [contributionAt?, finding?_of_dialect isSource]
  exact found

/-! ## Findings -/

variable (read spec) in
theorem mem_findingsOf_of_sourceAt {names : Place} {dialect : Source.Dialect}
    {content : ByteArray} (source : SourceAt tree target names dialect content) :
    readSource read tree spec target (target.below names) dialect ∈
      findingsOf read tree target spec := by
  rw [findingsOf_eq]
  obtain ⟨below, isSource⟩ := (exists_sourceAt_iff wellFormed).1 ⟨content, source⟩
  exact List.mem_filterMap.2 ⟨names, below, finding?_of_dialect isSource⟩

theorem broken_of_fails {names : Place} {message : String}
    (fails : Fails read tree target spec names message) :
    .broken (owner tree target (target.below names)) (target.display (target.below names))
      message ∈ findingsOf read tree target spec := by
  obtain ⟨dialect, content, source, cause⟩ := fails
  have found := mem_findingsOf_of_sourceAt read spec wellFormed source
  rw [readSource_of_sourceAt wellFormed source] at found
  obtain ⟨decoded, rfl⟩ | ⟨text, error, decoded, relocated, rfl⟩ := cause
  · rwa [decoded] at found
  · simpa only [decoded, relocated] using found

theorem source_of_relocates {names : Place} {text : String} {relocated : Source.Relocated}
    (relocates : Relocates read tree target spec names text relocated) :
    .source (owner tree target (target.below names))
      ⟨target.below names, target.display (target.below names), text, relocated.output⟩
      relocated ∈ findingsOf read tree target spec := by
  obtain ⟨dialect, content, source, decoded, done⟩ := relocates
  have found := mem_findingsOf_of_sourceAt read spec wellFormed source
  rw [readSource_of_sourceAt wellFormed source] at found
  simpa only [decoded, done] using found

/-- What can be found below a target. -/
theorem mem_findingsOf_cases {finding : Finding}
    (member : finding ∈ findingsOf read tree target spec) :
    (∃ names dir, names ∈ placesBelow tree target ∧
      (target.below names).fileName? = some manifestFile ∧
      (target.below names).parent? = some dir ∧ finding = .manifest dir) ∨
    (∃ names message, Fails read tree target spec names message ∧
      finding = .broken (owner tree target (target.below names))
        (target.display (target.below names)) message) ∨
    ∃ names text relocated, Relocates read tree target spec names text relocated ∧
      finding = .source (owner tree target (target.below names))
        ⟨target.below names, target.display (target.below names), text, relocated.output⟩
        relocated := by
  rw [findingsOf_eq] at member
  obtain ⟨names, below, found⟩ := List.mem_filterMap.1 member
  rw [finding?] at found
  split at found
  next named =>
    obtain ⟨dir, parent, rfl⟩ := Option.map_eq_some_iff.1 found
    exact .inl ⟨names, dir, below, named, parent, rfl⟩
  next =>
    obtain ⟨dialect, isSource, rfl⟩ := Option.map_eq_some_iff.1 found
    obtain ⟨content, source⟩ := (exists_sourceAt_iff wellFormed).2 ⟨below, isSource⟩
    obtain ⟨message, fails, broken⟩ | ⟨text, relocated, relocates, read⟩ :=
      readSource_cases_of_sourceAt read spec wellFormed source
    · exact .inr (.inl ⟨names, message, fails, broken⟩)
    · exact .inr (.inr ⟨names, text, relocated, relocates, read⟩)

end

end Plans

end Uplift.Codemod.Imports
