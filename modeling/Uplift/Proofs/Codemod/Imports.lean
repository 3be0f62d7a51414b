import Uplift.Proofs.Codemod.Dependencies
import Uplift.Proofs.Results

/-!
# How a dropped dependency may still be imported

If the plan for a package drops a dependency from its manifest, then the sources of the package,
taken with their planned content, import the dependency at most where a relocation has put it
(`importedOnlyByRelocation_of_dropped`).  The plan looks only at the specifiers that are left alone,
so it does drop a dependency to which a relocation leads.  The targets of relocations must be plain:
one that closes its quotes can bring in further imports (`dropped_but_imported`).

Of the reading of sources it is assumed that it is faithful on the files at hand.
-/

set_option autoImplicit false

namespace Uplift.Codemod.Imports

/-! ## Sources and their planned contents -/

/-- A file below a target that the plan looks at. -/
def IsBelow (tree : FileTree) (target file : Path) : Prop :=
  ∃ files, filesBelow tree target = .ok files ∧ file ∈ files

/-- A source file of a package. -/
structure IsSourceOf (tree : FileTree) (target dir file : Path) (dialect : Source.Dialect) :
    Prop where
  below : IsBelow tree target file
  dialect : Source.Dialect.ofPath? file = some dialect
  owned : (owner tree target file).same dir = true

/-- The content that a plan leaves in a file with some text. -/
def Plan.contentOf (plan : Plan) (file : Path) (text : String) : String :=
  ((plan.files.find? fun edit => edit.path = file).map FileEdit.after).getD text

/-- A source file is no manifest. -/
theorem fileName?_ne_of_dialect {file : Path} {dialect : Source.Dialect}
    (source : Source.Dialect.ofPath? file = some dialect) :
    file.fileName? ≠ some manifestFile := by
  intro named
  have extension : file.extension? = some "json" := by
    rw [Path.extension?, named]
    decide
  have none : Source.Dialect.ofPath? file = none := by
    rw [Source.Dialect.ofPath?, extension]
    decide
  rw [none] at source
  cases source

/-- What is found in a source file. -/
theorem finding?_of_dialect {read : Source.Reading} {tree : FileTree} {spec : Spec}
    {target file : Path} {dialect : Source.Dialect}
    (source : Source.Dialect.ofPath? file = some dialect) :
    finding? read tree spec target file = some (readSource read tree spec target file dialect) := by
  rw [finding?, if_neg (fileName?_ne_of_dialect source), source]
  rfl

/-- A source is read and relocated, or it is broken. -/
theorem readSource_cases (read : Source.Reading) (tree : FileTree) (spec : Spec)
    (target file : Path) (dialect : Source.Dialect) :
    (∃ relative message,
      readSource read tree spec target file dialect =
        .broken (owner tree target file) relative message) ∨
    ∃ text node, tree.readText file = .ok text ∧ read dialect text.toList = some node ∧
      readSource read tree spec target file dialect =
        .source (owner tree target file)
          ⟨file, target.display file, text,
            (Source.relocateTree text.toList node spec.relocations).output⟩
          (Source.relocateTree text.toList node spec.relocations) := by
  rw [readSource]
  cases reading : tree.readText file with
  | error error => exact .inl ⟨_, _, rfl⟩
  | ok text =>
      cases parsing : read dialect text.toList with
      | none =>
          left
          simp only [Source.relocate, parsing]
          exact ⟨_, _, rfl⟩
      | some node =>
          right
          refine ⟨text, node, rfl, parsing, ?_⟩
          simp only [Source.relocate, parsing]

section Plans

variable {read : Source.Reading} {tree : FileTree} {target : Path} {spec : Spec}

theorem mem_findingsOf {finding : Finding} :
    finding ∈ findingsOf read tree target spec ↔
      ∃ file, IsBelow tree target file ∧ finding? read tree spec target file = some finding := by
  rw [findingsOf]
  cases below : filesBelow tree target with
  | error error => simp [IsBelow, below]
  | ok files => simp [IsBelow, below, List.mem_filterMap]

theorem readSource_mem_findingsOf (read : Source.Reading) (spec : Spec) {file : Path}
    {dialect : Source.Dialect} (below : IsBelow tree target file)
    (source : Source.Dialect.ofPath? file = some dialect) :
    readSource read tree spec target file dialect ∈ findingsOf read tree target spec :=
  mem_findingsOf.2 ⟨file, below, finding?_of_dialect source⟩

/-- An edit of a source is that of its own path. -/
theorem readSource_of_mem_files {edit : FileEdit}
    (member : edit ∈ (plan read tree target spec).files) :
    ∃ dialect relocated, Source.Dialect.ofPath? edit.path = some dialect ∧
      readSource read tree spec target edit.path dialect =
        .source (owner tree target edit.path) edit relocated := by
  rw [plan] at member
  obtain ⟨finding, found, edited⟩ := List.mem_filterMap.1 member
  obtain ⟨file, _, isFinding⟩ := mem_findingsOf.1 found
  rw [finding?] at isFinding
  split at isFinding
  next =>
    obtain ⟨dir, _, rfl⟩ := Option.map_eq_some_iff.1 isFinding
    cases edited
  next =>
    obtain ⟨dialect, source, rfl⟩ := Option.map_eq_some_iff.1 isFinding
    obtain ⟨_, _, broken⟩ | ⟨text, node, _, _, isSource⟩ :=
      readSource_cases read tree spec target file dialect
    · rw [broken] at edited
      cases edited
    · rw [isSource, Finding.edit?] at edited
      split at edited
      next => cases edited
      next =>
        cases edited
        exact ⟨dialect, _, source, isSource⟩

/-- **The planned content of a source that could be read is the relocated one.** -/
theorem contentOf_source {file : Path} {dialect : Source.Dialect}
    (below : IsBelow tree target file) (source : Source.Dialect.ofPath? file = some dialect)
    {text : String} {node : Source.Node} (reading : tree.readText file = .ok text)
    (parsed : read dialect text.toList = some node) :
    (plan read tree target spec).contentOf file text =
      (Source.relocateTree text.toList node spec.relocations).output := by
  obtain ⟨_, _, broken⟩ | ⟨text', node', reading', parsed', isSource⟩ :=
    readSource_cases read tree spec target file dialect
  · rw [readSource, reading] at broken
    simp only [Source.relocate, parsed] at broken
    cases broken
  · cases reading.symm.trans reading'
    cases parsed.symm.trans parsed'
    rw [Plan.contentOf]
    cases found : (plan read tree target spec).files.find? fun edit => edit.path = file with
    | some edit =>
        have same : edit.path = file := by simpa using List.find?_some found
        obtain ⟨dialect', relocated, source', isEdit⟩ :=
          readSource_of_mem_files (List.mem_of_find?_eq_some found)
        rw [same] at source' isEdit
        cases source.symm.trans source'
        cases isSource.symm.trans isEdit
        rfl
    | none =>
        have unchanged :
            (Source.relocateTree text.toList node spec.relocations).replaced = 0 := by
          by_contra replaced
          have finding := readSource_mem_findingsOf read spec below source
          rw [List.find?_eq_none, plan] at found
          rw [isSource] at finding
          refine found _ (List.mem_filterMap.2 ⟨_, finding, if_neg replaced⟩) ?_
          simp
        have none : Source.replacementsIn text.toList node spec.relocations = [] :=
          List.length_eq_zero_iff.1 unchanged
        change text = String.ofList (Source.applyAll text.toList
          (Source.replacementsIn text.toList node spec.relocations))
        rw [none]
        simp [Source.applyAll]

/-! ## Dropped dependencies -/

/-- The edit of a manifest is the rendering of its document after relocation. -/
theorem manifestEdit_eq_some {usage : Usage} {path : Path} {relative : String} {edit : FileEdit}
    (done : manifestEdit tree spec usage path relative = .ok (some edit)) :
    edit.path = path ∧ edit.relative = relative ∧ tree.readText path = .ok edit.before ∧
      ∃ old, Manifest.parse relative edit.before = .ok old ∧
        edit.after = (relocateDependencies spec.packages usage old).1.render := by
  rw [manifestEdit] at done
  split at done
  next text reading =>
    rw [Results.ok_bind] at done
    obtain ⟨old, parsed, rest⟩ := Results.bind_eq_ok_iff.1 done
    dsimp only at rest
    split at rest
    next => cases rest
    next =>
      cases rest
      exact ⟨rfl, rfl, reading, old, parsed, rfl⟩
  next => cases done

/-- A manifest that is edited is that of its package. -/
theorem packageEdit?_ok {findings : List Finding} {dir : Path} {edit : FileEdit}
    (planned : packageEdit? tree target spec findings dir = some (.ok edit)) :
    edit.path = dir.joinText manifestFile ∧
      manifestEdit tree spec (usageOf findings dir) edit.path edit.relative = .ok (some edit) := by
  rw [packageEdit?] at planned
  split at planned
  next => cases planned
  next =>
    dsimp only at planned
    split at planned
    next edit? done =>
      obtain ⟨edit', rfl, equal⟩ := Option.map_eq_some_iff.1 planned
      cases equal
      obtain ⟨path, relative, _⟩ := manifestEdit_eq_some done
      rw [path, relative]
      exact ⟨rfl, done⟩
    next => cases planned

/-- Every manifest of a plan is edited by what the sources of its package use. -/
theorem relocated_of_mem_manifests {edit : FileEdit}
    (member : edit ∈ (plan read tree target spec).manifests) :
    ∃ dir ∈ ownersOf (findingsOf read tree target spec), ∃ old,
      edit.path = dir.joinText manifestFile ∧ tree.readText edit.path = .ok edit.before ∧
      Manifest.parse edit.relative edit.before = .ok old ∧
      edit.after = (relocateDependencies spec.packages
        (usageOf (findingsOf read tree target spec) dir) old).1.render := by
  rw [plan] at member
  obtain ⟨result, planned, isOk⟩ := List.mem_filterMap.1 member
  obtain ⟨dir, isOwner, packaged⟩ := List.mem_filterMap.1 planned
  cases result with
  | error message => cases isOk
  | ok given =>
      cases isOk
      obtain ⟨path, done⟩ := packageEdit?_ok packaged
      obtain ⟨_, _, reading, old, parsed, after⟩ := manifestEdit_eq_some done
      exact ⟨dir, isOwner, old, path, reading, parsed, after⟩

/-- A source of a package that drops a dependency could be read, and what it retains does not refer
to the dependency. -/
theorem retained_of_dropped {dir file : Path} {dialect : Source.Dialect}
    (source : IsSourceOf tree target dir file dialect) {package : String}
    (dropped : (usageOf (findingsOf read tree target spec) dir).keeps package = false) :
    ∃ text node, tree.readText file = .ok text ∧ read dialect text.toList = some node ∧
      ∀ name ∈ Table.names (Source.relocateTree text.toList node spec.relocations).retained,
        ¬ Refers name package := by
  simp only [Usage.keeps, Bool.or_eq_false_iff] at dropped
  obtain ⟨⟨complete, _⟩, retained⟩ := dropped
  have finding := readSource_mem_findingsOf read spec source.below source.dialect
  obtain ⟨_, _, broken⟩ | ⟨text, node, reading, parsed, isSource⟩ :=
    readSource_cases read tree spec target file dialect
  · rw [broken] at finding
    rw [incomplete_usageOf_iff.2 ⟨_, _, _, finding, source.owned⟩] at complete
    cases complete
  · rw [isSource] at finding
    refine ⟨text, node, reading, parsed, fun name member => ?_⟩
    exact not_refers_of_refersTo retained
      (mem_retained_usageOf_iff.2 ⟨_, _, _, finding, source.owned, member⟩)

end Plans

/-- The sources of a package can all be read, as they are and as they are planned, and a planned
specifier that refers to another package is the target of a relocation: it takes the place of a
specifier that the table sends there. -/
def ImportedOnlyByRelocation (read : Source.Reading) (tree : FileTree) (target : Path)
    (spec : Spec) (dir : Path) (package : String) : Prop :=
  ∀ file dialect, IsSourceOf tree target dir file dialect →
    ∃ before after node later, tree.readText file = .ok before ∧
      (plan read tree target spec).contentOf file before = after ∧
      read dialect before.toList = some node ∧ read dialect after.toList = some later ∧
      ∀ literal ∈ Source.literals after.toList later, literal.isSpecifier = true →
        Refers literal.content package →
          ∃ old ∈ Source.literals before.toList node, old.isSpecifier = true ∧
            spec.relocations.get? old.content = some literal.content

/-- **A dependency that is dropped is imported only where a relocation leads to it.**  Every planned
edit of a manifest replaces its document by the relocated one.  If a section declares a package
before and not after, then a specifier in the planned content of a source of the edited package
refers to the dropped one only if the table of relocations itself has put it there. -/
theorem importedOnlyByRelocation_of_dropped {read : Source.Reading} {tree : FileTree}
    {target : Path} {spec : Spec}
    (faithful : ∀ file dialect text, IsBelow tree target file →
      Source.Dialect.ofPath? file = some dialect → tree.readText file = .ok text →
        Source.Faithful read dialect text.toList spec.relocations)
    (plain : ∀ name destination, spec.relocations.get? name = some destination →
      Source.IsPlain destination)
    {edit : FileEdit} (planned : edit ∈ (plan read tree target spec).manifests) :
    ∃ dir ∈ ownersOf (findingsOf read tree target spec), ∃ old new : Manifest,
      edit.path = dir.joinText manifestFile ∧ tree.readText edit.path = .ok edit.before ∧
      Manifest.parse edit.relative edit.before = .ok old ∧ edit.after = new.render ∧
      new = (relocateDependencies spec.packages
        (usageOf (findingsOf read tree target spec) dir) old).1 ∧
      ∀ part package, old.Declares part package → ¬ new.Declares part package →
        ImportedOnlyByRelocation read tree target spec dir package := by
  obtain ⟨dir, isOwner, old, path, reading, parsed, after⟩ := relocated_of_mem_manifests planned
  refine ⟨dir, isOwner, old, _, path, reading, parsed, after, rfl, ?_⟩
  intro part package declared undeclared file dialect source
  have dropped : (usageOf (findingsOf read tree target spec) dir).keeps package = false := by
    rw [← Bool.not_eq_true]
    intro kept
    exact undeclared (declares_relocateDependencies kept declared)
  obtain ⟨text, node, readFile, parsedFile, retained⟩ := retained_of_dropped source dropped
  obtain ⟨later, reread, specifiers⟩ := Source.content_of_mem_relocated
    (faithful file dialect text source.below source.dialect readFile) plain parsedFile
  have content : ((plan read tree target spec).contentOf file text).toList =
      Source.applyAll text.toList (Source.replacementsIn text.toList node spec.relocations) := by
    rw [contentOf_source source.below source.dialect readFile parsedFile]
    exact String.toList_ofList
  rw [← content] at reread specifiers
  refine ⟨text, _, node, later, readFile, rfl, parsedFile, reread, ?_⟩
  intro literal member isSpecifier refers
  obtain ⟨before, found, wasSpecifier, equal⟩ := specifiers literal member isSpecifier
  refine ⟨before, found, wasSpecifier, ?_⟩
  rw [equal] at refers ⊢
  cases entry : spec.relocations.get? before.content with
  | some destination => rfl
  | none =>
      rw [entry, Option.getD_none] at refers
      exact absurd refers (retained before.content
        (Source.mem_retained_iff.2 ⟨before, found, wasSpecifier, entry, rfl⟩))

/-! ## A package with one source -/

/-- A package with one dependency, and a source that imports another. -/
def onePackage : FileTree :=
  .directory [
    ("a.ts", .file (Text.encode "import \"old\";\n") false),
    ("package.json",
      .file (Text.encode "\x7b\"dependencies\": \x7b\"d\": \"1.0.0\"\x7d\x7d") false)]

/-- The manifest with a single dependency. -/
def declaring (name version : String) : Manifest :=
  ⟨[("dependencies", .object [(name, .string version)])]⟩

/-- What the source imports is sent to a destination, and another dependency is put in place of the
one that the package has. -/
def sendingTo (destination : String) : Spec :=
  ⟨Table.ofList [("old", destination)], [⟨"d", "e", "2.0.0"⟩]⟩

/-- The plan for the package. -/
def planSendingTo (destination : String) : Plan :=
  plan Source.parse? onePackage ⟨["", ""]⟩ (sendingTo destination)

/-- A walk that is sorted already is looked at in its own order. -/
theorem filesBelow_of_pairwise {tree : FileTree} {target : Path} {entries : FileTree.Entries}
    (top : tree.find target = .ok (.directory entries))
    (sorted : (FileTree.walk (fun name => !skippedDirectories.contains name) []
      (.directory entries)).Pairwise fun first second =>
        (FileTree.comparePlaces first.1 second.1 != .gt) = true) :
    filesBelow tree target =
      .ok ((FileTree.walk (fun name => !skippedDirectories.contains name) []
        (.directory entries)).filterMap fun (place, found) =>
          if found.isFile then some (place.foldl Path.joinText target) else none) := by
  rw [filesBelow, top, Results.ok_bind, FileTree.sortedWalk, List.mergeSort_of_pairwise sorted]
  rfl

theorem filesBelow_onePackage :
    filesBelow onePackage ⟨["", ""]⟩ = .ok [⟨["", "a.ts"]⟩, ⟨["", "package.json"]⟩] := by
  rw [filesBelow_of_pairwise rfl (by decide +kernel)]
  rfl

theorem isSourceOf_onePackage :
    IsSourceOf onePackage ⟨["", ""]⟩ ⟨["", ""]⟩ ⟨["", "a.ts"]⟩ .typed where
  below := ⟨_, filesBelow_onePackage, List.mem_cons_self⟩
  dialect := by decide +kernel
  owned := by decide +kernel

/-- The edit of the manifest that puts the one dependency in place of the other. -/
def droppingEdit : FileEdit where
  path := ⟨["", "package.json"]⟩
  relative := "package.json"
  before := "\x7b\"dependencies\": \x7b\"d\": \"1.0.0\"\x7d\x7d"
  after := (declaring "e" "2.0.0").render

theorem manifests_planSendingTo :
    ∀ destination ∈ ["f", "d/x", "b\"; import \"d"],
      (planSendingTo destination).manifests = [droppingEdit] := by
  simp only [planSendingTo, plan, walkErrors, findingsOf, filesBelow_onePackage]
  decide +kernel

/-- **A dependency can be dropped and still be imported,** if a relocation leads to it, or if the
replacement of a specifier closes its quotes and imports it behind them. -/
theorem dropped_but_imported :
    ¬ Refers "b\"; import \"d" "d" ∧
    ∀ destination ∈ ["d/x", "b\"; import \"d"],
      (∃ edit ∈ (planSendingTo destination).manifests, ∃ old new : Manifest,
        edit.path = ⟨["", "package.json"]⟩ ∧
        Manifest.parse edit.relative edit.before = .ok old ∧ edit.after = new.render ∧
        old.Declares .runtime "d" ∧ ¬ new.Declares .runtime "d") ∧
      IsSourceOf onePackage ⟨["", ""]⟩ ⟨["", ""]⟩ ⟨["", "a.ts"]⟩ .typed ∧
      ∃ after later, (planSendingTo destination).contentOf ⟨["", "a.ts"]⟩ "import \"old\";\n" =
          after ∧ Source.parse? .typed after.toList = some later ∧
        ∃ literal ∈ Source.literals after.toList later, literal.isSpecifier = true ∧
          Refers literal.content "d" := by
  have imported : ∀ destination ∈ ["d/x", "b\"; import \"d"],
      let after := (planSendingTo destination).contentOf ⟨["", "a.ts"]⟩ "import \"old\";\n"
      (Source.parse? .typed after.toList).any (fun later =>
        (Source.literals after.toList later).any fun literal =>
          literal.isSpecifier && decide (Refers literal.content "d")) = true := by
    simp only [planSendingTo, plan, walkErrors, findingsOf, filesBelow_onePackage]
    decide +kernel
  refine ⟨by decide +kernel, fun destination among => ⟨?_, isSourceOf_onePackage, ?_⟩⟩
  · rw [manifests_planSendingTo destination (List.mem_cons_of_mem _ among)]
    refine ⟨droppingEdit, List.mem_singleton_self _, declaring "d" "1.0.0",
      declaring "e" "2.0.0", rfl, rfl, rfl, ?_, ?_⟩
    · decide +kernel
    · decide +kernel
  · obtain ⟨later, parsed, found⟩ := (Option.any_eq_true _ _).1 (imported destination among)
    obtain ⟨literal, member, refers⟩ := List.any_eq_true.1 found
    rw [Bool.and_eq_true, decide_eq_true_eq] at refers
    exact ⟨_, later, rfl, parsed, literal, member, refers⟩

theorem faithful_onePackage (file : Path) (dialect : Source.Dialect) (text : String)
    (below : IsBelow onePackage ⟨["", ""]⟩ file)
    (source : Source.Dialect.ofPath? file = some dialect)
    (reading : onePackage.readText file = .ok text) :
    Source.Faithful Source.parse? dialect text.toList (sendingTo "f").relocations := by
  obtain ⟨files, listed, member⟩ := below
  cases filesBelow_onePackage.symm.trans listed
  simp only [List.mem_cons, List.not_mem_nil, or_false] at member
  rcases member with rfl | rfl
  · cases source.symm.trans isSourceOf_onePackage.dialect
    cases reading
    refine Source.faithful_of_isFaithful ?_
    decide +kernel
  · exact absurd rfl (fileName?_ne_of_dialect source)

theorem importedOnlyByRelocation_of_dropped_onePackage :
    (∀ file dialect text, IsBelow onePackage ⟨["", ""]⟩ file →
      Source.Dialect.ofPath? file = some dialect → onePackage.readText file = .ok text →
        Source.Faithful Source.parse? dialect text.toList (sendingTo "f").relocations) ∧
    (∀ name target, (sendingTo "f").relocations.get? name = some target →
      Source.IsPlain target) ∧
    droppingEdit ∈ (planSendingTo "f").manifests ∧
    IsSourceOf onePackage ⟨["", ""]⟩ ⟨["", ""]⟩ ⟨["", "a.ts"]⟩ .typed ∧
    ImportedOnlyByRelocation Source.parse? onePackage ⟨["", ""]⟩ (sendingTo "f") ⟨["", ""]⟩
      "d" := by
  have plain : ∀ name target, (sendingTo "f").relocations.get? name = some target →
      Source.IsPlain target := by
    intro name target found
    cases List.mem_singleton.1 (Table.mem_of_get?_ofList found)
    decide +kernel
  have planned : droppingEdit ∈ (planSendingTo "f").manifests := by
    rw [manifests_planSendingTo "f" List.mem_cons_self]
    exact List.mem_singleton_self _
  refine ⟨faithful_onePackage, plain, planned, isSourceOf_onePackage, ?_⟩
  obtain ⟨dir, isOwner, old, new, _, _, parsed, _, rfl, imported⟩ :=
    importedOnlyByRelocation_of_dropped faithful_onePackage plain planned
  have owners : ownersOf (findingsOf Source.parse? onePackage ⟨["", ""]⟩ (sendingTo "f")) =
      [⟨["", ""]⟩] := by
    rw [findingsOf, filesBelow_onePackage]
    decide +kernel
  have document : Manifest.parse droppingEdit.relative droppingEdit.before =
      .ok (declaring "d" "1.0.0") := rfl
  rw [owners] at isOwner
  cases List.mem_singleton.1 isOwner
  cases document.symm.trans parsed
  refine imported .runtime "d" ?_ ?_
  · decide +kernel
  · rw [findingsOf, filesBelow_onePackage]
    decide +kernel

end Uplift.Codemod.Imports
