import Mathlib.Data.List.Nodup
import Uplift.Migration.Library
import Uplift.Proofs.FileTree.Names
import Uplift.Proofs.Version.Order
import Uplift.Proofs.Version.Spelling

/-!
# Querying a library

A query gives exactly the documents that the library holds for a package (`Holds`) with a version
in the range, each once and in strictly ascending order (`mem_documentsBetween`,
`strict_documentsBetween`).  A strictly ascending list is known from its members, so queries of
adjacent ranges put together make the query of the whole range, and the order in which the
directory lists its files does not show.

The versions are distinct because the names are: a name is made up of the package's short name and
a strict version text, and no two such texts spell the same version.  Two files of a directory with
the same name are the one thing that would break this, and no directory holds them.
-/

set_option autoImplicit false

namespace Uplift.Migration

/-! ## Names of documents -/

/-- A document's name is the short name of the package, a hyphen, a strict version and `.md`. -/
theorem versionOfName?_eq_some_iff {package name : String} {version : Version} :
    versionOfName? package name = some version ↔
      ∃ text, name = shortName package ++ "-" ++ text ++ ".md" ∧
        Version.parse? text = some version := by
  simp only [versionOfName?, Option.bind_eq_bind, Option.bind_eq_some_iff,
    Text.stripSuffix?_eq_some_iff, Text.stripPrefix?_eq_some_iff]
  constructor
  · rintro ⟨_, whole, text, rfl, parsed⟩
    refine ⟨String.ofList text, ?_, parsed⟩
    rw [← String.toList_inj, whole]
    simp only [String.toList_append, String.toList_ofList]
  · rintro ⟨text, rfl, parsed⟩
    refine ⟨_, String.toList_append, text.toList, String.toList_append, ?_⟩
    rwa [String.ofList_toList]

/-- No two names of documents for a package have the same version. -/
theorem name_eq_of_version {package first second : String} {version : Version}
    (here : versionOfName? package first = some version)
    (there : versionOfName? package second = some version) : first = second := by
  obtain ⟨text, rfl, parsed⟩ := versionOfName?_eq_some_iff.1 here
  obtain ⟨other, rfl, also⟩ := versionOfName?_eq_some_iff.1 there
  rw [Version.eq_of_parse? parsed also]

/-! ## The documents of a library -/

/-- A library holds a document for a package: its file is listed under a name for the package and
the document's version, it is a file of text, and its header names the package in full. -/
structure Holds (tree : FileTree) (dir : Path) (package : String) (document : Document) :
    Prop where
  named : ∃ names name text, tree.list dir = .ok names ∧ name ∈ names ∧
    document.file = dir.joinText name ∧ name = shortName package ++ "-" ++ text ++ ".md" ∧
    Version.parse? text = some document.version
  reads : ∃ content, tree.readText document.file = .ok content ∧
    parseDocument? content = some (document.header, document.body)
  written : document.header.package = package

theorem mem_namedFiles {tree : FileTree} {dir file : Path} {package : String} {version : Version} :
    (version, file) ∈ namedFiles tree dir package ↔
      ∃ names name text, tree.list dir = .ok names ∧ name ∈ names ∧ file = dir.joinText name ∧
        tree.hasFile file = true ∧ name = shortName package ++ "-" ++ text ++ ".md" ∧
        Version.parse? text = some version := by
  rw [namedFiles]
  cases listed : tree.list dir with
  | error error => simp
  | ok names =>
      simp only [List.mem_filterMap, Option.ite_none_right_eq_some, Option.map_eq_some_iff,
        Prod.mk.injEq, versionOfName?_eq_some_iff]
      constructor
      · rintro ⟨name, member, isFile, _, ⟨text, spelled, parsed⟩, rfl, rfl⟩
        exact ⟨names, name, text, rfl, member, rfl, isFile, spelled, parsed⟩
      · rintro ⟨_, name, text, ⟨⟩, member, rfl, isFile, spelled, parsed⟩
        exact ⟨name, member, isFile, version, ⟨text, spelled, parsed⟩, rfl, rfl⟩

theorem loadDocument?_eq_some_iff {tree : FileTree} {package : String} {version : Version}
    {file : Path} {document : Document} :
    loadDocument? tree package version file = some document ↔
      document.version = version ∧ document.file = file ∧ document.header.package = package ∧
        ∃ content, tree.readText file = .ok content ∧
          parseDocument? content = some (document.header, document.body) := by
  simp only [loadDocument?, Option.bind_eq_bind, Option.bind_eq_some_iff,
    Results.toOption_eq_some_iff, Option.ite_none_right_eq_some, Option.some.injEq, Prod.exists]
  constructor
  · rintro ⟨content, read, header, body, parsed, written, rfl⟩
    exact ⟨rfl, rfl, written, content, read, parsed⟩
  · rintro ⟨rfl, rfl, written, content, read, parsed⟩
    exact ⟨content, read, _, _, parsed, written, rfl⟩

/-- **A query gives exactly the documents of the library with a version in the range.** -/
theorem mem_documentsBetween {tree : FileTree} {dir : Path} {package : String}
    {low high : Version} {document : Document} :
    document ∈ documentsBetween tree dir package low high ↔
      Holds tree dir package document ∧ low.before document.version = true ∧
        document.version.upTo high = true := by
  simp only [documentsBetween, List.mem_mergeSort, List.mem_filterMap, List.mem_filter,
    Prod.exists, loadDocument?_eq_some_iff, mem_namedFiles, Bool.and_eq_true]
  constructor
  · rintro ⟨_, _, ⟨⟨names, name, text, listed, member, place, _, spelled, parsed⟩, range⟩, rfl, rfl,
      written, content, read, header⟩
    exact ⟨⟨⟨names, name, text, listed, member, place, spelled, parsed⟩, ⟨content, read, header⟩,
      written⟩, range⟩
  · rintro ⟨⟨⟨names, name, text, listed, member, place, spelled, parsed⟩, ⟨content, read, header⟩,
      written⟩, range⟩
    have isFile := FileTree.hasFile_of_readText read
    exact ⟨_, _, ⟨⟨names, name, text, listed, member, place, isFile, spelled, parsed⟩, range⟩,
      rfl, rfl, written, content, read, header⟩

/-! ## Order -/

/-- The versions of a library's files are distinct. -/
theorem distinct_namedFiles {tree : FileTree} {dir : Path}
    (distinct : ∀ names, tree.list dir = .ok names → names.Nodup) (package : String) :
    (namedFiles tree dir package).Pairwise fun first second => first.1 ≠ second.1 := by
  rw [namedFiles]
  cases listed : tree.list dir with
  | error error => exact List.Pairwise.nil
  | ok names =>
      rw [List.pairwise_filterMap]
      refine (distinct names listed).imp fun different entry found other also equal => different ?_
      simp only [Option.ite_none_right_eq_some, Option.map_eq_some_iff] at found also
      obtain ⟨_, version, here, rfl⟩ := found
      obtain ⟨_, version', there, rfl⟩ := also
      obtain rfl : version = version' := equal
      exact name_eq_of_version here there

/-- Sorting puts documents in order of their versions. -/
theorem pairwise_sorted (documents : List Document) :
    (documents.mergeSort fun first second => first.version.upTo second.version).Pairwise
      fun first second => first.version.upTo second.version = true := by
  refine List.pairwise_mergeSort (fun _ _ _ early late => ?_) (fun first second => ?_) documents
  · exact Version.upTo_trans early late
  · exact Version.upTo_total first.version second.version

/-- **The documents of a query are in strictly ascending order.** -/
theorem strict_documentsBetween {tree : FileTree} {dir : Path}
    (distinct : ∀ names, tree.list dir = .ok names → names.Nodup) (package : String)
    (low high : Version) :
    (documentsBetween tree dir package low high).Pairwise fun first second =>
      first.version.before second.version = true := by
  rw [documentsBetween]
  have apart : (((namedFiles tree dir package).filter fun entry =>
        low.before entry.1 && entry.1.upTo high).filterMap fun entry =>
        loadDocument? tree package entry.1 entry.2).Pairwise fun first second =>
      first.version ≠ second.version := by
    rw [List.pairwise_filterMap]
    refine ((distinct_namedFiles distinct package).filter _).imp ?_
    intro entry other different first found second also equal
    rw [(loadDocument?_eq_some_iff.1 found).1, (loadDocument?_eq_some_iff.1 also).1] at equal
    exact different equal
  refine ((pairwise_sorted _).and ((List.mergeSort_perm _ _).symm.pairwise apart Ne.symm)).imp ?_
  exact fun both => Version.before_of_upTo both.1 both.2

/-- Lists of documents in strictly ascending order with the same members are equal. -/
theorem eq_of_mem_iff {first second : List Document}
    (strict : first.Pairwise fun early late => early.version.before late.version = true)
    (strict' : second.Pairwise fun early late => early.version.before late.version = true)
    (same : ∀ document, document ∈ first ↔ document ∈ second) : first = second := by
  have irreflexive : Std.Irrefl fun early late : Document =>
      early.version.before late.version = true := by
    refine ⟨fun document before => ?_⟩
    rw [Version.not_before_self] at before
    cases before
  have antisymmetric : Std.Antisymm fun early late : Document =>
      early.version.before late.version = true :=
    ⟨fun early _ before after =>
      absurd (Version.before_trans before after) (irreflexive.irrefl early)⟩
  exact strict.eq_of_mem_iff strict' same

/-! ## Queries -/

/-- Queries of adjacent ranges make up the query of the whole range: a version of it is beyond the
middle, or up to it. -/
theorem documentsBetween_append {tree : FileTree} {dir : Path}
    (distinct : ∀ names, tree.list dir = .ok names → names.Nodup) (package : String)
    {low middle high : Version} (early : low.upTo middle = true) (late : middle.upTo high = true) :
    documentsBetween tree dir package low high =
      documentsBetween tree dir package low middle ++
        documentsBetween tree dir package middle high := by
  refine eq_of_mem_iff (strict_documentsBetween distinct package low high) ?_ fun document => ?_
  · refine List.pairwise_append.2 ⟨strict_documentsBetween distinct package low middle,
      strict_documentsBetween distinct package middle high, fun first below second above => ?_⟩
    exact Version.before_of_upTo_of_before (mem_documentsBetween.1 below).2.2
      (mem_documentsBetween.1 above).2.1
  · simp only [List.mem_append, mem_documentsBetween]
    constructor
    · rintro ⟨holds, above, below⟩
      by_cases beyond : middle.before document.version = true
      · exact .inr ⟨holds, beyond, below⟩
      · rw [Version.before_eq_not_upTo, Bool.not_eq_true', Bool.not_eq_false] at beyond
        exact .inl ⟨holds, above, beyond⟩
    · rintro (⟨holds, above, below⟩ | ⟨holds, above, below⟩)
      · exact ⟨holds, above, Version.upTo_trans below late⟩
      · exact ⟨holds, Version.before_of_upTo_of_before early above, below⟩

theorem Holds.congr {tree other : FileTree} (same : tree.entryAt? = other.entryAt?) {dir : Path}
    {package : String} {document : Document} (holds : Holds tree dir package document) :
    Holds other dir package document := by
  obtain ⟨⟨names, name, text, listed, member, place, named⟩, ⟨content, read, header⟩, written⟩ :=
    holds
  obtain ⟨others, relisted, mem_names⟩ := FileTree.list_congr same listed
  refine ⟨⟨others, name, text, relisted, (mem_names name).1 member, place, named⟩,
    ⟨content, ?_, header⟩, written⟩
  rw [← FileTree.readText_congr same, read]

/-- The order in which a directory lists its files does not show in a query. -/
theorem documentsBetween_congr {tree other : FileTree} (same : tree.entryAt? = other.entryAt?)
    {dir : Path} (distinct : ∀ names, tree.list dir = .ok names → names.Nodup)
    (distinct' : ∀ names, other.list dir = .ok names → names.Nodup) (package : String)
    (low high : Version) :
    documentsBetween other dir package low high = documentsBetween tree dir package low high := by
  refine eq_of_mem_iff (strict_documentsBetween distinct' package low high)
    (strict_documentsBetween distinct package low high) fun document => ?_
  rw [mem_documentsBetween, mem_documentsBetween]
  exact and_congr_left' ⟨Holds.congr same.symm, Holds.congr same⟩

/-- **Queries of a library compose.**  For three version texts in order, the query from the first
to the third is the query from the first to the second followed by the query from the second to the
third.  Its documents are in strictly ascending order of their versions; they are exactly those that
the library holds for the package with a version above the first and up to the third; and a tree
that differs at most in the order in which directories list their files gives the same answer. -/
theorem readDocuments_compose {tree : FileTree} {dir : Path}
    (distinct : ∀ names, tree.list dir = .ok names → names.Nodup) (package : String)
    {a b c : String} {low middle high : Version} (parsedLow : Version.parseLoose? a = some low)
    (parsedMiddle : Version.parseLoose? b = some middle)
    (parsedHigh : Version.parseLoose? c = some high) (early : low.upTo middle = true)
    (late : middle.upTo high = true) :
    readDocuments tree dir package a c =
        readDocuments tree dir package a b ++ readDocuments tree dir package b c ∧
      (readDocuments tree dir package a c).Pairwise (fun first second =>
        first.version.before second.version = true) ∧
      (∀ document, document ∈ readDocuments tree dir package a c ↔
        Holds tree dir package document ∧ low.before document.version = true ∧
          document.version.upTo high = true) ∧
      ∀ other : FileTree, tree.entryAt? = other.entryAt? →
        (∀ names, other.list dir = .ok names → names.Nodup) →
          readDocuments other dir package a c = readDocuments tree dir package a c := by
  simp only [readDocuments, parsedLow, parsedMiddle, parsedHigh]
  exact ⟨documentsBetween_append distinct package early late,
    strict_documentsBetween distinct package low high, fun _ => mem_documentsBetween,
    fun _ same distinct' => documentsBetween_congr same distinct distinct' package low high⟩

/-- A library with two documents for `@acme/core`, the later version listed first, and one for a
package of the same short name. -/
def smallLibrary : FileTree :=
  .directory [
    ("core-1.10.0.md", .file (Text.encode
      "---\npackage: \"@acme/core\"\nversion: 1.10.0\nbreaking: false\n---\n") false),
    ("core-1.2.0.md", .file (Text.encode
      "---\npackage: \"@acme/core\"\nversion: 1.2.0\nbreaking: true\n---\n") false),
    ("core-1.5.0.md", .file (Text.encode
      "---\npackage: \"@other/core\"\nversion: 1.5.0\nbreaking: true\n---\n") false)]

theorem readDocuments_compose_smallLibrary :
    (readDocuments smallLibrary ⟨["", ""]⟩ "@acme/core" "1.0.0" "v2.0.0").length = 2 ∧
      readDocuments smallLibrary ⟨["", ""]⟩ "@acme/core" "1.0.0" "v2.0.0" =
        readDocuments smallLibrary ⟨["", ""]⟩ "@acme/core" "1.0.0" "1.9.0" ++
          readDocuments smallLibrary ⟨["", ""]⟩ "@acme/core" "1.9.0" "v2.0.0" := by
  have distinct : ∀ names, smallLibrary.list ⟨["", ""]⟩ = .ok names → names.Nodup := by
    intro names listed
    have equal : (.ok ["core-1.10.0.md", "core-1.2.0.md", "core-1.5.0.md"] :
        Except FileError (List String)) = .ok names := listed
    cases equal
    decide
  have low : Version.parseLoose? "1.0.0" = some ⟨1, 0, 0, [], []⟩ := by decide +kernel
  have middle : Version.parseLoose? "1.9.0" = some ⟨1, 9, 0, [], []⟩ := by decide +kernel
  have high : Version.parseLoose? "v2.0.0" = some ⟨2, 0, 0, [], []⟩ := by decide +kernel
  have results := readDocuments_compose distinct "@acme/core" low middle high (by decide)
    (by decide)
  refine ⟨?_, results.1⟩
  rw [readDocuments, low, high]
  exact (List.length_mergeSort _).trans (by decide +kernel)

end Uplift.Migration
