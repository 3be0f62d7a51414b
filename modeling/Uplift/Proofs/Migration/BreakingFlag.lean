import Uplift.Proofs.Migration.Library

/-!
# The authors' flag for a version

The flag is looked up by the name of one file: the first that is listed under the version, which is
then read.  A query goes the other way round, and reads all files in a range before it puts them in
order.  The two agree because a library holds at most one document for a package and a version
(`eq_of_holds`): either way the flag is that of the document it holds, if there is one
(`breakingFlag?_eq_some_iff`).  So the flag is known from the last document of any query that ends
at the version, and nothing else in the library bears on it, neither the order of its files nor the
documents that share the package's short name (`breakingFlag?_agrees`).
-/

set_option autoImplicit false

namespace Uplift

namespace FileTree

/-- A well-formed tree lists the names of a directory once. -/
theorem WellFormed.nodup_list {tree : FileTree} (wellFormed : tree.WellFormed) {path : Path}
    {names : List String} (listed : tree.list path = .ok names) : names.Nodup := by
  obtain ⟨dir, entries, _, found, rfl, _⟩ := located_of_list listed
  exact (wellFormed_directory_iff.1 (wellFormed.get? found)).1

end FileTree

namespace Migration

/-! ## The nearest library -/

theorem libraryAbove?_eq_none {tree : FileTree} {dir : Path} {relative : String}
    (none : ∀ above ∈ dir.ancestors, tree.hasDirectory (above.joinText relative) = false) :
    libraryAbove? tree dir relative = .none := by
  rw [libraryAbove?, List.find?_eq_none]
  intro library member
  obtain ⟨above, among, rfl⟩ := List.mem_map.1 member
  rw [none above among]
  exact Bool.false_ne_true

theorem libraryAbove?_eq_nearest {tree : FileTree} {dir above : Path} {relative : String}
    {nearer further : List Path} (split : dir.ancestors = nearer ++ above :: further)
    (none : ∀ other ∈ nearer, tree.hasDirectory (other.joinText relative) = false)
    (here : tree.hasDirectory (above.joinText relative) = true) :
    libraryAbove? tree dir relative = some (above.joinText relative) := by
  rw [libraryAbove?, List.find?_eq_some_iff_append]
  refine ⟨here, nearer.map fun other => other.joinText relative,
    further.map fun other => other.joinText relative, ?_, fun library member => ?_⟩
  · rw [split, List.map_append, List.map_cons]
  · obtain ⟨other, among, rfl⟩ := List.mem_map.1 member
    rw [none other among]
    rfl

theorem libraryAbove?_congr {tree other : FileTree} (same : tree.entryAt? = other.entryAt?)
    (dir : Path) (relative : String) :
    libraryAbove? other dir relative = libraryAbove? tree dir relative := by
  rw [libraryAbove?, libraryAbove?, funext (FileTree.hasDirectory_congr same.symm)]

/-! ## One version -/

/-- The file that is listed first under a version is the only one, so the document in it is the one
that the library holds. -/
theorem load_first_eq_some_iff {tree : FileTree} {dir : Path}
    (distinct : ∀ names, tree.list dir = .ok names → names.Nodup) {package : String}
    {version : Version} {document : Document} :
    (((namedFiles tree dir package).find? fun entry => entry.1 = version).bind fun entry =>
        loadDocument? tree package entry.1 entry.2) = some document ↔
      Holds tree dir package document ∧ document.version = version := by
  rw [Option.bind_eq_some_iff]
  constructor
  · rintro ⟨⟨listed, file⟩, first, loaded⟩
    obtain rfl : listed = version := by simpa using List.find?_some first
    obtain ⟨names, name, text, list, member, place, _, spelled, parsed⟩ :=
      mem_namedFiles.1 (List.mem_of_find?_eq_some first)
    obtain ⟨rfl, rfl, written, content, read, header⟩ := loadDocument?_eq_some_iff.1 loaded
    exact ⟨⟨⟨names, name, text, list, member, place, spelled, parsed⟩, ⟨content, read, header⟩,
      written⟩, rfl⟩
  · rintro ⟨⟨⟨names, name, text, list, member, place, spelled, parsed⟩, ⟨content, read, header⟩,
      written⟩, rfl⟩
    have listed : (document.version, document.file) ∈ namedFiles tree dir package :=
      mem_namedFiles.2 ⟨names, name, text, list, member, place,
        FileTree.hasFile_of_readText read, spelled,
        parsed⟩
    obtain ⟨first, found⟩ := Option.isSome_iff_exists.1
      (List.find?_isSome.2 ⟨_, listed, decide_eq_true rfl⟩ :
        ((namedFiles tree dir package).find? fun entry =>
          decide (entry.1 = document.version)).isSome = true)
    have versions : ((namedFiles tree dir package).map Prod.fst).Nodup :=
      List.pairwise_map.2 (distinct_namedFiles distinct package)
    obtain rfl : first = (document.version, document.file) :=
      List.inj_on_of_nodup_map versions (List.mem_of_find?_eq_some found) listed
        (by simpa using List.find?_some found)
    exact ⟨_, found, loadDocument?_eq_some_iff.2 ⟨rfl, rfl, written, content, read, header⟩⟩

/-- **A flag is that of the document which the nearest library holds for the version.** -/
theorem breakingFlag?_eq_some_iff {tree : FileTree} (wellFormed : tree.WellFormed) {dir : Path}
    {relative package text : String} {version : Version}
    (parsed : Version.parseLoose? text = some version) {flag : Bool} :
    breakingFlag? tree dir relative package text = some flag ↔
      ∃ library document, libraryAbove? tree dir relative = some library ∧
        Holds tree library package document ∧ document.version = version ∧
          document.header.breaking = flag := by
  simp only [breakingFlag?, Option.bind_eq_bind, Option.bind_eq_some_iff, parsed]
  refine exists_congr fun library => ?_
  have held : ∀ document, _ ↔ Holds tree library package document ∧ document.version = version :=
    fun _ => load_first_eq_some_iff fun _ listed => wellFormed.nodup_list listed
  simp only [Option.bind_eq_some_iff] at held
  constructor
  · rintro ⟨found, _, ⟨⟩, entry, first, document, loaded, equal⟩
    obtain ⟨holds, same⟩ := (held document).1 ⟨entry, first, loaded⟩
    exact ⟨document, found, holds, same, Option.some.inj equal⟩
  · rintro ⟨document, found, holds, same, equal⟩
    obtain ⟨entry, first, loaded⟩ := (held document).2 ⟨holds, same⟩
    exact ⟨found, version, rfl, entry, first, document, loaded, congrArg some equal⟩

/-! ## The last document of a query -/

/-- The last document of a query is the one for the highest version in the range, if the library
holds it. -/
theorem getLast?_query_eq_some_iff {tree : FileTree} {dir : Path}
    (distinct : ∀ names, tree.list dir = .ok names → names.Nodup) {package : String}
    {low high : Version} (above : low.before high = true) {document : Document} :
    ((documentsBetween tree dir package low high).getLast?.filter fun last =>
        last.version = high) = some document ↔
      Holds tree dir package document ∧ document.version = high := by
  rw [Option.filter_eq_some_iff, decide_eq_true_eq]
  refine and_congr_left fun same => ⟨fun last => ?_, fun holds => ?_⟩
  · exact (mem_documentsBetween.1 (List.mem_of_getLast? last)).1
  · have member : document ∈ documentsBetween tree dir package low high :=
      mem_documentsBetween.2 ⟨holds, by rwa [same], by rw [same]; exact Version.upTo_self high⟩
    have strict := strict_documentsBetween distinct package low high
    rcases List.eq_nil_or_concat (documentsBetween tree dir package low high) with
      none | ⟨earlier, last, split⟩
    · rw [none] at member
      cases member
    · rw [List.concat_eq_append] at split
      rw [split, List.pairwise_append] at strict
      rw [split, List.mem_append, List.mem_singleton] at member
      rw [split, List.getLast?_concat]
      rcases member with earlier | rfl
      · have beyond := strict.2.2 document earlier last List.mem_cons_self
        have within : last.version.upTo high = true :=
          (mem_documentsBetween.1 (split ▸ List.mem_concat_self)).2.2
        rw [same, Version.before_eq_not_upTo, within] at beyond
        cases beyond
      · rfl

/-! ## Agreement -/

/-- A flag depends on the nearest library alone, and there on the documents for the package. -/
theorem breakingFlag?_congr {tree other : FileTree} (wellFormed : tree.WellFormed)
    (wellFormed' : other.WellFormed) {dir : Path} {relative package text : String}
    {version : Version} (parsed : Version.parseLoose? text = some version)
    (nearest : libraryAbove? other dir relative = libraryAbove? tree dir relative)
    (held : ∀ library, libraryAbove? tree dir relative = some library → ∀ document,
      Holds other library package document ↔ Holds tree library package document) :
    breakingFlag? other dir relative package text =
      breakingFlag? tree dir relative package text := by
  refine Option.ext fun flag => ?_
  rw [breakingFlag?_eq_some_iff wellFormed parsed, breakingFlag?_eq_some_iff wellFormed' parsed,
    nearest]
  refine exists_congr fun library => exists_congr fun document => and_congr_right fun found => ?_
  rw [held library found document]

/-- **The authors' flag and the query of documents agree.**  Let one version come before another.
Where no directory above the working directory holds a library, the later version has no flag.
Otherwise the flag is that of the last document which the nearest library has for the package
between the two, provided that this document is for the later version; if it is not, or there is
none, there is no flag.  Neither the order in which directories list their files nor any document
that is not written for the package in full plays a part. -/
theorem breakingFlag?_agrees {tree : FileTree} (wellFormed : tree.WellFormed) (dir : Path)
    (relative package : String) {a v : String} {low version : Version}
    (parsedLow : Version.parseLoose? a = some low)
    (parsed : Version.parseLoose? v = some version) (above : low.before version = true) :
    ((∀ place ∈ dir.ancestors, tree.hasDirectory (place.joinText relative) = false) →
        breakingFlag? tree dir relative package v = none) ∧
      (∀ nearer place further, dir.ancestors = nearer ++ place :: further →
        (∀ other ∈ nearer, tree.hasDirectory (other.joinText relative) = false) →
        tree.hasDirectory (place.joinText relative) = true →
          breakingFlag? tree dir relative package v =
            ((readDocuments tree (place.joinText relative) package a v).getLast?.filter
              fun last => last.version = version).map fun last => last.header.breaking) ∧
      (∀ other : FileTree, other.WellFormed → tree.entryAt? = other.entryAt? →
        breakingFlag? other dir relative package v = breakingFlag? tree dir relative package v) ∧
      ∀ other : FileTree, other.WellFormed →
        libraryAbove? other dir relative = libraryAbove? tree dir relative →
        (∀ library, libraryAbove? tree dir relative = some library → ∀ document,
          Holds other library package document ↔ Holds tree library package document) →
        breakingFlag? other dir relative package v =
          breakingFlag? tree dir relative package v := by
  refine ⟨fun none => ?_, fun nearer place further split none here => ?_,
    fun other wellFormed' same => ?_, fun other wellFormed' nearest held => ?_⟩
  · rw [breakingFlag?, libraryAbove?_eq_none none]
    rfl
  · have nearest := libraryAbove?_eq_nearest split none here
    refine Option.ext fun flag => ?_
    rw [breakingFlag?_eq_some_iff wellFormed parsed, readDocuments, parsedLow, parsed, nearest,
      Option.map_eq_some_iff]
    simp only [getLast?_query_eq_some_iff (fun _ listed => wellFormed.nodup_list listed) above]
    constructor
    · rintro ⟨_, document, ⟨⟩, holds, same, flag⟩
      exact ⟨document, ⟨holds, same⟩, flag⟩
    · rintro ⟨document, ⟨holds, same⟩, flag⟩
      exact ⟨_, document, rfl, holds, same, flag⟩
  · exact breakingFlag?_congr wellFormed wellFormed' parsed (libraryAbove?_congr same dir relative)
      fun library _ document => ⟨Holds.congr same.symm, Holds.congr same⟩
  · exact breakingFlag?_congr wellFormed wellFormed' parsed nearest held

/-- A library two directories above `src`: two documents for `@acme/core`, the later one breaking
and listed first, and a document for a package of the same short name. -/
def nestedProject : FileTree :=
  .directory [("w", .directory [
    (".docs", .directory [
      ("core-1.2.0.md", .file (Text.encode
        "---\npackage: \"@acme/core\"\nversion: 1.2.0\nbreaking: true\n---\n") false),
      ("core-1.3.0.md", .file (Text.encode
        "---\npackage: \"@other/core\"\nversion: 1.3.0\nbreaking: true\n---\n") false),
      ("core-1.1.0.md", .file (Text.encode
        "---\npackage: \"@acme/core\"\nversion: 1.1.0\nbreaking: false\n---\n") false)]),
    ("app", .directory [("src", .directory [])])])]

theorem breakingFlag?_agrees_nested :
    nestedProject.WellFormed ∧
      breakingFlag? nestedProject ⟨["", "w", "app", "src"]⟩ ".docs" "@acme/core" "v1.2.0" =
        ((readDocuments nestedProject ⟨["", "w", ".docs"]⟩ "@acme/core" "1.0.0"
          "v1.2.0").getLast?.filter fun last => last.version = ⟨1, 2, 0, [], []⟩).map
            (fun last => last.header.breaking) ∧
      breakingFlag? nestedProject ⟨["", "w", "app", "src"]⟩ ".docs" "@acme/core" "v1.2.0" =
        some true := by
  have wellFormed : nestedProject.WellFormed := by decide +kernel
  have low : Version.parseLoose? "1.0.0" = some ⟨1, 0, 0, [], []⟩ := by decide +kernel
  have high : Version.parseLoose? "v1.2.0" = some ⟨1, 2, 0, [], []⟩ := by decide +kernel
  have agrees := breakingFlag?_agrees wellFormed ⟨["", "w", "app", "src"]⟩ ".docs" "@acme/core"
    low high (by decide)
  refine ⟨wellFormed, ?_, by decide +kernel⟩
  exact agrees.2.1 [⟨["", "w", "app", "src"]⟩, ⟨["", "w", "app"]⟩] ⟨["", "w"]⟩ [⟨["", ""]⟩]
    (by decide +kernel) (by decide +kernel) (by decide +kernel)

end Migration

end Uplift
