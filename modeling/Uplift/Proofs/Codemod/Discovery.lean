import Uplift.Codemod.Discovery
import Uplift.Proofs.Migration.BreakingFlag
import Uplift.Proofs.Path.Spelling

/-!
# Codemods that documents refer to

A document may refer to anything, by a text with any mix of dots and slashes.  What is listed is
confined to files strictly below the codemod root: a text that is accepted leads to the root's
normal form followed by names (`IsConfined`), because dots are carried out before the comparison and
no file is looked at for it.

Each file is listed once, at the place and under the text of its first mention among the documents
of the query (`ListsFirstMentions`).  Queries of libraries compose, so listings do too: that of a
whole range is that of its first part, followed by what the second part adds
(`confined_of_discover`).
-/

set_option autoImplicit false

namespace Uplift

/-- What resolves below an absolute root is spelled in one way only. -/
theorem Path.eq_of_same_of_within? {root first second : Path} (absolute : root.isAbsolute = true)
    {text other : String} (found : within? root text = some first)
    (found' : within? root other = some second) (same : first.same second = true) :
    first = second := by
  obtain ⟨place, normal⟩ := exists_spells_normalize absolute
  obtain ⟨added, _, rfl, spells, _⟩ := within?_eq_some normal found
  obtain ⟨added', _, rfl, spells', _⟩ := within?_eq_some normal found'
  rw [(spells.same_iff spells').1 same]

theorem FileTree.file_of_hasFile {tree : FileTree} {path : Path} {place : Place}
    (spells : path.Spells place) (held : tree.hasFile path = true) :
    ∃ content executable, tree.entryAt? place = some (.file content executable) := by
  rw [hasFile] at held
  split at held
  next found finding =>
    have get := get?_of_find spells finding
    cases found with
    | file content executable => exact ⟨content, executable, (entryAt?_eq_file_iff _ _ _ _).2 get⟩
    | directory entries => cases held
  next => cases held

namespace Codemod

/-! ## Where codemods are -/

/-- A path below a root in normal form, and a file. -/
structure IsConfined (tree : FileTree) (root path : Path) : Prop where
  absolute : path.isAbsolute = true
  below : ∃ added, added ≠ [] ∧
    path.components = root.normalize.components ++ added.map .normal
  file : ∃ content executable, tree.entryAt? path.names = some (.file content executable)

theorem resolve?_eq_some_iff {tree : FileTree} {root : Path} {text : String}
    {reference : Reference} :
    resolve? tree root text = some reference ↔
      reference.relative = text ∧ Path.within? root text = some reference.path ∧
        tree.hasFile reference.path = true := by
  simp only [resolve?, Option.bind_eq_bind, Option.bind_eq_some_iff,
    Option.ite_none_right_eq_some, Option.some.injEq]
  constructor
  · rintro ⟨path, within, file, rfl⟩
    exact ⟨rfl, within, file⟩
  · rintro ⟨rfl, within, file⟩
    exact ⟨_, within, file, rfl⟩

theorem isConfined_of_resolve? {tree : FileTree} {root : Path} (absolute : root.isAbsolute = true)
    {text : String} {reference : Reference} (resolved : resolve? tree root text = some reference) :
    IsConfined tree root reference.path := by
  obtain ⟨_, within, file⟩ := resolve?_eq_some_iff.1 resolved
  obtain ⟨place, normal⟩ := Path.exists_spells_normalize absolute
  obtain ⟨added, nonempty, plainest, spells, _⟩ := Path.within?_eq_some normal within
  refine ⟨?_, ⟨added, nonempty, ?_⟩, ?_⟩
  · obtain ⟨first, more, pieces, _⟩ := Path.absolute_of_components spells
    exact Path.isAbsolute_iff.2 ⟨first, more, pieces⟩
  · rw [spells, normal, List.map_append, List.cons_append]
  · rw [spells.names]
    exact FileTree.file_of_hasFile spells file

/-! ## Listing each file once -/

/-- Only which files were listed before matters, and not in which order. -/
theorem firstReferences_congr {seen seen' : List Path}
    (alike : ∀ path : Path, seen.any path.same = seen'.any path.same)
    (references : List Reference) :
    firstReferences seen references = firstReferences seen' references := by
  induction references generalizing seen seen' with
  | nil => rfl
  | cons reference rest ih =>
      have longer : ∀ path : Path, (reference.path :: seen).any path.same =
          (reference.path :: seen').any path.same := by
        intro path
        rw [List.any_cons, List.any_cons, alike]
      rw [firstReferences, firstReferences, alike, ih alike, ih longer]

/-- One file more that was listed before is one file less in the list. -/
theorem firstReferences_cons (path : Path) (seen : List Path) (references : List Reference) :
    firstReferences (path :: seen) references =
      (firstReferences seen references).filter fun reference => !reference.path.same path := by
  induction references generalizing seen with
  | nil => rfl
  | cons reference rest ih =>
      have swap : firstReferences (reference.path :: path :: seen) rest =
          firstReferences (path :: reference.path :: seen) rest := by
        refine firstReferences_congr (fun other => ?_) rest
        rw [List.any_cons, List.any_cons, List.any_cons, List.any_cons, Bool.or_left_comm]
      rw [firstReferences, firstReferences, List.any_cons]
      cases before : seen.any reference.path.same with
      | true => rw [Bool.or_true, if_pos rfl, if_pos rfl, ih]
      | false =>
          rw [Bool.or_false, if_neg Bool.false_ne_true]
          cases here : reference.path.same path with
          | true =>
              have stands : firstReferences (path :: seen) rest =
                  firstReferences (path :: reference.path :: seen) rest := by
                refine firstReferences_congr (fun other => ?_) rest
                have same : other.same reference.path = other.same path := by
                  rw [Path.same, Path.same, Path.same_iff.1 here]
                rw [List.any_cons, List.any_cons, List.any_cons, same, ← Bool.or_assoc,
                  Bool.or_self]
              rw [if_pos rfl, List.filter_cons_of_neg (by simp [here]), ← ih, stands]
          | false =>
              rw [if_neg Bool.false_ne_true, List.filter_cons_of_pos (by simp [here]), ← ih, swap]

/-- **The files of two lists** are those of the first, followed by what the second adds. -/
theorem firstReferences_append (seen : List Path) (first second : List Reference) :
    firstReferences seen (first ++ second) =
      firstReferences seen first ++ (firstReferences seen second).filter fun reference =>
        !((firstReferences seen first).map Reference.path).any reference.path.same := by
  induction first generalizing seen with
  | nil => simp [firstReferences]
  | cons reference rest ih =>
      rw [List.cons_append, firstReferences, firstReferences]
      split
      next => exact ih seen
      next =>
        rw [ih, firstReferences_cons reference.path seen second, List.filter_filter,
          List.cons_append, List.map_cons]
        simp only [List.any_cons, Bool.not_or, Bool.and_comm]

theorem mem_firstReferences {seen : List Path} {references : List Reference}
    {reference : Reference} (member : reference ∈ firstReferences seen references) :
    reference ∈ references ∧ seen.any reference.path.same = false := by
  induction references generalizing seen with
  | nil => cases member
  | cons first rest ih =>
      rw [firstReferences] at member
      split at member
      next => exact (ih member).imp_left (List.mem_cons_of_mem _)
      next fresh =>
        rcases List.mem_cons.1 member with rfl | later
        · exact ⟨List.mem_cons_self, Bool.eq_false_iff.2 fresh⟩
        · obtain ⟨among, new⟩ := ih later
          rw [List.any_cons, Bool.or_eq_false_iff] at new
          exact ⟨List.mem_cons_of_mem _ among, new.2⟩

theorem pairwise_firstReferences (seen : List Path) (references : List Reference) :
    (firstReferences seen references).Pairwise fun early late =>
      early.path.same late.path = false := by
  induction references generalizing seen with
  | nil => exact List.Pairwise.nil
  | cons first rest ih =>
      rw [firstReferences]
      split
      next => exact ih seen
      next =>
        refine List.pairwise_cons.2 ⟨fun late member => ?_, ih _⟩
        have new := (mem_firstReferences member).2
        rw [List.any_cons, Bool.or_eq_false_iff, Path.same_comm] at new
        exact new.1

theorem exists_same_of_mem_references (seen : List Path) {references : List Reference}
    {reference : Reference} (member : reference ∈ references)
    (fresh : seen.any reference.path.same = false) :
    ∃ found ∈ firstReferences seen references, found.path.same reference.path = true := by
  induction references generalizing seen with
  | nil => cases member
  | cons first rest ih =>
      rw [firstReferences]
      by_cases here : first.path.same reference.path = true
      · have same : first.path.same = reference.path.same := by
          funext other
          rw [Path.same, Path.same, Path.same_iff.1 here]
        rw [same, fresh, if_neg Bool.false_ne_true]
        exact ⟨first, List.mem_cons_self, here⟩
      · have later : reference ∈ rest := by
          refine (List.mem_cons.1 member).resolve_left fun equal => here ?_
          rw [equal, Path.same_iff]
        split
        next => exact ih seen later fresh
        next =>
          have longer : (first.path :: seen).any reference.path.same = false := by
            rw [List.any_cons, fresh, Bool.or_false, Path.same_comm]
            exact Bool.eq_false_iff.2 here
          obtain ⟨found, among, same⟩ := ih _ later longer
          exact ⟨found, List.mem_cons_of_mem _ among, same⟩

/-! ## First mentions -/

/-- Whether a text refers to a path: it leads there from the root, and strictly below it. -/
def refersTo (root path : Path) (text : String) : Bool :=
  Path.within? root text = some path

/-- The number of texts before the first that refers to a path. -/
def firstMention (root : Path) (texts : List String) (path : Path) : Nat :=
  texts.findIdx (refersTo root path)

/-- A list has the files that texts refer to: each under the first text that does, in the order of
these texts, and none is missing. -/
structure ListsFirstMentions (tree : FileTree) (root : Path) (texts : List String)
    (found : List Reference) : Prop where
  carries : ∀ reference ∈ found,
    texts[firstMention root texts reference.path]? = some reference.relative
  ascending : found.Pairwise fun early late =>
    firstMention root texts early.path < firstMention root texts late.path
  complete : ∀ text ∈ texts, ∀ path, Path.within? root text = some path →
    tree.hasFile path = true → path ∈ found.map Reference.path

theorem firstMention_cons_self {root path : Path} {text : String}
    (refers : Path.within? root text = some path) (texts : List String) :
    firstMention root (text :: texts) path = 0 := by
  rw [firstMention, List.findIdx_cons, refersTo, decide_eq_true refers, cond_true]

theorem firstMention_cons_of_ne {root path : Path} {text : String}
    (other : Path.within? root text ≠ some path) (texts : List String) :
    firstMention root (text :: texts) path = firstMention root texts path + 1 := by
  rw [firstMention, List.findIdx_cons, refersTo, decide_eq_false other, cond_false]
  rfl

/-- Beyond a text, only files are listed that the text does not refer to. -/
theorem within?_ne_of_mem {tree : FileTree} {root : Path} {text : String} {texts : List String}
    {seen : List Path} {reference : Reference}
    (listed : ∀ first, resolve? tree root text = some first → seen.any first.path.same = true)
    (member : reference ∈ firstReferences seen (texts.filterMap (resolve? tree root))) :
    Path.within? root text ≠ some reference.path := by
  intro within
  obtain ⟨among, fresh⟩ := mem_firstReferences member
  obtain ⟨_, _, resolved⟩ := List.mem_filterMap.1 among
  have file := (resolve?_eq_some_iff.1 resolved).2.2
  have first := listed ⟨text, reference.path⟩ (resolve?_eq_some_iff.2 ⟨rfl, within, file⟩)
  rw [fresh] at first
  cases first

theorem firstReferences_mentions (tree : FileTree) (root : Path) (texts : List String)
    (seen : List Path) :
    (∀ reference ∈ firstReferences seen (texts.filterMap (resolve? tree root)),
        texts[firstMention root texts reference.path]? = some reference.relative) ∧
      (firstReferences seen (texts.filterMap (resolve? tree root))).Pairwise fun early late =>
        firstMention root texts early.path < firstMention root texts late.path := by
  induction texts generalizing seen with
  | nil => exact ⟨nofun, List.Pairwise.nil⟩
  | cons text texts ih =>
      have skip : ∀ {seen : List Path},
          (∀ first, resolve? tree root text = some first → seen.any first.path.same = true) →
          (∀ reference ∈ firstReferences seen (texts.filterMap (resolve? tree root)),
            (text :: texts)[firstMention root (text :: texts) reference.path]? =
              some reference.relative) ∧
          (firstReferences seen (texts.filterMap (resolve? tree root))).Pairwise fun early late =>
            firstMention root (text :: texts) early.path <
              firstMention root (text :: texts) late.path := by
        intro seen listed
        obtain ⟨carries, ascending⟩ := ih seen
        refine ⟨fun reference member => ?_, ascending.imp_of_mem fun early late before => ?_⟩
        · rw [firstMention_cons_of_ne (within?_ne_of_mem listed member), List.getElem?_cons_succ]
          exact carries reference member
        · rw [firstMention_cons_of_ne (within?_ne_of_mem listed early),
            firstMention_cons_of_ne (within?_ne_of_mem listed late)]
          exact Nat.succ_lt_succ before
      cases resolved : resolve? tree root text with
      | none =>
          rw [List.filterMap_cons_none resolved]
          exact skip (by simp [resolved])
      | some first =>
          obtain ⟨same, within, _⟩ := resolve?_eq_some_iff.1 resolved
          rw [List.filterMap_cons_some resolved, firstReferences]
          split
          next before =>
            refine skip fun other also => ?_
            rw [resolved] at also
            cases also
            exact before
          next =>
            have listed : ∀ other, resolve? tree root text = some other →
                (first.path :: seen).any other.path.same = true := by
              intro other also
              rw [resolved] at also
              cases also
              rw [List.any_cons, Path.same_iff.2 rfl, Bool.true_or]
            obtain ⟨carries, ascending⟩ := skip listed
            refine ⟨List.forall_mem_cons.2 ⟨?_, carries⟩,
              List.pairwise_cons.2 ⟨fun late member => ?_, ascending⟩⟩
            · rw [firstMention_cons_self within, List.getElem?_cons_zero, same]
            · rw [firstMention_cons_self within,
                firstMention_cons_of_ne (within?_ne_of_mem listed member)]
              exact Nat.succ_pos _

/-- **Files are listed at their first mentions.** -/
theorem listsFirstMentions {tree : FileTree} {root : Path} (absolute : root.isAbsolute = true)
    (texts : List String) :
    ListsFirstMentions tree root texts
      (firstReferences [] (texts.filterMap (resolve? tree root))) := by
  obtain ⟨carries, ascending⟩ := firstReferences_mentions tree root texts []
  refine ⟨carries, ascending, fun text member path within file => ?_⟩
  have among : ⟨text, path⟩ ∈ texts.filterMap (resolve? tree root) :=
    List.mem_filterMap.2 ⟨text, member, resolve?_eq_some_iff.2 ⟨rfl, within, file⟩⟩
  obtain ⟨found, listed, same⟩ := exists_same_of_mem_references [] among rfl
  obtain ⟨other, _, resolved⟩ := List.mem_filterMap.1 (mem_firstReferences listed).1
  have within' := (resolve?_eq_some_iff.1 resolved).2.1
  rw [← Path.eq_of_same_of_within? absolute within' within same]
  exact List.mem_map_of_mem listed

/-! ## Discovery -/

/-- Among what resolves below an absolute root, the files that a list adds can be told by their
paths. -/
theorem firstReferences_append_resolved {tree : FileTree} {root : Path}
    (absolute : root.isAbsolute = true) (first second : List String) :
    firstReferences [] ((first ++ second).filterMap (resolve? tree root)) =
      firstReferences [] (first.filterMap (resolve? tree root)) ++
        (firstReferences [] (second.filterMap (resolve? tree root))).filter fun reference =>
          reference.path ∉
            (firstReferences [] (first.filterMap (resolve? tree root))).map Reference.path := by
  have within : ∀ {texts : List String} {reference : Reference},
      reference ∈ firstReferences [] (texts.filterMap (resolve? tree root)) →
        ∃ text, Path.within? root text = some reference.path := by
    intro texts reference member
    obtain ⟨text, _, resolved⟩ := List.mem_filterMap.1 (mem_firstReferences member).1
    exact ⟨text, (resolve?_eq_some_iff.1 resolved).2.1⟩
  rw [List.filterMap_append, firstReferences_append]
  refine congrArg _ (List.filter_congr fun reference member => ?_)
  obtain ⟨text, here⟩ := within member
  rw [Bool.not_eq_eq_eq_not, ← decide_not, Bool.eq_iff_iff, List.any_eq_true, decide_eq_true_eq,
    not_not]
  constructor
  · rintro ⟨path, listed, same⟩
    obtain ⟨earlier, among, rfl⟩ := List.mem_map.1 listed
    obtain ⟨other, there⟩ := within among
    rwa [Path.eq_of_same_of_within? absolute here there same]
  · exact fun listed => ⟨_, listed, Path.same_iff.2 rfl⟩

/-- **Codemods are confined, listed once, and listed where they are first mentioned; and listings
compose.**  Let three version texts be in order.  Every codemod between the first and the last is a
file strictly below the codemod root, by a path without dots.  No two have the same path.  The
documents that the library holds for the package in this range, in ascending order of their
versions, refer to the codemods in the texts of their changes: each codemod carries the first text
that leads to it, and they come in the order of these texts.  They are the codemods between the
first two versions followed by those between the last two that were not among them. -/
theorem confined_of_discover {tree : FileTree} (wellFormed : tree.WellFormed)
    {library root : Path} (absolute : root.isAbsolute = true) (package : String) {a b c : String}
    {low middle high : Version} (parsedLow : Version.parseLoose? a = some low)
    (parsedMiddle : Version.parseLoose? b = some middle)
    (parsedHigh : Version.parseLoose? c = some high) (early : low.upTo middle = true)
    (late : middle.upTo high = true) :
    (∀ found ∈ discover tree library root package a c, IsConfined tree root found.path) ∧
      (discover tree library root package a c).Pairwise (fun first second =>
        first.path.same second.path = false) ∧
      (∃ documents : List Migration.Document,
        documents.Pairwise (fun first second => first.version.before second.version = true) ∧
        (∀ document, document ∈ documents ↔ Migration.Holds tree library package document ∧
          low.before document.version = true ∧ document.version.upTo high = true) ∧
        ListsFirstMentions tree root
          (documents.flatMap fun document =>
            document.header.changes.filterMap Migration.Change.codemod)
          (discover tree library root package a c)) ∧
      discover tree library root package a c =
        discover tree library root package a b ++
          (discover tree library root package b c).filter fun found =>
            found.path ∉ (discover tree library root package a b).map Reference.path := by
  have distinct : ∀ names, tree.list library = .ok names → names.Nodup :=
    fun _ listed => wellFormed.nodup_list listed
  have whole := Migration.documentsBetween_append distinct package early late
  simp only [discover, Migration.readDocuments, parsedLow, parsedMiddle, parsedHigh]
  refine ⟨fun found member => ?_, pairwise_firstReferences [] _, ⟨_,
    Migration.strict_documentsBetween distinct package low high,
    fun _ => Migration.mem_documentsBetween, listsFirstMentions absolute _⟩, ?_⟩
  · obtain ⟨text, _, resolved⟩ := List.mem_filterMap.1 (mem_firstReferences member).1
    exact isConfined_of_resolve? absolute resolved
  · rw [whole, referencesOf, List.flatMap_append]
    exact firstReferences_append_resolved absolute _ _

/-- Two documents that mention one file by two texts; the first of them mentions a file outside of
the codemods as well. -/
def scriptedProject : FileTree :=
  .directory [
    ("docs", .directory [
      ("p-1.2.0.md", .file (Text.encode ("---\npackage: p\nversion: 1\nbreaking: true\n" ++
        "changes:\n- type: moved\n codemod: ../a\n- type: moved\n codemod: x/../a\n---\n")) false),
      ("p-1.10.0.md", .file (Text.encode ("---\npackage: p\nversion: 1\nbreaking: true\n" ++
        "changes:\n- type: moved\n codemod: a\n- type: moved\n codemod: .//b\n---\n")) false)]),
    ("a", .file (Text.encode "") false),
    ("codemods", .directory [
      ("a", .file (Text.encode "") false),
      ("b", .file (Text.encode "") false)])]

theorem confined_of_discover_scripted :
    scriptedProject.WellFormed ∧
      (discover scriptedProject ⟨["", "docs"]⟩ ⟨["", "x", "..", "codemods"]⟩ "p" "1.0.0"
        "v2.0.0").map Reference.relative = ["x/../a", ".//b"] ∧
      discover scriptedProject ⟨["", "docs"]⟩ ⟨["", "x", "..", "codemods"]⟩ "p" "1.0.0" "v2.0.0" =
        discover scriptedProject ⟨["", "docs"]⟩ ⟨["", "x", "..", "codemods"]⟩ "p" "1.0.0"
            "1.9.0" ++
          (discover scriptedProject ⟨["", "docs"]⟩ ⟨["", "x", "..", "codemods"]⟩ "p" "1.9.0"
            "v2.0.0").filter fun found =>
              found.path ∉ (discover scriptedProject ⟨["", "docs"]⟩ ⟨["", "x", "..", "codemods"]⟩
                "p" "1.0.0" "1.9.0").map Reference.path := by
  have wellFormed : scriptedProject.WellFormed := by decide +kernel
  have low : Version.parseLoose? "1.0.0" = some ⟨1, 0, 0, [], []⟩ := by decide +kernel
  have middle : Version.parseLoose? "1.9.0" = some ⟨1, 9, 0, [], []⟩ := by decide +kernel
  have high : Version.parseLoose? "v2.0.0" = some ⟨2, 0, 0, [], []⟩ := by decide +kernel
  refine ⟨wellFormed, ?_, (confined_of_discover wellFormed (by decide) "p" low middle high
    (by decide) (by decide)).2.2.2⟩
  simp only [discover, Migration.readDocuments, low, high, Migration.documentsBetween]
  rw [List.mergeSort_of_pairwise (by decide +kernel)]
  decide +kernel

end Codemod

end Uplift
