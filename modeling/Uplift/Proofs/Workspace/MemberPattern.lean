import Uplift.Proofs.FileTree.LiteralPatterns
import Uplift.Proofs.Text.Cutting
import Uplift.Proofs.Workspace.Members
import Uplift.Workspace.Convert

/-!
# The pattern of a new member

The pattern that a conversion writes for its member repeats the names above the member and ends in
a star, or is the member's only name (`memberPattern_intercalate`).  Joined to the root, it is
followed name by name, so that it finds the manifests in the directories beside the member, or the
member's alone, except among installed packages (`patternManifests_of_findable`).
-/

set_option autoImplicit false

namespace Uplift.Text

/-- Pieces before the last stand before the last mark. -/
theorem intercalate_concat (mark : Char) {front : List (List Char)} (nonempty : front ≠ [])
    (last : List Char) :
    [mark].intercalate (front ++ [last]) = [mark].intercalate front ++ mark :: last := by
  induction front with
  | nil => exact absurd rfl nonempty
  | cons piece front ih =>
      cases front with
      | nil => simp [List.intercalate_cons_cons]
      | cons next front =>
          rw [List.cons_append, List.cons_append, List.intercalate_cons_cons,
            List.intercalate_cons_cons, ← List.cons_append, ih (by simp)]
          simp

end Uplift.Text

namespace Uplift.Workspace

open FileTree (Place IsEntryName)

/-! ## The text of the pattern -/

/-- What the pattern of a member ends in: a star below names of its own, or the member's name. -/
def patternEnd (above : Place) (last : String) : String :=
  if above = [] then last else "*"

theorem memberPattern_intercalate (above : Place) {last : String} (plain : '/' ∉ last.toList) :
    memberPattern (String.intercalate "/" (above ++ [last])) =
      String.intercalate "/" (above ++ [patternEnd above last]) := by
  rw [memberPattern, Path.toList_slashed, List.map_append, List.map_singleton]
  by_cases empty : above = []
  · rw [empty, List.map_nil, List.nil_append, List.intercalate_singleton,
      Text.splitLast?_of_not_mem plain]
    simp [patternEnd]
  · have nonempty : above.map String.toList ≠ [] := by simpa using empty
    rw [Text.intercalate_concat '/' nonempty, Text.splitLast?_append plain]
    refine String.toList_injective ?_
    rw [Path.toList_slashed, patternEnd, if_neg empty, List.map_append, List.map_singleton,
      Text.intercalate_concat '/' nonempty]
    simp

/-- A pattern of names starts with an exclamation mark exactly if its first name does. -/
theorem startsWith_intercalate {top : String} (nonempty : top ≠ "") (further : List String) :
    Text.startsWith (String.intercalate "/" (top :: further)) "!" = Text.startsWith top "!" := by
  obtain ⟨rest, chars⟩ : ∃ rest, (String.intercalate "/" (top :: further)).toList =
      top.toList ++ rest := by
    rw [Path.toList_slashed, List.map_cons]
    cases further with
    | nil => exact ⟨[], by simp⟩
    | cons next further =>
        rw [List.map_cons, List.intercalate_cons_cons, List.append_assoc]
        exact ⟨_, rfl⟩
  obtain ⟨c, more, start⟩ : ∃ c more, top.toList = c :: more :=
    List.exists_cons_of_ne_nil (by simpa using nonempty)
  have mark : "!".toList = ['!'] := rfl
  rw [Text.startsWith, Text.startsWith, chars, start, mark]
  simp only [List.cons_append, Text.stripPrefix?]
  split
  · rfl
  · rfl

/-! ## The pieces of the pattern -/

theorem trimSlashes_of_last {front : List Char} {c : Char} {text : String}
    (ends : text.toList = front ++ [c]) (different : c ≠ '/') : trimSlashes text = text := by
  rw [trimSlashes, ends, List.reverse_append, List.reverse_singleton, List.singleton_append,
    List.dropWhile_cons_of_neg (by simpa using different), List.reverse_cons, List.reverse_reverse,
    ← ends]
  exact String.ofList_toList

/-- The pieces of a text made of names are the names. -/
theorem pieces_intercalate {names : List String} (nonempty : names ≠ [])
    (plain : ∀ name ∈ names, '/' ∉ name.toList) :
    (Path.ofText (String.intercalate "/" names)).pieces = names := by
  rw [Path.ofText, Path.splitOn_slashed nonempty plain, List.map_map]
  refine List.map_id'' (fun name => ?_) names
  exact String.ofList_toList

/-- Without the empty piece at its end, an absolute path is a root and the names of its place. -/
theorem openEnd_of_spells {root : Path} {place : Place} (spells : root.Spells place) :
    ∃ guide, Path.openEnd root.pieces = "" :: guide ∧ guide ⊆ root.pieces ∧ ".." ∉ guide ∧
      (guide.filter fun piece => !Path.isIdle piece) = place := by
  obtain ⟨first, rest, pieces, named⟩ := spells.pieces
  obtain ⟨guide, opened⟩ : ∃ guide, Path.openEnd root.pieces = "" :: guide := by
    rw [pieces, Path.openEnd]
    split
    · exact ⟨_, rfl⟩
    · exact ⟨_, rfl⟩
  have names : guide.filterMap Path.innerComponent? = place.map .normal := by
    rw [← named]
    have same := Path.filterMap_openEnd root.pieces
    rw [opened, pieces] at same
    rwa [List.filterMap_cons_none rfl, List.filterMap_cons_none rfl] at same
  have within : Path.openEnd root.pieces ⊆ root.pieces := by
    rw [Path.openEnd]
    split
    · exact (List.dropLast_sublist _).subset
    · exact List.Subset.refl _
  obtain ⟨level, kept⟩ := Path.pieces_of_filterMap names
  exact ⟨guide, opened, fun piece member => within (opened ▸ List.mem_cons_of_mem _ member), level,
    kept⟩

/-- A pattern of names goes on from the root with these names. -/
theorem pieces_patternPath {root : Path} {guide : List String}
    (opened : Path.openEnd root.pieces = "" :: guide) {above : Place} {piece : String}
    (isName : ∀ name ∈ above ++ [piece], IsEntryName name) :
    (patternPath root (String.intercalate "/" (above ++ [piece]))).pieces =
      "" :: (guide ++ above ++ [piece, manifestFile]) := by
  have named := isName piece (by simp)
  have pieces := pieces_intercalate (List.append_ne_nil_of_right_ne_nil above (by simp))
    fun name member => (isName name member).2
  have trimmed : trimSlashes (String.intercalate "/" (above ++ [piece])) =
      String.intercalate "/" (above ++ [piece]) := by
    obtain ⟨front, c, last⟩ : ∃ front c, piece.toList = front ++ [c] := by
      rcases List.eq_nil_or_concat piece.toList with empty | ⟨front, c, last⟩
      · exact absurd (by simpa using empty) named.1.1
      · exact ⟨front, c, by rw [last, List.concat_eq_append]⟩
    have different : c ≠ '/' := by
      rintro rfl
      exact named.2 (by simp [last])
    obtain ⟨before, chars⟩ : ∃ before,
        (String.intercalate "/" (above ++ [piece])).toList = before ++ piece.toList := by
      rw [Path.toList_slashed, List.map_append, List.map_singleton]
      by_cases empty : above = []
      · exact ⟨[], by simp [empty]⟩
      · refine ⟨['/'].intercalate (above.map String.toList) ++ ['/'], ?_⟩
        have nonempty : above.map String.toList ≠ [] := by simpa using empty
        simpa using Text.intercalate_concat '/' nonempty piece.toList
    rw [last, ← List.append_assoc] at chars
    exact trimSlashes_of_last chars different
  have relative : (Path.ofText (String.intercalate "/" (above ++ [piece]))).isAbsolute = false := by
    rw [Bool.eq_false_iff, Ne, Path.isAbsolute_iff, pieces]
    rintro ⟨first, rest, equal⟩
    have empty : "" ∈ above ++ [piece] := by simp [equal]
    exact (isName "" empty).1.1 rfl
  have joined : (root.joinText (String.intercalate "/" (above ++ [piece]))).pieces =
      "" :: guide ++ (above ++ [piece]) := by
    rw [Path.joinText, Path.join, if_neg (by simp [relative]), pieces, opened]
  have busy : ("" :: guide ++ (above ++ [piece])).getLast? ≠ some "" := by
    rw [← List.append_assoc, List.getLast?_concat]
    intro same
    exact named.1.1 (Option.some.inj same)
  rw [patternPath, trimmed, Path.pieces_joinText isEntryName_manifestFile.2, joined,
    Path.openEnd_of_busy busy]
  simp

/-! ## What the pattern finds -/

/-- The names of a member's path that its pattern repeats: all but a last one that has others above
it, for which the pattern has a star. -/
def repeatedNames (root member : Place) : Place :=
  if member.length ≤ root.length + 1 then member else member.dropLast

/-- A member whose pattern is read as it is meant. -/
structure Findable (root member : Place) : Prop where
  /-- The path of the member is shown as it is. -/
  tidy : AreTidy (member.drop root.length)
  /-- What the pattern repeats of it has no wildcards. -/
  plain : ∀ name ∈ repeatedNames root member, Glob.IsPlain name
  /-- The pattern is not negated. -/
  positive : ∀ top, (member.drop root.length).head? = some top → Text.startsWith top "!" = false
  /-- The member is not among installed packages. -/
  uninstalled : "node_modules" ∉ member

section Findable

variable {place above : Place} {last : String}

theorem Findable.plain_above (findable : Findable place (place ++ above ++ [last])) :
    ∀ name ∈ place ++ above, Glob.IsPlain name := by
  intro name member
  refine findable.plain name ?_
  rw [repeatedNames]
  split
  · exact List.mem_append_left _ member
  · rwa [List.dropLast_concat]

/-- The last piece of the pattern is the member's name or a star. -/
theorem Findable.patternEnd_cases (findable : Findable place (place ++ above ++ [last]))
    (isName : IsEntryName last) :
    Glob.IsPlain (patternEnd above last) ∧ IsEntryName (patternEnd above last) ∨
      patternEnd above last = "*" := by
  by_cases empty : above = []
  · refine .inl ?_
    rw [patternEnd, if_pos empty]
    refine ⟨findable.plain last ?_, isName⟩
    rw [repeatedNames, if_pos (by simp [empty])]
    simp
  · exact .inr (if_neg empty)

/-- Below names of its own, and only there, a member's pattern ends in a star. -/
theorem Findable.patternEnd_eq_star_iff (findable : Findable place (place ++ above ++ [last])) :
    patternEnd above last = "*" ↔ above ≠ [] := by
  rw [patternEnd]
  split
  next empty =>
    have plainLast := findable.plain last (by simp [repeatedNames, empty])
    refine ⟨?_, fun nonempty => absurd empty nonempty⟩
    rintro rfl
    exact absurd plainLast (by decide)
  next nonempty => exact ⟨fun _ => nonempty, fun _ => rfl⟩

/-- The last piece of the pattern stands for any name, or for the member's at the top. -/
theorem Findable.stands_iff (findable : Findable place (place ++ above ++ [last])) (name : String) :
    patternEnd above last = "*" ∨ name = patternEnd above last ↔ (above = [] → name = last) := by
  by_cases empty : above = []
  · have single : patternEnd above last = last := if_pos empty
    have notStar : patternEnd above last ≠ "*" := fun star =>
      findable.patternEnd_eq_star_iff.1 star empty
    rw [single] at notStar ⊢
    simp [notStar, empty]
  · simp [findable.patternEnd_eq_star_iff.2 empty, empty]

/-- The pattern is not negated. -/
theorem Findable.startsWith_memberPattern
    (findable : Findable place (place ++ above ++ [last])) (isName : ∀ name ∈ above ++ [last],
      IsEntryName name) :
    Text.startsWith (memberPattern (String.intercalate "/" (above ++ [last]))) "!" = false := by
  have positive := findable.positive
  rw [List.append_assoc, List.drop_left] at positive
  rw [memberPattern_intercalate above (isName last (by simp)).2]
  cases above with
  | nil =>
      rw [List.nil_append, startsWith_intercalate]
      · exact positive last rfl
      · exact (isName last (by simp)).1.1
  | cons top above =>
      rw [List.cons_append, startsWith_intercalate (isName top (by simp)).1.1]
      exact positive top rfl

/-- A path below a directory passes through installed packages exactly if one of its names says
so. -/
theorem inInstalledPackages_iff {path : Path} (spells : path.Spells place) :
    inInstalledPackages path = true ↔ "node_modules" ∈ place := by
  rw [inInstalledPackages, spells]
  simp

/-- The names before the last piece of the pattern lead to the directory above the member. -/
theorem Findable.guides {guide : List String}
    (findable : Findable place (place ++ above ++ [last]))
    (isName : ∀ name ∈ above ++ [last], IsEntryName name)
    (noSlash : ∀ piece ∈ guide, '/' ∉ piece.toList) (level : ".." ∉ guide)
    (names : (guide.filter fun piece => !Path.isIdle piece) = place) :
    Glob.Guides (guide ++ above) (place ++ above) := by
  have isEntryName : ∀ name ∈ above, IsEntryName name := fun name member =>
    isName name (List.mem_append_left _ member)
  have leads : ((guide ++ above).filter fun piece => !Path.isIdle piece) = place ++ above := by
    rw [List.filter_append, names, List.filter_eq_self.2]
    intro name member
    simp [(isEntryName name member).1.not_isIdle]
  refine
    { plain := fun name member => ?_
      level := ?_
      noSlash := fun name member => ?_
      leads }
  · by_cases idle : Path.isIdle name = true
    · rcases (by simpa [Path.isIdle] using idle : name = "" ∨ name = ".") with rfl | rfl
      · decide
      · decide
    · refine findable.plain_above name ?_
      rw [← leads, List.mem_filter]
      exact ⟨member, by simpa using idle⟩
  · rw [List.mem_append, not_or]
    exact ⟨level, fun up => (isEntryName _ up).1.2.2 rfl⟩
  · rcases List.mem_append.1 member with inGuide | below
    · exact noSlash name inGuide
    · exact (isEntryName name below).2

/-- The manifest of a package beside the member is among installed packages only if the package has
their name. -/
theorem Findable.notMem_manifest_iff (findable : Findable place (place ++ above ++ [last]))
    (name : String) :
    "node_modules" ∉ place ++ above ++ [name] ++ [manifestFile] ↔ name ≠ "node_modules" := by
  have outside := findable.uninstalled
  have notManifest : "node_modules" ≠ manifestFile := by decide
  simp only [List.mem_append, List.mem_singleton, not_or] at outside ⊢
  exact ⟨fun apart => Ne.symm apart.1.2,
    fun different => ⟨⟨outside.1, different.symm⟩, notManifest⟩⟩

/-- **The pattern of a member finds manifests in its own directory and in those beside it**, and no
others. -/
theorem patternManifests_of_findable {tree : FileTree} {root : Path} (spells : root.Spells place)
    (spelled : ∃ text, root = Path.ofText text)
    (findable : Findable place (place ++ above ++ [last]))
    (isName : ∀ name ∈ above ++ [last], IsEntryName name)
    (directory : tree.entryAt? (place ++ above) = some .directory)
    (entryNames : above ≠ [] → ∀ name, tree.entryAt? (place ++ above ++ [name]) ≠ none →
      IsEntryName name) :
    ∃ (parent : Path) (paths : List Path), parent.Spells (place ++ above) ∧
      patternManifests tree root (memberPattern (String.intercalate "/" (above ++ [last]))) =
        .ok paths ∧
      ∀ found, found ∈ paths ↔ ∃ name, (above = [] → name = last) ∧ name ≠ "node_modules" ∧
        tree.entryAt? (place ++ above ++ [name, manifestFile]) ≠ none ∧
        found = (parent.joinText name).joinText manifestFile := by
  obtain ⟨guide, opened, within, level, names⟩ := openEnd_of_spells spells
  have plainFile : Glob.IsPlain manifestFile := by decide
  have lastName := isName last (by simp)
  have noSlash : ∀ piece ∈ guide, '/' ∉ piece.toList := by
    obtain ⟨text, rfl⟩ := spelled
    exact fun piece member => Path.not_mem_of_mem_ofText (within member)
  have endName : ∀ name ∈ above ++ [patternEnd above last], IsEntryName name := by
    intro name member
    rcases List.mem_append.1 member with before | same
    · exact isName name (List.mem_append_left _ before)
    · rw [List.mem_singleton.1 same, patternEnd]
      split
      · exact lastName
      · decide
  obtain ⟨parent, paths, spelledParent, expanded, mem_paths⟩ := Glob.mem_expand
    (pieces_patternPath opened endName) (findable.guides isName noSlash level names)
    (findable.patternEnd_cases lastName) isEntryName_manifestFile plainFile directory
    (fun star => entryNames (findable.patternEnd_eq_star_iff.1 star))
  have spellsFound : ∀ {name}, (above = [] → name = last) →
      tree.entryAt? (place ++ above ++ [name, manifestFile]) ≠ none →
        ((parent.joinText name).joinText manifestFile).Spells
          (place ++ above ++ [name] ++ [manifestFile]) := by
    intro name given there
    have isEntryName : IsEntryName name := by
      by_cases empty : above = []
      · rw [given empty]
        exact lastName
      · rw [List.append_cons] at there
        refine entryNames empty name ?_
        rw [FileTree.entryAt?_above there]
        exact Option.some_ne_none _
    exact (spelledParent.joinText isEntryName.1 isEntryName.2).manifest
  refine ⟨parent, paths.filter fun path => !inInstalledPackages path, spelledParent, ?_,
    fun found => ?_⟩
  · rw [patternManifests, findable.startsWith_memberPattern isName,
      memberPattern_intercalate above lastName.2, if_neg Bool.false_ne_true, ← patternPath,
      expanded]
  · rw [List.mem_filter, mem_paths]
    constructor
    · rintro ⟨⟨name, stands, there, rfl⟩, outside⟩
      have given := (findable.stands_iff name).1 stands
      refine ⟨name, given, ?_, there, rfl⟩
      rw [← findable.notMem_manifest_iff, ← inInstalledPackages_iff (spellsFound given there)]
      simpa using outside
    · rintro ⟨name, given, different, there, rfl⟩
      refine ⟨⟨name, (findable.stands_iff name).2 given, there, rfl⟩, ?_⟩
      rw [← findable.notMem_manifest_iff,
        ← inInstalledPackages_iff (spellsFound given there)] at different
      simpa using different

end Findable

end Uplift.Workspace
