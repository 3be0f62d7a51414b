import Uplift.Proofs.FileTree.Operations
import Uplift.Proofs.Path.Spelling

/-!
# Making, moving and removing whole subtrees

A path that spells a place leads to that place or nowhere (`locate_of_spells`,
`locateNew_of_spells`).  What an operation on such paths does, if it succeeds, is said by the view
of the tree: making a directory adds one place (`madeDirectory_of_makeDirectory`), moving takes
everything at and below a place to another (`moved_of_rename`), removing empties a place and
everything below it (`removed_of_removeAll`), and only an empty directory is removed as a directory
(`removed_of_removeDirectory`).
-/

set_option autoImplicit false

namespace Uplift.FileTree

/-! ## Paths that spell places -/

/-- What following leads to is there. -/
theorem entryAt?_of_follow {tree : FileTree} {place reached : Place} {pieces : List String}
    (start : tree.entryAt? place ≠ none) (followed : tree.follow place pieces = .ok reached) :
    tree.entryAt? reached ≠ none := by
  induction pieces generalizing place with
  | nil =>
      cases followed
      exact start
  | cons piece rest ih =>
      obtain ⟨next, step, later⟩ := Results.bind_eq_ok_iff.1 followed
      obtain ⟨directory, leads⟩ := leadsTo_of_followPiece step
      refine ih ?_ later
      cases leads with
      | stay _ => exact start
      | up =>
          rw [entryAt?_dropLast directory]
          exact Option.some_ne_none _
      | down _ there => exact there

/-- Without double dots, following leads to the names among the pieces. -/
theorem eq_of_follow {tree : FileTree} {place reached : Place} {pieces : List String}
    (flat : ".." ∉ pieces) (followed : tree.follow place pieces = .ok reached) :
    reached = place ++ pieces.filter fun piece => !Path.isIdle piece := by
  induction pieces generalizing place with
  | nil =>
      cases followed
      simp
  | cons piece rest ih =>
      obtain ⟨next, step, later⟩ := Results.bind_eq_ok_iff.1 followed
      have further := ih (fun member => flat (List.mem_cons_of_mem _ member)) later
      obtain ⟨_, leads⟩ := leadsTo_of_followPiece step
      cases leads with
      | stay idle => simpa [idle] using further
      | up => exact absurd List.mem_cons_self flat
      | down isName _ => simpa [isName.not_isIdle] using further

theorem follow_of_directory {tree : FileTree} {place : Place} {pieces : List String}
    (flat : ".." ∉ pieces)
    (directory : tree.entryAt? (place ++ pieces.filter fun piece => !Path.isIdle piece) =
      some .directory) :
    tree.follow place pieces =
      .ok (place ++ pieces.filter fun piece => !Path.isIdle piece) := by
  induction pieces generalizing place with
  | nil => simp [follow]
  | cons piece rest ih =>
      have flatRest : ".." ∉ rest := fun member => flat (List.mem_cons_of_mem _ member)
      have there : tree.entryAt? (place ++ (piece :: rest).filter
          fun piece => !Path.isIdle piece) ≠ none := by
        rw [directory]
        exact Option.some_ne_none _
      obtain ⟨idle, _⟩ | ⟨rfl, _⟩ | ⟨isName, _⟩ := Path.innerComponent?_cases piece
      · have skip : (piece :: rest).filter (fun piece => !Path.isIdle piece) =
            rest.filter fun piece => !Path.isIdle piece := by simp [idle]
        rw [skip] at directory there ⊢
        have here : tree.entryAt? place = some .directory := by
          cases equal : rest.filter fun piece => !Path.isIdle piece with
          | nil => simpa [equal] using directory
          | cons name more =>
              rw [equal] at there
              exact entryAt?_above there
        rw [follow, followPiece_of_leadsTo here (.stay idle), Results.ok_bind,
          ih flatRest directory]
      · exact absurd List.mem_cons_self flat
      · have split : place ++ (piece :: rest).filter (fun piece => !Path.isIdle piece) =
            place ++ [piece] ++ rest.filter fun piece => !Path.isIdle piece := by
          simp [isName.not_isIdle]
        rw [split] at directory ⊢
        have here : tree.entryAt? place = some .directory := by
          rw [split, List.append_assoc] at there
          exact entryAt?_above there
        have next : tree.entryAt? (place ++ [piece]) ≠ none := by
          cases equal : rest.filter fun piece => !Path.isIdle piece with
          | nil =>
              rw [equal, List.append_nil] at directory
              rw [directory]
              exact Option.some_ne_none _
          | cons name more =>
              rw [split, equal] at there
              rw [entryAt?_above there]
              exact Option.some_ne_none _
        rw [follow, followPiece_of_leadsTo here (.down isName next), Results.ok_bind,
          ih flatRest directory]

/-- A list is what is left of it without the empty pieces at its end, and those. -/
theorem split_named (pieces : List String) :
    ∃ rest, pieces = (pieces.reverse.dropWhile (· = "")).reverse ++ rest ∧
      ∀ piece ∈ rest, piece = "" := by
  refine ⟨(pieces.reverse.takeWhile (· = "")).reverse, ?_, fun piece member => ?_⟩
  · rw [← List.reverse_append, List.takeWhile_append_dropWhile, List.reverse_reverse]
  · have empty := List.all_eq_true.1 List.all_takeWhile piece (List.mem_reverse.1 member)
    simpa using empty

/-- A list without the empty pieces at its end: what is left ends in a piece that is not empty, and
has the same names. -/
theorem named_pieces (pieces : List String) :
    (∀ last, ((pieces.reverse.dropWhile (· = "")).reverse).getLast? = some last → last ≠ "") ∧
      (".." ∉ pieces → ".." ∉ (pieces.reverse.dropWhile (· = "")).reverse) ∧
      ((pieces.reverse.dropWhile (· = "")).reverse).filter (fun piece => !Path.isIdle piece) =
        pieces.filter fun piece => !Path.isIdle piece := by
  obtain ⟨rest, split, empty⟩ := split_named pieces
  refine ⟨fun last ends => ?_, fun flat member => ?_, ?_⟩
  · rw [List.getLast?_reverse] at ends
    have stops := List.head?_dropWhile_not (fun piece : String => decide (piece = ""))
      pieces.reverse
    rw [ends] at stops
    simpa using stops
  · rw [split] at flat
    exact flat (List.mem_append_left _ member)
  · have none : rest.filter (fun piece => !Path.isIdle piece) = [] := by
      rw [List.filter_eq_nil_iff]
      intro piece member
      rw [empty piece member]
      decide
    conv => rhs; rw [split, List.filter_append, none, List.append_nil]

section Spelled

variable {tree : FileTree} {path : Path} {place : Place}

/-- The pieces of a path that spells a place: no double dot, and the names of the place. -/
theorem pieces_of_spells (spells : path.Spells place) :
    ".." ∉ path.pieces ∧ path.pieces.filter (fun piece => !Path.isIdle piece) = place := by
  obtain ⟨first, rest, pieces, spelled⟩ := spells.pieces
  obtain ⟨flat, names⟩ := Path.pieces_of_filterMap spelled
  rw [pieces]
  refine ⟨?_, by rwa [List.filter_cons_of_neg (by simp [Path.isIdle])]⟩
  rw [List.mem_cons, not_or]
  exact ⟨by decide, flat⟩

theorem locate_of_spells (spells : path.Spells place) {reached : Place}
    (located : tree.locate path = .ok reached) : reached = place := by
  obtain ⟨flat, names⟩ := pieces_of_spells spells
  rw [locate] at located
  split at located
  · cases located
  · cases located
  · rw [eq_of_follow flat located, List.nil_append, names]

/-- A path that spells the place of a directory leads there. -/
theorem locate_of_directory (spells : path.Spells place)
    (directory : tree.entryAt? place = some .directory) : tree.locate path = .ok place := by
  obtain ⟨flat, names⟩ := pieces_of_spells spells
  obtain ⟨first, rest, pieces, _⟩ := spells.pieces
  have there : tree.entryAt? ([] ++ path.pieces.filter fun piece => !Path.isIdle piece) =
      some .directory := by
    rwa [List.nil_append, names]
  have followed := follow_of_directory flat there
  rw [List.nil_append, names] at followed
  rw [locate]
  split
  next none =>
    rw [pieces] at none
    cases none
  next single =>
    rw [pieces] at single
    cases single
  next => exact followed

theorem entryAt?_of_locate {reached : Place} (located : tree.locate path = .ok reached) :
    tree.entryAt? reached ≠ none := by
  have top : tree.entryAt? [] ≠ none := by simp [entryAt?, get?]
  rw [locate] at located
  split at located
  · cases located
  · cases located
  · exact entryAt?_of_follow top located

theorem locateNew_of_spells (spells : path.Spells place) {reached : Place}
    (located : tree.locateNew path = .ok reached) : reached = place := by
  obtain ⟨flat, names⟩ := pieces_of_spells spells
  obtain ⟨named, flatNamed, namesNamed⟩ := named_pieces path.pieces
  rw [names] at namesNamed
  have flatNamed := flatNamed flat
  rw [locateNew] at located
  generalize (path.pieces.reverse.dropWhile (· = "")).reverse = pieces
    at located named flatNamed namesNamed
  split at located
  next none =>
    rw [List.getLast?_eq_none_iff.1 none, List.filter_nil] at namesNamed
    split at located
    · cases located
    · cases located
      exact namesNamed
  next last ends =>
    obtain ⟨above, rfl⟩ := List.getLast?_eq_some_iff.1 ends
    split at located
    next => rw [eq_of_follow flatNamed located, List.nil_append, namesNamed]
    next dots =>
      obtain ⟨dir, followed, equal⟩ := Results.bind_eq_ok_iff.1 located
      cases equal
      rw [List.dropLast_concat] at followed
      have flatAbove : ".." ∉ above := fun member => flatNamed (List.mem_append_left _ member)
      have busy : Path.isIdle last = false := by
        simp [Path.isIdle, named last ends, (not_or.1 dots).1]
      rw [eq_of_follow flatAbove (follow_directory.1 followed).1, ← namesNamed,
        List.filter_append, List.nil_append]
      simp [busy]

/-- Where something new may be put, the directory for it is there. -/
theorem directory_of_locateNew {dir : Place} {name : String}
    (located : tree.locateNew path = .ok (dir ++ [name])) :
    tree.entryAt? dir = some .directory := by
  have top : tree.entryAt? [] ≠ none := by simp [entryAt?, get?]
  rw [locateNew] at located
  split at located
  next =>
    split at located
    · cases located
    · simp at located
  next last ends =>
    split at located
    next => exact entryAt?_above (entryAt?_of_follow top located)
    next =>
      obtain ⟨reached, followed, equal⟩ := Results.bind_eq_ok_iff.1 located
      have same : reached ++ [last] = dir ++ [name] := by simpa using equal
      obtain ⟨rfl, _⟩ := List.append_inj' same rfl
      exact (follow_directory.1 followed).2

theorem follow_idle_self {idle : List String} (all : ∀ piece ∈ idle, Path.isIdle piece = true)
    {dir : Place} (directory : tree.entryAt? dir = some .directory) :
    tree.follow dir idle = .ok dir := by
  induction idle with
  | nil => rfl
  | cons piece idle ih =>
      have here : tree.followPiece dir piece = .ok dir :=
        followPiece_of_leadsTo directory (.stay (all piece List.mem_cons_self))
      rw [follow, here, Results.ok_bind]
      exact ih fun other member => all other (List.mem_cons_of_mem _ member)

/-- A path leads to the directory at the place where it would put something new. -/
theorem locate_of_locateNew (located : tree.locateNew path = .ok place)
    (directory : tree.entryAt? place = some .directory) : tree.locate path = .ok place := by
  obtain ⟨rest, split, empty⟩ := split_named path.pieces
  have idle : ∀ piece ∈ rest, Path.isIdle piece = true := by
    intro piece member
    rw [empty piece member]
    rfl
  have followed : tree.follow [] path.pieces = .ok place := by
    have named := (named_pieces path.pieces).1
    rw [locateNew] at located
    rw [split, follow_append]
    generalize (path.pieces.reverse.dropWhile (· = "")).reverse = pieces at located named ⊢
    split at located
    next none =>
      split at located
      · cases located
      · cases located
        rw [List.getLast?_eq_none_iff.1 none]
        exact follow_idle_self idle directory
    next last ends =>
      obtain ⟨above, rfl⟩ := List.getLast?_eq_some_iff.1 ends
      split at located
      next =>
        rw [located]
        exact follow_idle_self idle directory
      next dots =>
        obtain ⟨dir, reached, equal⟩ := Results.bind_eq_ok_iff.1 located
        cases equal
        rw [List.dropLast_concat] at reached
        obtain ⟨reached, parent⟩ := follow_directory.1 reached
        have isName : IsName last := ⟨named last ends, fun dot => dots (.inl dot),
          fun dotdot => dots (.inr dotdot)⟩
        have down : tree.followPiece dir last = .ok (dir ++ [last]) :=
          followPiece_of_leadsTo parent (.down isName (by simp [directory]))
        rw [follow_append, reached]
        change (tree.follow dir [last]).bind _ = _
        rw [follow_singleton, down]
        exact follow_idle_self idle directory
  rw [locate.eq_def]
  split
  next none => simp [locateNew, none] at located
  next single => simp [locateNew, single] at located
  next => exact followed

/-- While directories stay, a path keeps leading where it leads if something is there. -/
theorem locate_of_directoriesStay {later : FileTree} (stay : DirectoriesStay tree later)
    (located : tree.locate path = .ok place) (there : later.entryAt? place ≠ none) :
    later.locate path = .ok place := by
  rw [locate.eq_def] at *
  split at located
  · cases located
  · cases located
  · exact follow_of_directoriesStay stay located there

/-- While directories stay, a path keeps leading to the same place for something new. -/
theorem locateNew_of_directoriesStay {later : FileTree} (stay : DirectoriesStay tree later)
    (located : tree.locateNew path = .ok place)
    (kept : tree.entryAt? place ≠ none → later.entryAt? place ≠ none) :
    later.locateNew path = .ok place := by
  have top : tree.entryAt? [] ≠ none := by simp [entryAt?, get?]
  rw [locateNew] at *
  split at located
  next => exact located
  next last ends =>
    split at located
    next dots =>
      rw [if_pos dots]
      exact follow_of_directoriesStay stay located (kept (entryAt?_of_follow top located))
    next dots =>
      obtain ⟨dir, followed, equal⟩ := Results.bind_eq_ok_iff.1 located
      have directory := stay dir (follow_directory.1 followed).2
      rw [if_neg dots, follow_of_directoriesStay stay followed (by simp [directory])]
      exact equal

/-- A path that spells a name in a directory, and ends in it, lands there. -/
theorem lands_of_spells {dir : Place} {name : String} (spells : path.Spells (dir ++ [name]))
    (ends : path.pieces.getLast? = some name) (directory : tree.entryAt? dir = some .directory) :
    Lands tree path dir name := by
  obtain ⟨flat, names⟩ := pieces_of_spells spells
  have isName : IsName name := spells.isName (by simp)
  obtain ⟨above, split⟩ := List.getLast?_eq_some_iff.1 ends
  rw [split] at flat names
  have flatAbove : ".." ∉ above := fun member => flat (List.mem_append_left _ member)
  have namesAbove : above.filter (fun piece => !Path.isIdle piece) = dir := by
    rw [List.filter_append] at names
    simpa [isName.not_isIdle] using names
  have there : tree.entryAt? ([] ++ above.filter fun piece => !Path.isIdle piece) =
      some .directory := by
    rwa [List.nil_append, namesAbove]
  have followed := follow_of_directory flatAbove there
  rw [List.nil_append, namesAbove] at followed
  exact ⟨isName, above, split, follow_directory.2 ⟨followed, directory⟩⟩

end Spelled

/-! ## Changing subtrees -/

theorem entryAt?_append (tree : FileTree) (first second : Place) :
    tree.entryAt? (first ++ second) =
      (tree.get? first).bind fun found => found.entryAt? second := by
  rw [entryAt?, get?_append]
  cases tree.get? first <;> rfl

/-- Above a directory there are directories. -/
theorem directory_of_prefix {tree : FileTree} {above place : Place} (leads : above <+: place)
    (directory : tree.entryAt? place = some .directory) :
    tree.entryAt? above = some .directory := by
  obtain ⟨rest, rfl⟩ := leads
  cases rest with
  | nil => rwa [List.append_nil] at directory
  | cons name rest =>
      have there : tree.entryAt? (above ++ name :: rest) ≠ none := by
        rw [directory]
        exact Option.some_ne_none _
      exact entryAt?_above there

/-- A subtree that is put somewhere is found there. -/
theorem entryAt?_set {tree : FileTree} {dir : Place} (parent : tree.entryAt? dir = some .directory)
    (name : String) (content : FileTree) (rest : Place) :
    (tree.set (dir ++ [name]) content).entryAt? (dir ++ [name] ++ rest) =
      content.entryAt? rest := by
  obtain ⟨entries, found⟩ := (entryAt?_eq_directory_iff tree dir).1 parent
  rw [List.append_assoc, List.singleton_append, entryAt?, FileTree.set, get?_alter _ found]
  rfl

theorem entryAt?_erase {tree : FileTree} {dir : Place}
    (parent : tree.entryAt? dir = some .directory) (name : String) (rest : Place) :
    (tree.erase (dir ++ [name])).entryAt? (dir ++ [name] ++ rest) = none := by
  obtain ⟨entries, found⟩ := (entryAt?_eq_directory_iff tree dir).1 parent
  rw [List.append_assoc, List.singleton_append, entryAt?, FileTree.erase, get?_alter _ found]
  rfl

/-- A directory without entries has nothing below it. -/
theorem get?_eq_emptyDirectory_iff (tree : FileTree) (place : Place) :
    tree.get? place = some (.directory []) ↔
      tree.entryAt? place = some .directory ∧ ∀ name, tree.entryAt? (place ++ [name]) = none := by
  rw [entryAt?_eq_directory_iff]
  constructor
  · intro found
    refine ⟨⟨[], found⟩, fun name => ?_⟩
    rw [entryAt?_eq_none_iff, get?_concat found]
    rfl
  · rintro ⟨⟨entries, found⟩, empty⟩
    cases entries with
    | nil => exact found
    | cons entry rest =>
        have absent := empty entry.1
        rw [entryAt?_eq_none_iff, get?_concat found] at absent
        simp [Entries.get?] at absent

/-- A tree with one directory more. -/
structure MadeDirectory (tree : FileTree) (place : Place) (later : FileTree) : Prop where
  absent : tree.entryAt? place = none
  view : later.entryAt? = Function.update tree.entryAt? place (some .directory)

/-- A tree with everything at and below a place taken to another. -/
structure Moved (tree : FileTree) (old new : Place) (later : FileTree) : Prop where
  arrived : ∀ rest, later.entryAt? (new ++ rest) = tree.entryAt? (old ++ rest)
  gone : ∀ rest, later.entryAt? (old ++ rest) = none
  elsewhere : ∀ place, ¬ old <+: place → ¬ new <+: place →
    later.entryAt? place = tree.entryAt? place

/-- A tree without anything at and below a place. -/
structure Removed (tree : FileTree) (place : Place) (later : FileTree) : Prop where
  gone : ∀ rest, later.entryAt? (place ++ rest) = none
  elsewhere : ∀ other, ¬ place <+: other → later.entryAt? other = tree.entryAt? other

section Operations

variable {tree later : FileTree} {path : Path} {place : Place}

/-- A directory is made where its path leads, in a directory that is there. -/
theorem located_of_makeDirectory (done : tree.makeDirectory path = .ok later) :
    ∃ place, tree.locateNew path = .ok place ∧ MadeDirectory tree place later := by
  obtain ⟨place, located, made⟩ := Results.bind_eq_ok_iff.1 done
  refine ⟨place, located, ?_⟩
  split at made
  · cases made
  next absent =>
    cases made
    have none : tree.entryAt? place = none := (entryAt?_eq_none_iff _ _).2 absent
    rcases List.eq_nil_or_concat place with rfl | ⟨dir, name, rfl⟩
    · simp [get?] at absent
    · rw [List.concat_eq_append] at located none ⊢
      have parent := directory_of_locateNew located
      refine ⟨none, ?_⟩
      funext other
      by_cases below : dir ++ [name] <+: other
      · obtain ⟨rest, rfl⟩ := below
        rw [entryAt?_set parent]
        cases rest with
        | nil => simp [emptyDirectory, entryAt?, get?, entry]
        | cons next rest =>
            rw [Function.update_of_ne (by simp), entryAt?_below (by simp [none])]
            rfl
      · have apart : other ≠ dir ++ [name] := fun same => below (same ▸ List.prefix_rfl)
        rw [Function.update_of_ne apart]
        exact entryAt?_alter_of_not_prefix _ below tree

theorem madeDirectory_of_makeDirectory (spells : path.Spells place)
    (done : tree.makeDirectory path = .ok later) : MadeDirectory tree place later := by
  obtain ⟨reached, located, made⟩ := located_of_makeDirectory done
  rwa [← locateNew_of_spells spells located]

theorem MadeDirectory.directoriesStay (made : MadeDirectory tree place later) :
    DirectoriesStay tree later := by
  intro other directory
  rw [made.view]
  by_cases same : other = place
  · rw [same, Function.update_self]
  · rwa [Function.update_of_ne same]

/-- **Moving something takes its whole subtree along.** -/
theorem moved_of_rename {source target : Path} {old new : Place} (spells : source.Spells old)
    (spelled : target.Spells new) (apart : ¬ old <+: new) (apart' : ¬ new <+: old)
    (done : tree.rename source target = .ok later) :
    tree.entryAt? old ≠ none ∧ Moved tree old new later := by
  obtain ⟨reached, located, rest⟩ := Results.bind_eq_ok_iff.1 done
  obtain ⟨goal, locatedNew, moving⟩ := Results.bind_eq_ok_iff.1 rest
  have same := locate_of_spells spells located
  have sameNew := locateNew_of_spells spelled locatedNew
  subst same sameNew
  have there := entryAt?_of_locate located
  refine ⟨there, ?_⟩
  split at moving
  · cases moving
  next moved found =>
    have distinct : reached ≠ goal := fun same => apart (same ▸ List.prefix_rfl)
    have notAbove : ¬ reached.isPrefixOf goal = true := by rwa [List.isPrefixOf_iff_prefix]
    rw [if_neg distinct, if_neg notAbove] at moving
    split at moving
    · cases moving
    split at moving
    · cases moving
    obtain ⟨_, _, equal⟩ := Results.bind_eq_ok_iff.1 moving
    cases equal
    rcases List.eq_nil_or_concat reached with rfl | ⟨oldDir, oldName, rfl⟩
    · exact absurd List.nil_prefix apart
    rcases List.eq_nil_or_concat goal with rfl | ⟨newDir, newName, rfl⟩
    · exact absurd List.nil_prefix apart'
    rw [List.concat_eq_append, List.concat_eq_append] at *
    have oldParent := entryAt?_above there
    have parent : (tree.erase (oldDir ++ [oldName])).entryAt? newDir = some .directory := by
      rw [FileTree.erase, entryAt?_alter_of_not_prefix]
      · exact directory_of_locateNew locatedNew
      · exact fun above => apart (above.trans (List.prefix_append _ _))
    refine ⟨fun rest => ?_, fun rest => ?_, fun other notOld notNew => ?_⟩
    · rw [entryAt?_set parent, entryAt?_append, found]
      rfl
    · rw [FileTree.set, entryAt?_alter_of_not_prefix, entryAt?_erase oldParent]
      intro below
      rcases List.prefix_or_prefix_of_prefix below (List.prefix_append _ _) with one | other
      · exact apart' one
      · exact apart other
    · rw [FileTree.set, entryAt?_alter_of_not_prefix _ notNew, FileTree.erase,
        entryAt?_alter_of_not_prefix _ notOld]

theorem removed_erase {dir : Place} {name : String}
    (parent : tree.entryAt? dir = some .directory) :
    Removed tree (dir ++ [name]) (tree.erase (dir ++ [name])) :=
  ⟨entryAt?_erase parent name, fun _ apart => entryAt?_alter_of_not_prefix _ apart tree⟩

/-- Removing something below the top removes it with all that is below it. -/
theorem removed_of_there (inside : place ≠ []) (there : tree.entryAt? place ≠ none) :
    Removed tree place (tree.erase place) := by
  rcases List.eq_nil_or_concat place with rfl | ⟨dir, name, rfl⟩
  · exact absurd rfl inside
  · rw [List.concat_eq_append] at there ⊢
    exact removed_erase (entryAt?_above there)

theorem removed_of_removeAll (spells : path.Spells place) (inside : place ≠ [])
    (done : tree.removeAll path = .ok later) : Removed tree place later := by
  obtain ⟨reached, located, equal⟩ := Results.bind_eq_ok_iff.1 done
  cases equal
  have same := locate_of_spells spells located
  subst same
  exact removed_of_there inside (entryAt?_of_locate located)

/-- Only an empty directory is removed as a directory. -/
theorem removed_of_removeDirectory (spells : path.Spells place) (inside : place ≠ [])
    (done : tree.removeDirectory path = .ok later) :
    tree.get? place = some (.directory []) ∧ Removed tree place later := by
  obtain ⟨reached, located, rest⟩ := Results.bind_eq_ok_iff.1 done
  have same := locate_of_spells spells located
  subst same
  split at rest
  next found =>
    cases rest
    exact ⟨found, removed_of_there inside (entryAt?_of_locate located)⟩
  next => cases rest
  next => cases rest

/-- Nothing is below a place in which there is nothing. -/
theorem entryAt?_below_empty (empty : ∀ name, tree.entryAt? (place ++ [name]) = none)
    (name : String) (rest : Place) : tree.entryAt? (place ++ name :: rest) = none := by
  cases rest with
  | nil => exact empty name
  | cons next rest =>
      rw [List.append_cons]
      refine entryAt?_below ?_ next rest
      simp [empty name]

/-- Removing a place in which there is nothing changes the view there and nowhere else. -/
theorem Removed.view_of_empty (removed : Removed tree place later)
    (empty : ∀ name, tree.entryAt? (place ++ [name]) = none) :
    later.entryAt? = Function.update tree.entryAt? place none := by
  funext other
  by_cases below : place <+: other
  · obtain ⟨rest, rfl⟩ := below
    rw [removed.gone]
    cases rest with
    | nil => rw [List.append_nil, Function.update_self]
    | cons name rest => rw [Function.update_of_ne (by simp), entryAt?_below_empty empty]
  · have apart : other ≠ place := fun same => below (same ▸ List.prefix_rfl)
    rw [removed.elsewhere other below, Function.update_of_ne apart]

/-- Where there is an empty directory or nothing, the two ways of removing are the same. -/
theorem removeDirectory_eq_removeAll (spells : path.Spells place)
    (noFile : tree.entryAt? place = some .directory ∨ tree.entryAt? place = none)
    (empty : ∀ name, tree.entryAt? (place ++ [name]) = none) :
    tree.removeDirectory path = tree.removeAll path := by
  rw [removeDirectory, removeAll]
  cases located : tree.locate path with
  | error cause => rfl
  | ok reached =>
      have same := locate_of_spells spells located
      subst same
      have directory := noFile.resolve_right (entryAt?_of_locate located)
      have found := (get?_eq_emptyDirectory_iff tree reached).2 ⟨directory, empty⟩
      rw [Results.ok_bind, Results.ok_bind, found]

/-- Putting a file at the top of a tree that is no directory. -/
theorem entryAt?_set_top (flat : tree.entryAt? [] ≠ some .directory) (content : ByteArray)
    (executable : Bool) :
    (tree.set [] (.file content executable)).entryAt? =
      Function.update tree.entryAt? [] (some (.file content executable)) := by
  cases tree with
  | directory entries => exact absurd rfl flat
  | file old mode =>
      funext other
      cases other with
      | nil => rfl
      | cons name rest => rw [Function.update_of_ne (List.cons_ne_nil _ _)]; rfl

/-- A file is written where its path leads, where no directory is. -/
theorem located_of_writeBytes {content : ByteArray}
    (done : tree.writeBytes path content = .ok later) :
    ∃ place executable, tree.locateNew path = .ok place ∧
      Updated tree place (some (.file content executable)) later ∧
      (tree.entryAt? place = none → executable = false) := by
  obtain ⟨place, located, rest⟩ := Results.bind_eq_ok_iff.1 done
  have written : ∀ executable, tree.entryAt? place ≠ some .directory →
      Updated tree place (some (.file content executable))
        (tree.set place (.file content executable)) := by
    intro executable flat
    refine ⟨flat, by simp, ?_⟩
    rcases List.eq_nil_or_concat place with rfl | ⟨dir, name, rfl⟩
    · exact entryAt?_set_top flat content executable
    · rw [List.concat_eq_append] at *
      exact entryAt?_set_file (directory_of_locateNew located) flat content executable
  split at rest
  next => cases rest
  split at rest
  next => cases rest
  next old executable found =>
    cases rest
    have file := (entryAt?_eq_file_iff _ _ _ _).2 found
    refine ⟨place, executable, located, written executable (by simp [file]), fun absent => ?_⟩
    rw [file] at absent
    cases absent
  next absent =>
    cases rest
    have none := (entryAt?_eq_none_iff _ _).2 absent
    exact ⟨place, false, located, written false (by simp [none]), fun _ => rfl⟩

/-- Writing puts a file where no directory is. -/
theorem updated_of_writeBytes (spells : path.Spells place) {content : ByteArray}
    (done : tree.writeBytes path content = .ok later) :
    ∃ executable, Updated tree place (some (.file content executable)) later ∧
      (tree.entryAt? place = none → executable = false) := by
  obtain ⟨reached, executable, located, updated⟩ := located_of_writeBytes done
  rw [locateNew_of_spells spells located] at updated
  exact ⟨executable, updated⟩

/-- What a path leads to is at the place it spells. -/
theorem get?_of_find (spells : path.Spells place) {found : FileTree}
    (finding : tree.find path = .ok found) : tree.get? place = some found := by
  obtain ⟨reached, located, here⟩ := Results.bind_eq_ok_iff.1 finding
  cases locate_of_spells spells located
  split at here
  next there get =>
    cases here
    exact get
  next => cases here

theorem directory_of_hasDirectory (spells : path.Spells place)
    (held : tree.hasDirectory path = true) : tree.entryAt? place = some .directory := by
  rw [hasDirectory] at held
  split at held
  next found finding =>
    have get := get?_of_find spells finding
    cases found with
    | file content executable => cases held
    | directory entries => exact (entryAt?_eq_directory_iff _ _).2 ⟨entries, get⟩
  next => cases held

/-- What a path leads to is there; what ends in a name that is there is found. -/
theorem find_iff_of_spells {dir : Place} {name : String} (spells : path.Spells (dir ++ [name]))
    (ends : path.pieces.getLast? = some name) {found : FileTree} :
    tree.find path = .ok found ↔ tree.get? (dir ++ [name]) = some found := by
  constructor
  · exact get?_of_find spells
  · intro get
    have there : tree.entryAt? (dir ++ [name]) ≠ none := by
      rw [ne_eq, entryAt?_eq_none_iff, get]
      exact Option.some_ne_none _
    exact (lands_of_spells spells ends (entryAt?_above there)).find get

/-- A text is read from a file that holds it. -/
theorem readText_iff_of_spells {dir : Place} {name : String} (spells : path.Spells (dir ++ [name]))
    (ends : path.pieces.getLast? = some name) {text : String} :
    tree.readText path = .ok text ↔ ∃ content executable,
      tree.entryAt? (dir ++ [name]) = some (.file content executable) ∧
      Text.decode? content = some text := by
  constructor
  · intro read
    obtain ⟨content, bytes, decoded⟩ := Results.bind_eq_ok_iff.1 read
    obtain ⟨found, finding, isFile⟩ := Results.bind_eq_ok_iff.1 bytes
    have get := (find_iff_of_spells spells ends).1 finding
    split at isFile
    next content' executable =>
      cases isFile
      split at decoded
      next text' decoding =>
        cases decoded
        exact ⟨content, executable, (entryAt?_eq_file_iff _ _ _ _).2 get, decoding⟩
      next => cases decoded
    next => cases isFile
  · rintro ⟨content, executable, file, decoded⟩
    have finding := (find_iff_of_spells spells ends).2 ((entryAt?_eq_file_iff _ _ _ _).1 file)
    rw [readText, readBytes, finding]
    simp only [Results.ok_bind, decoded]

/-- What a path does not lead to is not there. -/
theorem entryAt?_of_not_has {dir : Place} {name : String} (spells : path.Spells (dir ++ [name]))
    (ends : path.pieces.getLast? = some name) (absent : tree.has path = false) :
    tree.entryAt? (dir ++ [name]) = none := by
  rw [entryAt?_eq_none_iff]
  cases found : tree.get? (dir ++ [name]) with
  | none => rfl
  | some here =>
      rw [has, (find_iff_of_spells spells ends).2 found] at absent
      cases absent

end Operations

end Uplift.FileTree
