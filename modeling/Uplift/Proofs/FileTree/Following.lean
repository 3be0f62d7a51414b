import Uplift.Proofs.FileTree.View
import Uplift.Proofs.Path.FileName
import Uplift.Proofs.Results

/-!
# Where paths lead

Following a path looks only at which places are directories, and at whether the place it ends at
holds something.  A path that leads somewhere therefore leads to the same place in every tree with
the same directories in which something is there (`follow_of_sameDirectories`).  Trees that hold the
same at every place give the same texts (`readText_congr`).

A path *lands* in a directory under a name if everything before its last piece leads to that
directory and the last piece is the name (`Lands`).  Every path to a file lands, and a path that
lands keeps landing there while directories stay, whatever becomes of the files.  Replacing the
last name of a path keeps the directory it lands in (`Lands.withFileName`).
-/

set_option autoImplicit false

namespace Uplift

namespace FileTree

/-- Trees with directories at the same places. -/
def SameDirectories (first second : FileTree) : Prop :=
  ∀ place, first.entryAt? place = some .directory ↔ second.entryAt? place = some .directory

/-- A tree whose directories are directories of another. -/
def DirectoriesStay (first second : FileTree) : Prop :=
  ∀ place, first.entryAt? place = some .directory → second.entryAt? place = some .directory

theorem DirectoriesStay.trans {first second third : FileTree} (early : DirectoriesStay first second)
    (late : DirectoriesStay second third) : DirectoriesStay first third :=
  fun place directory => late place (early place directory)

/-- Above a directory there is a directory, or it is the top. -/
theorem entryAt?_dropLast {tree : FileTree} {place : Place}
    (directory : tree.entryAt? place = some .directory) :
    tree.entryAt? place.dropLast = some .directory := by
  rcases List.eq_nil_or_concat place with rfl | ⟨above, name, rfl⟩
  · exact directory
  · rw [List.concat_eq_append, List.dropLast_concat]
    have there : tree.entryAt? (above ++ [name]) ≠ none := by
      rw [← List.concat_eq_append, directory]
      exact Option.some_ne_none _
    exact entryAt?_above there

/-- Where a piece leads from a directory. -/
inductive LeadsTo (tree : FileTree) (place : Place) : String → Place → Prop where
  | stay {piece : String} : Path.isIdle piece = true → LeadsTo tree place piece place
  | up : LeadsTo tree place ".." place.dropLast
  | down {piece : String} : IsName piece → tree.entryAt? (place ++ [piece]) ≠ none →
      LeadsTo tree place piece (place ++ [piece])

theorem LeadsTo.eq_of_isIdle {tree : FileTree} {place next : Place} {piece : String}
    (leads : LeadsTo tree place piece next) (idle : Path.isIdle piece = true) : next = place := by
  cases leads with
  | stay _ => rfl
  | up => cases idle
  | down name _ =>
      rw [name.not_isIdle] at idle
      cases idle

theorem followPiece_of_leadsTo {tree : FileTree} {place next : Place} {piece : String}
    (directory : tree.entryAt? place = some .directory)
    (leads : LeadsTo tree place piece next) : tree.followPiece place piece = .ok next := by
  obtain ⟨entries, found⟩ := (entryAt?_eq_directory_iff tree place).1 directory
  simp only [followPiece, found]
  cases leads with
  | stay idle => exact if_pos (by simpa [Path.isIdle] using idle)
  | up => rfl
  | down name there =>
      rw [ne_eq, entryAt?_eq_none_iff, get?_concat found, ← ne_eq,
        ← Option.isSome_iff_ne_none] at there
      rw [if_neg (not_or.2 ⟨name.1, name.2.1⟩), if_neg name.2.2, if_pos there]

theorem leadsTo_of_followPiece {tree : FileTree} {place next : Place} {piece : String}
    (followed : tree.followPiece place piece = .ok next) :
    tree.entryAt? place = some .directory ∧ LeadsTo tree place piece next := by
  rw [followPiece] at followed
  split at followed
  · cases followed
  · cases followed
  next entries found =>
    refine ⟨(entryAt?_eq_directory_iff tree place).2 ⟨entries, found⟩, ?_⟩
    split at followed
    next idle =>
      cases followed
      exact .stay (by simpa [Path.isIdle] using idle)
    next busy =>
      split at followed
      next up =>
        cases followed
        subst up
        exact .up
      next other =>
        split at followed
        next there =>
          cases followed
          refine .down ⟨fun h => busy (.inl h), fun h => busy (.inr h), other⟩ ?_
          rwa [ne_eq, entryAt?_eq_none_iff, get?_concat found, ← ne_eq,
            ← Option.isSome_iff_ne_none]
        next => cases followed

theorem follow_append (tree : FileTree) (place : Place) (first second : List String) :
    tree.follow place (first ++ second) =
      (tree.follow place first).bind fun reached => tree.follow reached second := by
  induction first generalizing place with
  | nil => rfl
  | cons piece first ih =>
      rw [List.cons_append, follow, follow]
      cases tree.followPiece place piece with
      | error error => rfl
      | ok next => exact ih next

theorem follow_singleton (tree : FileTree) (place : Place) (piece : String) :
    tree.follow place [piece] = tree.followPiece place piece := by
  rw [follow]
  cases tree.followPiece place piece <;> rfl

/-- Following starts from a directory unless there is nothing to follow. -/
theorem directory_of_follow {tree : FileTree} {place reached : Place} {piece : String}
    {rest : List String} (followed : tree.follow place (piece :: rest) = .ok reached) :
    tree.entryAt? place = some .directory := by
  rw [follow] at followed
  cases step : tree.followPiece place piece with
  | error error =>
      rw [step] at followed
      cases followed
  | ok next => exact (leadsTo_of_followPiece step).1

/-- **A path leads to the same place in every tree with at least the same directories in which
something is there.** -/
theorem follow_of_directoriesStay {first second : FileTree} (stay : DirectoriesStay first second)
    {place reached : Place} {pieces : List String}
    (followed : first.follow place pieces = .ok reached)
    (there : second.entryAt? reached ≠ none) : second.follow place pieces = .ok reached := by
  induction pieces generalizing place with
  | nil => exact followed
  | cons piece rest ih =>
      rw [follow] at followed ⊢
      cases step : first.followPiece place piece with
      | error error =>
          rw [step] at followed
          cases followed
      | ok next =>
          rw [step] at followed
          change first.follow next rest = .ok reached at followed
          obtain ⟨directory, leads⟩ := leadsTo_of_followPiece step
          have next_there : second.entryAt? next ≠ none := by
            cases rest with
            | nil =>
                cases followed
                exact there
            | cons another rest =>
                rw [stay next (directory_of_follow followed)]
                exact Option.some_ne_none _
          have again : second.followPiece place piece = .ok next := by
            refine followPiece_of_leadsTo (stay place directory) ?_
            cases leads with
            | stay idle => exact .stay idle
            | up => exact .up
            | down name _ => exact .down name next_there
          rw [again]
          exact ih followed

/-- **A path leads to the same place in every tree with the same directories in which something is
there.** -/
theorem follow_of_sameDirectories {first second : FileTree} (same : SameDirectories first second)
    {place reached : Place} {pieces : List String}
    (followed : first.follow place pieces = .ok reached)
    (there : second.entryAt? reached ≠ none) : second.follow place pieces = .ok reached :=
  follow_of_directoriesStay (fun place => (same place).1) followed there

theorem hasFile_of_readText {tree : FileTree} {path : Path} {content : String}
    (read : tree.readText path = .ok content) : tree.hasFile path = true := by
  obtain ⟨bytes, readable, _⟩ := Results.bind_eq_ok_iff.1 read
  obtain ⟨found, finding, isFile⟩ := Results.bind_eq_ok_iff.1 readable
  rw [hasFile, finding]
  cases found with
  | file content executable => rfl
  | directory entries => cases isFile

theorem exists_locate_of_hasFile {tree : FileTree} {path : Path} (held : tree.hasFile path = true) :
    ∃ place, tree.locate path = .ok place := by
  rw [hasFile] at held
  split at held
  next found finding =>
    obtain ⟨place, located, _⟩ := Results.bind_eq_ok_iff.1 finding
    exact ⟨place, located⟩
  next => cases held

/-! ## Landing -/

/-- A path lands in a directory under a name: everything before its last piece leads to the
directory, and its last piece is the name. -/
structure Lands (tree : FileTree) (path : Path) (dir : Place) (name : String) : Prop where
  isName : IsName name
  reached : ∃ above, path.pieces = above ++ [name] ∧ tree.follow [] (above ++ [""]) = .ok dir

theorem follow_directory {tree : FileTree} {place dir : Place} {pieces : List String} :
    tree.follow place (pieces ++ [""]) = .ok dir ↔
      tree.follow place pieces = .ok dir ∧ tree.entryAt? dir = some .directory := by
  rw [follow_append]
  constructor
  · intro followed
    cases step : tree.follow place pieces with
    | error error =>
        rw [step] at followed
        cases followed
    | ok reached =>
        rw [step] at followed
        change tree.follow reached [""] = .ok dir at followed
        rw [follow_singleton] at followed
        obtain ⟨directory, leads⟩ := leadsTo_of_followPiece followed
        rw [leads.eq_of_isIdle rfl]
        exact ⟨rfl, directory⟩
  · rintro ⟨followed, directory⟩
    rw [followed]
    change tree.follow dir [""] = .ok dir
    rw [follow_singleton]
    exact followPiece_of_leadsTo directory (.stay rfl)

/-- Idle pieces before a final slash lead nowhere else. -/
theorem follow_idle {idle : List String} (all : ∀ piece ∈ idle, Path.isIdle piece = true)
    (tree : FileTree) (place : Place) :
    tree.follow place (idle ++ [""]) = tree.follow place [""] := by
  induction idle with
  | nil => rfl
  | cons piece idle ih =>
      have later := ih fun other member => all other (List.mem_cons_of_mem _ member)
      have alike : tree.followPiece place piece = tree.followPiece place "" := by
        have here := all piece List.mem_cons_self
        simp only [Path.isIdle, Bool.or_eq_true, decide_eq_true_eq] at here
        simp only [followPiece, if_pos here, true_or, if_true]
      rw [List.cons_append, follow, alike]
      cases step : tree.followPiece place "" with
      | error error => rw [follow_singleton, step, Results.error_bind]
      | ok next =>
          have stays := (leadsTo_of_followPiece step).2.eq_of_isIdle rfl
          rw [Results.ok_bind, stays, later]

/-- Trimming the pieces before a final slash leads to the same directory. -/
theorem follow_trimAbove (tree : FileTree) (place : Place) (above : List String) :
    tree.follow place (Path.trimAbove above ++ [""]) = tree.follow place (above ++ [""]) := by
  cases above with
  | nil => rfl
  | cons first rest =>
      obtain ⟨idle, split, all⟩ := Path.dropIdleEnd_append rest
      have regroup : first :: rest ++ [""] =
          (first :: Path.dropIdleEnd rest) ++ (idle ++ [""]) := by
        conv => lhs; rw [split]
        simp
      rw [regroup, Path.trimAbove, follow_append, follow_append]
      congr 1
      funext reached
      exact (follow_idle all tree reached).symm

/-- Where a path leads, it leads without a slash at its end. -/
theorem follow_openEnd {tree : FileTree} {path : Path} {place : Place}
    (located : tree.locate path = .ok place) :
    Path.openEnd path.pieces ≠ [] ∧ tree.follow [] (Path.openEnd path.pieces) = .ok place := by
  rw [locate.eq_def] at located
  split at located
  next => cases located
  next => cases located
  next some single =>
    rw [Path.openEnd]
    split
    next last =>
      obtain ⟨above, equal⟩ := List.getLast?_eq_some_iff.1 last
      rw [equal] at located ⊢
      rw [List.dropLast_concat]
      refine ⟨?_, (follow_directory.1 located).1⟩
      rintro rfl
      exact single equal
    next => exact ⟨some, located⟩

/-- A text joined to a path is followed from where the path leads. -/
theorem locate_joinText {tree : FileTree} {path : Path} {place : Place} {text : String}
    (located : tree.locate path = .ok place) (plain : '/' ∉ text.toList) :
    tree.locate (path.joinText text) = tree.followPiece place text := by
  obtain ⟨some, followed⟩ := follow_openEnd located
  obtain ⟨first, rest, pieces⟩ := List.exists_cons_of_ne_nil some
  rw [pieces] at followed
  have joined : (path.joinText text).pieces = first :: (rest ++ [text]) := by
    rw [Path.pieces_joinText plain, pieces, List.cons_append]
  have followedText : tree.follow [] (first :: rest ++ [text]) = tree.followPiece place text := by
    rw [follow_append, followed]
    exact follow_singleton tree place text
  rw [locate.eq_def, joined]
  split
  next none => cases none
  next single => simp at single
  next => exact followedText

/-- Nothing is joined to what is no directory. -/
theorem locate_joinText_of_flat {tree : FileTree} {path : Path} {place : Place} {text : String}
    (located : tree.locate path = .ok place)
    (flat : tree.entryAt? place ≠ some .directory) (plain : '/' ∉ text.toList) (reached : Place) :
    tree.locate (path.joinText text) ≠ .ok reached := by
  rw [locate_joinText located plain]
  exact fun followed => flat (leadsTo_of_followPiece followed).1

/-- A path opens a directory: what is joined to it is followed from there. -/
def Opens (tree : FileTree) (path : Path) (dir : Place) : Prop :=
  tree.follow [] (Path.openEnd path.pieces ++ [""]) = .ok dir

theorem opens_of_locate {tree : FileTree} {path : Path} {dir : Place}
    (located : tree.locate path = .ok dir) (directory : tree.entryAt? dir = some .directory) :
    Opens tree path dir :=
  follow_directory.2 ⟨(follow_openEnd located).2, directory⟩

namespace Lands

variable {tree : FileTree} {path : Path} {dir : Place} {name : String}

theorem directory (lands : Lands tree path dir name) : tree.entryAt? dir = some .directory := by
  obtain ⟨above, _, followed⟩ := lands.reached
  exact (follow_directory.1 followed).2

/-- A path lands where it would put something new. -/
theorem locateNew (lands : Lands tree path dir name) :
    tree.locateNew path = .ok (dir ++ [name]) := by
  obtain ⟨above, pieces, followed⟩ := lands.reached
  have named : ((above ++ [name]).reverse.dropWhile (· = "")).reverse = above ++ [name] := by
    simp [lands.isName.1]
  rw [FileTree.locateNew, pieces, named]
  simp only [List.getLast?_concat, List.dropLast_concat, lands.isName.2.1, lands.isName.2.2,
    or_false, if_false, followed]
  rfl

/-- A path that lands on something leads there. -/
theorem locate (lands : Lands tree path dir name)
    (there : tree.entryAt? (dir ++ [name]) ≠ none) : tree.locate path = .ok (dir ++ [name]) := by
  obtain ⟨above, pieces, followed⟩ := lands.reached
  have down : tree.follow [] (above ++ [name]) = .ok (dir ++ [name]) := by
    rw [follow_append, (follow_directory.1 followed).1]
    change tree.follow dir [name] = _
    rw [follow_singleton]
    exact followPiece_of_leadsTo lands.directory (.down lands.isName there)
  rw [FileTree.locate, pieces]
  split
  next none => simp at none
  next empty =>
    have : name = "" := by
      have last := congrArg List.getLast? empty
      simpa using last
    exact absurd this lands.isName.1
  next => exact down

/-- A path that lands on nothing leads nowhere. -/
theorem locate_error (lands : Lands tree path dir name)
    (absent : tree.entryAt? (dir ++ [name]) = none) :
    ∃ error, tree.locate path = .error error := by
  obtain ⟨above, pieces, followed⟩ := lands.reached
  have down : ∃ error, tree.follow [] (above ++ [name]) = .error error := by
    rw [follow_append, (follow_directory.1 followed).1]
    change ∃ error, tree.follow dir [name] = .error error
    rw [follow_singleton]
    cases step : tree.followPiece dir name with
    | error error => exact ⟨error, rfl⟩
    | ok next =>
        obtain ⟨_, leads⟩ := leadsTo_of_followPiece step
        cases leads with
        | stay idle =>
            rw [lands.isName.not_isIdle] at idle
            cases idle
        | up => exact absurd rfl lands.isName.2.2
        | down _ there => exact absurd absent there
  rw [FileTree.locate, pieces]
  split
  · exact ⟨_, rfl⟩
  · exact ⟨_, rfl⟩
  · exact down

/-- What a path that lands leads to. -/
theorem find (lands : Lands tree path dir name) {found : FileTree}
    (here : tree.get? (dir ++ [name]) = some found) : tree.find path = .ok found := by
  have there : tree.entryAt? (dir ++ [name]) ≠ none := by
    rw [ne_eq, entryAt?_eq_none_iff, here]
    exact Option.some_ne_none _
  simp only [FileTree.find, lands.locate there, Results.ok_bind, here]

/-- A path keeps landing where it does while directories stay. -/
theorem of_sameDirectories (lands : Lands tree path dir name) {later : FileTree}
    (same : SameDirectories tree later) : Lands later path dir name := by
  obtain ⟨above, pieces, followed⟩ := lands.reached
  refine ⟨lands.isName, above, pieces, follow_of_sameDirectories same followed ?_⟩
  rw [(same dir).1 lands.directory]
  exact Option.some_ne_none _

theorem fileName? (lands : Lands tree path dir name) : path.fileName? = some name := by
  obtain ⟨above, pieces, _⟩ := lands.reached
  exact Path.fileName?_of_pieces pieces lands.isName

/-- A path that lands has no slash at its end. -/
theorem endsInSlash (lands : Lands tree path dir name) : path.endsInSlash = false := by
  obtain ⟨above, pieces, _⟩ := lands.reached
  rw [Path.endsInSlash, pieces, List.getLast?_concat, decide_eq_false_iff_not]
  exact fun same => lands.isName.1 (Option.some.inj same)

/-- A path that lands ends in a name. -/
theorem endsInName (lands : Lands tree path dir name) : path.endsInName = true := by
  obtain ⟨above, pieces, _⟩ := lands.reached
  obtain ⟨notEmpty, notDot, notUp⟩ := lands.isName
  simp [Path.endsInName, pieces, notEmpty, notDot, notUp]

/-- With another last name a path lands in the same directory. -/
theorem withFileName (lands : Lands tree path dir name) {other : String} (isName : IsName other)
    (plain : '/' ∉ other.toList) : Lands tree (path.withFileName other) dir other := by
  obtain ⟨above, pieces, followed⟩ := lands.reached
  refine ⟨isName, Path.trimAbove above, Path.pieces_withFileName pieces lands.isName plain, ?_⟩
  rw [follow_trimAbove, followed]

end Lands

/-- The parent of a path that lands opens the directory in which it lands. -/
theorem Lands.opens_parent {tree : FileTree} {path : Path} {dir : Place} {name : String}
    (lands : Lands tree path dir name) :
    ∃ parent, path.parent? = some parent ∧ Opens tree parent dir := by
  obtain ⟨above, pieces, followed⟩ := lands.reached
  refine ⟨_, Path.parent?_of_pieces pieces lands.isName, ?_⟩
  rw [Opens, Path.openEnd_enclosing, follow_trimAbove, followed]

/-- **Every path to a file lands**: it ends in the name of the file. -/
theorem lands_of_file {tree : FileTree} {path : Path} {place : Place}
    (located : tree.locate path = .ok place) {content : ByteArray} {executable : Bool}
    (file : tree.entryAt? place = some (.file content executable)) :
    ∃ dir name, place = dir ++ [name] ∧ Lands tree path dir name := by
  have followed : tree.follow [] path.pieces = .ok place := by
    rw [locate] at located
    split at located
    · cases located
    · cases located
    · exact located
  rcases List.eq_nil_or_concat path.pieces with empty | ⟨above, last, pieces⟩
  · rw [locate, empty] at located
    cases located
  · rw [List.concat_eq_append] at pieces
    rw [pieces, follow_append] at followed
    cases step : tree.follow [] above with
    | error error =>
        rw [step] at followed
        cases followed
    | ok dir =>
        rw [step] at followed
        change tree.follow dir [last] = .ok place at followed
        rw [follow_singleton] at followed
        obtain ⟨directory, leads⟩ := leadsTo_of_followPiece followed
        cases leads with
        | stay _ =>
            rw [directory] at file
            cases file
        | up =>
            rw [entryAt?_dropLast directory] at file
            cases file
        | down name _ =>
            exact ⟨dir, last, rfl, name, above, pieces, follow_directory.2 ⟨step, directory⟩⟩

/-! ## Trees that hold the same -/

section

variable {first second : FileTree} (same : first.entryAt? = second.entryAt?)
include same

theorem followPiece_congr (place : Place) (piece : String) :
    first.followPiece place piece = second.followPiece place piece := by
  have here := congrFun same place
  have below := congrFun same (place ++ [piece])
  simp only [entryAt?] at here below
  rw [followPiece, followPiece]
  cases found : first.get? place with
  | none =>
      rw [found, Option.map_none, eq_comm, Option.map_eq_none_iff] at here
      rw [here]
  | some tree =>
      rw [found, Option.map_some, eq_comm, Option.map_eq_some_iff] at here
      obtain ⟨other, there, alike⟩ := here
      rw [there]
      cases tree <;> cases other <;> cases alike
      · rfl
      next entries others =>
        rw [get?_concat found, get?_concat there] at below
        have known := congrArg Option.isSome below
        rw [Option.isSome_map, Option.isSome_map] at known
        simp only [known]

theorem follow_congr (place : Place) (pieces : List String) :
    first.follow place pieces = second.follow place pieces := by
  induction pieces generalizing place with
  | nil => rfl
  | cons piece pieces ih =>
      rw [follow, follow, followPiece_congr same]
      cases second.followPiece place piece with
      | error error => rfl
      | ok next => exact ih next

theorem locate_congr (path : Path) : first.locate path = second.locate path := by
  rw [locate.eq_def, locate.eq_def]
  simp only [follow_congr same]

/-- Where trees hold the same at every place, a path leads to alike trees in both, or nowhere in
either. -/
theorem find_congr (path : Path) :
    (∃ error, first.find path = .error error ∧ second.find path = .error error) ∨
      ∃ here there, first.find path = .ok here ∧ second.find path = .ok there ∧
        here.entry = there.entry := by
  rw [find, find, locate_congr same]
  cases second.locate path with
  | error error => exact .inl ⟨error, rfl, rfl⟩
  | ok place =>
      have held := congrFun same place
      simp only [entryAt?] at held
      simp only [Results.ok_bind]
      cases found : second.get? place with
      | none =>
          rw [found, Option.map_none, Option.map_eq_none_iff] at held
          rw [held]
          exact .inl ⟨.notFound, rfl, rfl⟩
      | some there =>
          rw [found, Option.map_some, Option.map_eq_some_iff] at held
          obtain ⟨here, found', alike⟩ := held
          rw [found']
          exact .inr ⟨here, there, rfl, rfl, alike⟩

/-- Trees that hold the same at every place give the same texts. -/
theorem readText_congr (path : Path) : first.readText path = second.readText path := by
  rw [readText, readText, readBytes, readBytes]
  rcases find_congr same path with ⟨error, none, none'⟩ | ⟨here, there, found, found', alike⟩
  · rw [none, none']
  · rw [found, found']
    cases here <;> cases there <;> cases alike <;> rfl

/-- Trees that hold the same at every place have the same directories. -/
theorem hasDirectory_congr (path : Path) : first.hasDirectory path = second.hasDirectory path := by
  rw [hasDirectory, hasDirectory]
  rcases find_congr same path with ⟨error, none, none'⟩ | ⟨here, there, found, found', alike⟩
  · rw [none, none']
  · rw [found, found']
    cases here <;> cases there <;> cases alike <;> rfl

end

end FileTree

end Uplift
