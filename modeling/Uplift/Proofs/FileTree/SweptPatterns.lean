import Uplift.Proofs.FileTree.LiteralPatterns
import Uplift.Proofs.FileTree.Sweeping

/-!
# Patterns after staged writes

A pattern that ends in a name finds paths that end in that name (`exists_of_mem_expandFrom`), and
finds the same paths in the same order when staged files of other names are swept away
(`expand_swept`).

An expansion is bounded by a number that depends on the size of the tree, and sweeping makes a tree
smaller.  So the two expansions are compared for any bounds that are enough, by induction on the
pieces that are left and, where a piece stands for any number of directories, on how much deeper
the directories go (`expandFrom_swept`).
-/

set_option autoImplicit false

namespace Uplift.Glob

open FileTree (Place IsEntryName Swept SameDirectories)

/-! ## Patterns that end in a name -/

/-- Pieces of which the last is a name. -/
def EndsIn (file : String) (pieces : List (List Token)) : Prop :=
  pieces.getLast? = some (literals file)

theorem EndsIn.cons {file : String} {piece : List Token} {pieces : List (List Token)}
    (ends : EndsIn file (piece :: pieces)) :
    pieces = [] ∧ piece = literals file ∨ pieces ≠ [] ∧ EndsIn file pieces := by
  cases pieces with
  | nil => exact .inl ⟨rfl, Option.some.inj ends⟩
  | cons next pieces =>
      rw [EndsIn, List.getLast?_cons_cons] at ends
      exact .inr ⟨List.cons_ne_nil _ _, ends⟩

theorem EndsIn.ne_nil {file : String} {pieces : List (List Token)} (ends : EndsIn file pieces) :
    pieces ≠ [] := by
  rintro rfl
  cases ends

theorem EndsIn.prepend {file : String} {pieces : List (List Token)} (ends : EndsIn file pieces)
    (piece : List Token) : EndsIn file (piece :: pieces) := by
  rw [EndsIn, List.getLast?_cons_of_ne_nil ends.ne_nil]
  exact ends

/-- A piece with wildcards is not the last. -/
theorem EndsIn.of_wildcards {file : String} {piece : List Token} {pieces : List (List Token)}
    (ends : EndsIn file (piece :: pieces)) (wild : literal? piece = none) :
    EndsIn file pieces := by
  rcases ends.cons with ⟨_, rfl⟩ | ⟨_, ends⟩
  · rw [literal?_literals] at wild
    cases wild
  · exact ends

theorem isRecursive_literals (file : String) : isRecursive (literals file) = false := by
  simp [isRecursive, literals]

/-- The last piece is left when those that stand for any number of directories are dropped. -/
theorem EndsIn.dropWhile {file : String} {pieces : List (List Token)}
    (ends : EndsIn file pieces) : EndsIn file (pieces.dropWhile isRecursive) := by
  obtain ⟨front, rfl⟩ := List.getLast?_eq_some_iff.1 ends
  rw [List.dropWhile_append]
  split
  · rw [List.dropWhile_cons_of_neg (by simp [isRecursive_literals])]
    rfl
  · rw [EndsIn, List.getLast?_concat]

/-- The units of a name accept that name alone. -/
theorem eq_of_accepts_literals {file name : String}
    (accepted : accepts (literals file) name.toList = true) : name = file := by
  have chars : ∀ guide text : List Char, accepts (guide.map .literal) text = true →
      text = guide := by
    intro guide
    induction guide with
    | nil =>
        intro text accepted
        simpa [accepts] using accepted
    | cons c guide ih =>
        intro text accepted
        cases text with
        | nil => cases accepted
        | cons d text =>
            rw [List.map_cons, accepts, Bool.and_eq_true] at accepted
            · have same : d = c := by simpa [Token.accepts] using accepted.1
              rw [same, ih text accepted.2]
            · simp
  exact String.toList_inj.1 (chars _ _ accepted)

section Finding

variable {tree : FileTree} {file : String}

section Onward

variable {fuel : Nat} {path found : Path}
  (onward : ∀ {rest : List (List Token)}, EndsIn file rest → ∀ {next : Path},
    found ∈ expandFrom tree fuel rest next → ∃ above : Path, found = above.joinText file)

include onward

theorem exists_of_mem_further {rest : List (List Token)} {next : Path} (ends : EndsIn file rest)
    (member : found ∈ further tree fuel rest next) :
    ∃ above : Path, found = above.joinText file := by
  rw [further, if_neg (by simpa using ends.ne_nil)] at member
  exact onward ends member

theorem exists_of_mem_foundBy {rest : List (List Token)} {name : String} (ends : EndsIn file rest)
    (member : found ∈ foundBy tree fuel path rest name) :
    ∃ above : Path, found = above.joinText file := by
  cases rest with
  | nil => cases member
  | cons first rest =>
      rw [foundBy] at member
      split at member
      next accepted =>
        rcases ends.cons with ⟨rfl, rfl⟩ | ⟨_, ends⟩
        · rw [eq_of_accepts_literals accepted] at member
          exact ⟨path, List.mem_singleton.1 member⟩
        · exact exists_of_mem_further onward ends member
      next => cases member

theorem exists_of_mem_foundBelow {piece : List Token} {pieces : List (List Token)} {name : String}
    (ends : EndsIn file pieces) (member : found ∈ foundBelow tree fuel piece pieces path name) :
    ∃ above : Path, found = above.joinText file := by
  have dropped := ends.dropWhile
  rw [foundBelow] at member
  dsimp only at member
  split at member
  · split at member
    · rcases List.mem_append.1 member with deeper | here
      · exact onward (dropped.prepend piece) deeper
      · rw [if_neg (by simpa using dropped.ne_nil)] at here
        exact exists_of_mem_foundBy onward dropped here
    · exact exists_of_mem_foundBy onward dropped member
  · exact exists_of_mem_foundBy onward (ends.prepend piece) member

theorem exists_of_mem_foundByDots {piece : List Token} {pieces : List (List Token)}
    (ends : EndsIn file pieces) (member : found ∈ foundByDots tree fuel piece pieces path) :
    ∃ above : Path, found = above.joinText file := by
  rw [foundByDots] at member
  split at member
  · obtain ⟨dot, _, member⟩ := List.mem_flatMap.1 member
    split at member
    · exact exists_of_mem_further onward ends member
    · cases member
  · cases member

end Onward

/-- **A pattern that ends in a name finds paths that end in it.** -/
theorem exists_of_mem_expandFrom {fuel : Nat} {pieces : List (List Token)}
    (ends : EndsIn file pieces) {path found : Path}
    (member : found ∈ expandFrom tree fuel pieces path) :
    ∃ above : Path, found = above.joinText file := by
  induction fuel generalizing pieces path with
  | zero => simp [expandFrom] at member
  | succ fuel ih =>
      cases pieces with
      | nil => cases ends
      | cons piece pieces =>
          cases literal : literal? piece with
          | some text =>
              rw [expandFrom_of_literal literal] at member
              split at member
              next =>
                rcases ends.cons with ⟨rfl, rfl⟩ | ⟨_, ends⟩
                · rw [literal?_literals] at literal
                  cases literal
                  exact ⟨path, List.mem_singleton.1 member⟩
                · exact exists_of_mem_further ih ends member
              next => cases member
          | none =>
              have later := ends.of_wildcards literal
              rw [expandFrom_of_wildcards literal] at member
              split at member
              next => cases member
              next names _ =>
                rcases List.mem_append.1 member with below | dots
                · obtain ⟨name, _, member⟩ := List.mem_flatMap.1 below
                  exact exists_of_mem_foundBelow ih later member
                · exact exists_of_mem_foundByDots ih later dots

end Finding

/-! ## Where a pattern starts -/

/-- Where a pattern starts, and the pieces that are followed from there. -/
def patternStart (pattern : Path) : Path × List String :=
  if pattern.isAbsolute then (⟨["", ""]⟩, pattern.pieces.drop 1) else (Path.empty, pattern.pieces)

theorem expand_eq (tree : FileTree) (pattern : Path) :
    expand tree pattern = (do
      let _ ← compile pattern.text.toList
      let pieces ← (patternStart pattern).2.mapM fun piece => compile piece.toList
      .ok (expandFrom tree ((pieces.length + 1) * (tree.size + 2)) pieces
        (patternStart pattern).1)) := by
  rw [expand, patternStart]

theorem mem_of_mem_patternStart {pattern : Path} {piece : String}
    (member : piece ∈ (patternStart pattern).2) : piece ∈ pattern.pieces := by
  rw [patternStart] at member
  split at member
  · exact List.mem_of_mem_drop member
  · exact member

theorem getLast?_patternStart (pattern : Path) :
    (patternStart pattern).2.getLast? = pattern.pieces.getLast? := by
  rw [patternStart]
  split
  next absolute =>
    obtain ⟨first, rest, pieces⟩ := Path.isAbsolute_iff.1 absolute
    rw [pieces, List.getLast?_cons_cons]
    rfl
  next => rfl

/-- The units of pieces that end in a name. -/
theorem endsIn_of_compiled {file : String} (plain : IsPlain file) {names : List String}
    (last : names.getLast? = some file) {pieces : List (List Token)}
    (compiled : names.mapM (fun piece => compile piece.toList) = .ok pieces) :
    EndsIn file pieces := by
  obtain ⟨tokens, ends, computed⟩ := (Results.mapM_eq_ok_iff.1 compiled).getLast? last
  cases (compile_of_plain plain).symm.trans computed
  exact ends

/-- A pattern that ends in a name finds paths that end in it. -/
theorem exists_of_mem_expand {tree : FileTree} {file : String} (plain : IsPlain file)
    {pattern : Path} (last : pattern.pieces.getLast? = some file) {paths : List Path}
    (expanded : expand tree pattern = .ok paths) {found : Path} (member : found ∈ paths) :
    ∃ above : Path, found = above.joinText file := by
  rw [expand_eq] at expanded
  obtain ⟨_, _, rest⟩ := Results.bind_eq_ok_iff.1 expanded
  obtain ⟨pieces, compiled, equal⟩ := Results.bind_eq_ok_iff.1 rest
  cases equal
  exact exists_of_mem_expandFrom
    (endsIn_of_compiled plain ((getLast?_patternStart pattern).trans last) compiled) member

/-! ## Following what is joined -/

section Following

variable {tree : FileTree} {path : Path} {place : Place} {text : String}

/-- A name that is joined is the last name of the place. -/
theorem concat_of_locate_joinText {name : String} (isName : IsEntryName name)
    (located : tree.locate (path.joinText name) = .ok place) : ∃ dir, place = dir ++ [name] := by
  rw [FileTree.locate.eq_def] at located
  split at located
  next => cases located
  next => cases located
  next =>
    rw [Path.pieces_joinText isName.2, FileTree.follow_append] at located
    obtain ⟨dir, _, followed⟩ := Results.bind_eq_ok_iff.1 located
    rw [FileTree.follow_singleton] at followed
    obtain ⟨_, leads⟩ := FileTree.leadsTo_of_followPiece followed
    cases leads with
    | stay idle =>
        rw [isName.1.not_isIdle] at idle
        cases idle
    | up => exact absurd isName.1 (by decide)
    | down _ _ => exact ⟨dir, rfl⟩

theorem has_iff : tree.has path = true ↔ ∃ place, tree.locate path = .ok place := by
  rw [FileTree.has, FileTree.find]
  cases located : tree.locate path with
  | error cause => simp [Except.isOk, Except.toBool]
  | ok place =>
      have there := FileTree.entryAt?_of_locate located
      rw [ne_eq, FileTree.entryAt?_eq_none_iff] at there
      obtain ⟨found, here⟩ := Option.ne_none_iff_exists'.1 there
      simp [here, Except.isOk, Except.toBool]

theorem hasDirectory_iff :
    tree.hasDirectory path = true ↔
      ∃ place, tree.locate path = .ok place ∧ tree.entryAt? place = some .directory := by
  rw [FileTree.hasDirectory, FileTree.find]
  cases located : tree.locate path with
  | error cause => simp
  | ok place =>
      simp only [Results.ok_bind, Except.ok.injEq, exists_eq_left', FileTree.entryAt?]
      cases tree.get? place with
      | none => simp
      | some found => cases found <;> simp [FileTree.isDirectory, FileTree.entry]

theorem list_eq_ok_iff {names : List String} :
    tree.list path = .ok names ↔
      ∃ place, tree.locate path = .ok place ∧ tree.listing? place = some names := by
  rw [FileTree.list, FileTree.find]
  cases located : tree.locate path with
  | error cause => simp
  | ok place =>
      simp only [Results.ok_bind, Except.ok.injEq, exists_eq_left', FileTree.listing?]
      cases tree.get? place with
      | none => simp
      | some found => cases found <;> simp

/-- Pieces of which none has a slash. -/
def NoSlashes (pieces : List (List Token)) : Prop :=
  ∀ piece ∈ pieces, ∀ text, literal? piece = some text → '/' ∉ text.toList

/-- **Nothing is found from a file.** -/
theorem expandFrom_of_flat (located : tree.locate path = .ok place)
    (flat : tree.entryAt? place ≠ some .directory) {pieces : List (List Token)}
    (plain : NoSlashes pieces) (fuel : Nat) : expandFrom tree fuel pieces path = [] := by
  have noDirectory : tree.hasDirectory path = false := by
    rw [Bool.eq_false_iff, ne_eq, hasDirectory_iff]
    rintro ⟨other, again, directory⟩
    cases located.symm.trans again
    exact flat directory
  cases fuel with
  | zero => rw [expandFrom]
  | succ fuel =>
      cases pieces with
      | nil => simp [expandFrom]
      | cons piece pieces =>
          cases literal : literal? piece with
          | some text =>
              have nowhere : tree.has (path.joinText text) = false := by
                rw [Bool.eq_false_iff, ne_eq, has_iff]
                rintro ⟨reached, joined⟩
                exact FileTree.locate_joinText_of_flat located flat
                  (plain piece List.mem_cons_self text literal) reached joined
              rw [expandFrom_of_literal literal, leadsOn, noDirectory, nowhere, ite_self]
              rfl
          | none =>
              rw [expandFrom_of_wildcards literal]
              split
              next => rfl
              next names listed =>
                obtain ⟨other, again, listing⟩ := list_eq_ok_iff.1 listed
                cases located.symm.trans again
                rw [FileTree.listing?] at listing
                obtain ⟨found, here, isDirectory⟩ := Option.bind_eq_some_iff.1 listing
                cases found with
                | file content executable => cases isDirectory
                | directory entries =>
                    exact absurd ((FileTree.entryAt?_eq_directory_iff _ _).2 ⟨entries, here⟩) flat

end Following

/-! ## After staged files were swept away -/

section Sweeping

variable {staged : List Place} {tree later : FileTree}

theorem locate_swept_iff (swept : Swept staged tree later) {path : Path} {place : Place} :
    later.locate path = .ok place ↔ tree.locate path = .ok place ∧ place ∉ staged := by
  constructor
  · intro located
    obtain ⟨there, apart⟩ := (swept.present place).1 (FileTree.entryAt?_of_locate located)
    exact ⟨FileTree.locate_of_directoriesStay (fun place => (swept.directories place).2) located
      there, apart⟩
  · rintro ⟨located, apart⟩
    exact FileTree.locate_of_directoriesStay (fun place => (swept.directories place).1) located
      ((swept.present place).2 ⟨FileTree.entryAt?_of_locate located, apart⟩)

theorem hasDirectory_swept (swept : Swept staged tree later) (path : Path) :
    later.hasDirectory path = tree.hasDirectory path := by
  rw [Bool.eq_iff_iff, hasDirectory_iff, hasDirectory_iff]
  refine exists_congr fun place => ?_
  rw [locate_swept_iff swept, ← swept.directories]
  constructor
  · rintro ⟨⟨located, _⟩, directory⟩
    exact ⟨located, directory⟩
  · rintro ⟨located, directory⟩
    exact ⟨⟨located, fun member => swept.flat place member directory⟩, directory⟩

/-- Something else than a staged file is there as it was before. -/
theorem has_swept (swept : Swept staged tree later) {path : Path}
    (apart : ∀ place ∈ staged, tree.locate path ≠ .ok place) : later.has path = tree.has path := by
  rw [Bool.eq_iff_iff, has_iff, has_iff]
  refine exists_congr fun place => ?_
  rw [locate_swept_iff swept]
  exact ⟨And.left, fun located => ⟨located, fun member => apart place member located⟩⟩

theorem list_swept (swept : Swept staged tree later) {path : Path} {place : Place}
    (located : tree.locate path = .ok place) {names : List String}
    (listed : tree.list path = .ok names) :
    later.list path = .ok (names.filter fun name => place ++ [name] ∉ staged) := by
  obtain ⟨other, again, listing⟩ := list_eq_ok_iff.1 listed
  cases located.symm.trans again
  have directory : tree.entryAt? place = some .directory := by
    obtain ⟨_, entries, again, found, _⟩ := FileTree.located_of_list listed
    cases located.symm.trans again
    exact (FileTree.entryAt?_eq_directory_iff _ _).2 ⟨entries, found⟩
  refine list_eq_ok_iff.2 ⟨place, (locate_swept_iff swept).2
    ⟨located, fun member => swept.flat place member directory⟩, ?_⟩
  rw [swept.listing, FileTree.listed, listing]
  rfl

theorem list_swept_error (swept : Swept staged tree later) {path : Path} {cause : FileError}
    (failed : tree.list path = .error cause) : ∃ cause, later.list path = .error cause := by
  cases again : later.list path with
  | error cause => exact ⟨cause, rfl⟩
  | ok names =>
      obtain ⟨place, located, listing⟩ := list_eq_ok_iff.1 again
      rw [swept.listing, FileTree.listed, Option.map_eq_some_iff] at listing
      obtain ⟨before, listing, _⟩ := listing
      have listed := list_eq_ok_iff.2 ⟨place, ((locate_swept_iff swept).1 located).1, listing⟩
      rw [failed] at listed
      cases listed

/-- How deep a path leads. -/
def level (tree : FileTree) (path : Path) : Nat :=
  match tree.locate path with
  | .ok place => place.length
  | .error _ => 0

/-- Enough to expand pieces from a path in a tree whose directories are no deeper than a number. -/
def need (deepest : Nat) (tree : FileTree) (pieces : List (List Token)) (path : Path) : Nat :=
  pieces.length * (deepest + 1) + (deepest - level tree path)

/-- What is enough for some pieces is more than what is enough for fewer, from anywhere. -/
theorem need_lt_of_shorter {deepest : Nat} {tree : FileTree} {rest pieces : List (List Token)}
    (shorter : rest.length < pieces.length) (next path : Path) :
    need deepest tree rest next < need deepest tree pieces path := by
  have product : (rest.length + 1) * (deepest + 1) ≤ pieces.length * (deepest + 1) :=
    Nat.mul_le_mul_right _ shorter
  rw [Nat.succ_mul] at product
  rw [need, need]
  omega

/-- What is enough for some pieces is more than what is enough for no more pieces from deeper
down. -/
theorem need_lt_of_deeper {deepest : Nat} {tree : FileTree} {rest pieces : List (List Token)}
    (noLonger : rest.length ≤ pieces.length) {next path : Path}
    (deeper : level tree path < level tree next) (bounded : level tree next ≤ deepest) :
    need deepest tree rest next < need deepest tree pieces path := by
  have product : rest.length * (deepest + 1) ≤ pieces.length * (deepest + 1) :=
    Nat.mul_le_mul_right _ noLonger
  rw [need, need]
  omega

theorem NoSlashes.of_subset {rest pieces : List (List Token)} (plain : NoSlashes pieces)
    (within : rest ⊆ pieces) : NoSlashes rest :=
  fun piece member => plain piece (within member)

/-- A name that a directory lists is followed. -/
theorem locate_child {path : Path} {place : Place} (located : tree.locate path = .ok place)
    (directory : tree.entryAt? place = some .directory) {name : String}
    (isName : IsEntryName name) (here : tree.entryAt? (place ++ [name]) ≠ none) :
    tree.locate (path.joinText name) = .ok (place ++ [name]) := by
  rw [FileTree.locate_joinText located isName.2]
  exact FileTree.followPiece_of_leadsTo directory (.down isName.1 here)

section Staged

variable (swept : Swept staged tree later) {file : String} {path : Path} {name : String}
  {place : Place} (located : tree.locate (path.joinText name) = .ok place)
  (member : place ∈ staged) (different : name ≠ file)

include swept located member different

/-- A staged file is found by no pieces that end in another name. -/
theorem foundBy_staged {pieces : List (List Token)} (ends : EndsIn file pieces)
    (plain : NoSlashes pieces) (fuel : Nat) : foundBy tree fuel path pieces name = [] := by
  cases pieces with
  | nil => rfl
  | cons first rest =>
      rw [foundBy]
      split
      next accepted =>
        rcases ends.cons with ⟨rfl, rfl⟩ | ⟨more, _⟩
        · exact absurd (eq_of_accepts_literals accepted) different
        · rw [further, if_neg (by simpa using more)]
          exact expandFrom_of_flat located (swept.flat place member)
            (plain.of_subset (List.subset_cons_self first rest)) fuel
      next => rfl

theorem foundBelow_staged {piece : List Token} {pieces : List (List Token)}
    (ends : EndsIn file pieces) (plain : NoSlashes (piece :: pieces)) (fuel : Nat) :
    foundBelow tree fuel piece pieces path name = [] := by
  have noDirectory : tree.hasDirectory (path.joinText name) = false := by
    rw [Bool.eq_false_iff, ne_eq, hasDirectory_iff]
    rintro ⟨other, again, directory⟩
    cases located.symm.trans again
    exact swept.flat place member directory
  have within : pieces.dropWhile isRecursive ⊆ piece :: pieces := fun other among =>
    List.mem_cons_of_mem _ ((List.dropWhile_sublist _).subset among)
  rw [foundBelow]
  simp only [noDirectory, Bool.false_eq_true, if_false,
    foundBy_staged swept located member different ends.dropWhile (plain.of_subset within),
    foundBy_staged swept located member different (ends.prepend piece) plain, ite_self]

end Staged

section Alike

variable {file : String} {pieces : List (List Token)} {path : Path} {deepest fuel fuel' : Nat}
  (alike : ∀ {rest : List (List Token)} {next : Path}, EndsIn file rest → NoSlashes rest →
    need deepest tree rest next < need deepest tree pieces path →
      expandFrom later fuel' rest next = expandFrom tree fuel rest next)

include alike

theorem further_swept {rest : List (List Token)} {next : Path}
    (ends : rest = [] ∨ EndsIn file rest) (plain : NoSlashes rest)
    (shorter : rest.length < pieces.length) :
    further later fuel' rest next = further tree fuel rest next := by
  rcases ends with rfl | ends
  · rfl
  · rw [further, further, alike ends plain (need_lt_of_shorter shorter next path)]

theorem foundBy_swept {rest : List (List Token)} {name : String} (ends : EndsIn file rest)
    (plain : NoSlashes rest) (noLonger : rest.length ≤ pieces.length) :
    foundBy later fuel' path rest name = foundBy tree fuel path rest name := by
  cases rest with
  | nil => rfl
  | cons first rest =>
      rw [foundBy, foundBy]
      split
      next =>
        refine further_swept alike ?_ (plain.of_subset (List.subset_cons_self first rest)) noLonger
        exact ends.cons.imp And.left And.right
      next => rfl

/-- What is found below a name is the same, if it leads deeper when it is a directory. -/
theorem foundBelow_swept (swept : Swept staged tree later) {piece : List Token}
    {rest : List (List Token)} {name : String} (split : pieces = piece :: rest)
    (ends : EndsIn file rest) (plain : NoSlashes pieces)
    (deeper : tree.hasDirectory (path.joinText name) = true →
      level tree path < level tree (path.joinText name) ∧
        level tree (path.joinText name) ≤ deepest) :
    foundBelow later fuel' piece rest path name = foundBelow tree fuel piece rest path name := by
  subst split
  have dropped := ends.dropWhile
  have short : (rest.dropWhile isRecursive).length ≤ rest.length :=
    (List.dropWhile_sublist _).length_le
  have within : piece :: rest.dropWhile isRecursive ⊆ piece :: rest :=
    List.cons_subset_cons _ (List.dropWhile_sublist _).subset
  have byRest : foundBy later fuel' path (rest.dropWhile isRecursive) name = _ :=
    foundBy_swept alike dropped
      (plain.of_subset fun other among => within (List.mem_cons_of_mem _ among))
      (by rw [List.length_cons]; omega)
  have byPiece : foundBy later fuel' path (piece :: rest) name = _ :=
    foundBy_swept alike (ends.prepend piece) plain le_rfl
  rw [foundBelow, foundBelow]
  simp only [hasDirectory_swept swept, byRest, byPiece]
  split
  next =>
    split
    next directory =>
      obtain ⟨below, bounded⟩ := deeper directory
      have less : need deepest tree (piece :: rest.dropWhile isRecursive) (path.joinText name) <
          need deepest tree (piece :: rest) path :=
        need_lt_of_deeper (by simpa using short) below bounded
      rw [alike (dropped.prepend piece) (plain.of_subset within) less]
    next => rfl
  next => rfl

theorem foundByDots_swept {piece : List Token} {rest : List (List Token)}
    (split : pieces = piece :: rest) (ends : EndsIn file rest) (plain : NoSlashes pieces) :
    foundByDots later fuel' piece rest path = foundByDots tree fuel piece rest path := by
  subst split
  have same : ∀ next, further later fuel' rest next = further tree fuel rest next := fun next =>
    further_swept alike (.inr ends) (plain.of_subset (List.subset_cons_self piece rest)) (by simp)
  rw [foundByDots, foundByDots]
  simp only [same]

end Alike

/-- What names find is what those of them find that find anything. -/
theorem flatMap_filter_eq {α β : Type} {names : List α} {keep : α → Bool} {find find' : α → List β}
    (kept : ∀ name ∈ names, keep name = true → find' name = find name)
    (dropped : ∀ name ∈ names, keep name = false → find name = []) :
    (names.filter keep).flatMap find' = names.flatMap find := by
  induction names with
  | nil => rfl
  | cons name names ih =>
      have rest := ih (fun other member => kept other (List.mem_cons_of_mem _ member))
        (fun other member => dropped other (List.mem_cons_of_mem _ member))
      cases keeps : keep name with
      | true =>
          rw [List.filter_cons_of_pos keeps, List.flatMap_cons, List.flatMap_cons, rest,
            kept name List.mem_cons_self keeps]
      | false =>
          rw [List.filter_cons_of_neg (by simp [keeps]), List.flatMap_cons,
            dropped name List.mem_cons_self keeps, List.nil_append, rest]

/-- **Swept trees are expanded alike.**  Staged files are found by no pattern that ends in another
name, since nothing is below them. -/
theorem expandFrom_swept (swept : Swept staged tree later) (wellFormed : tree.WellFormed)
    {file : String} (isFile : IsEntryName file)
    (apart : ∀ dir name, dir ++ [name] ∈ staged → name ≠ file) {deepest : Nat}
    (deep : ∀ place, tree.entryAt? place = some .directory → place.length ≤ deepest)
    {fuel fuel' : Nat} {pieces : List (List Token)} (ends : EndsIn file pieces)
    (plain : NoSlashes pieces) {path : Path} (enough : need deepest tree pieces path < fuel)
    (enough' : need deepest tree pieces path < fuel') :
    expandFrom later fuel' pieces path = expandFrom tree fuel pieces path := by
  induction fuel generalizing fuel' pieces path with
  | zero => omega
  | succ fuel ih =>
      obtain ⟨fuel', rfl⟩ : ∃ more, fuel' = more + 1 := ⟨fuel' - 1, by omega⟩
      have alike : ∀ {rest : List (List Token)} {next : Path}, EndsIn file rest → NoSlashes rest →
          need deepest tree rest next < need deepest tree pieces path →
            expandFrom later fuel' rest next = expandFrom tree fuel rest next := by
        intro rest next ends plain less
        exact ih ends plain (by omega) (by omega)
      cases pieces with
      | nil => cases ends
      | cons piece rest =>
          have plainRest := plain.of_subset (List.subset_cons_self piece rest)
          have here : rest = [] ∨ EndsIn file rest := ends.cons.imp And.left And.right
          cases literal : literal? piece with
          | some text =>
              have same : further later fuel' rest (path.joinText text) =
                  further tree fuel rest (path.joinText text) :=
                further_swept alike here plainRest (by simp)
              rw [expandFrom_of_literal literal, expandFrom_of_literal literal, same, leadsOn,
                leadsOn, hasDirectory_swept swept]
              by_cases isStaged : ∃ place ∈ staged, tree.locate (path.joinText text) = .ok place
              · obtain ⟨place, member, located⟩ := isStaged
                have nothing : further tree fuel rest (path.joinText text) = [] := by
                  rcases ends.cons with ⟨rfl, rfl⟩ | ⟨more, _⟩
                  · rw [literal?_literals] at literal
                    cases literal
                    obtain ⟨dir, rfl⟩ := concat_of_locate_joinText isFile located
                    exact absurd rfl (apart dir _ member)
                  · rw [further, if_neg (by simpa using more)]
                    exact expandFrom_of_flat located (swept.flat place member) plainRest fuel
                rw [nothing, ite_self, ite_self]
              · have elsewhere : ∀ place ∈ staged,
                    tree.locate (path.joinText text) ≠ .ok place :=
                  fun place member located => isStaged ⟨place, member, located⟩
                rw [has_swept swept elsewhere]
          | none =>
              have endsRest := ends.of_wildcards literal
              have dots : foundByDots later fuel' piece rest path = _ :=
                foundByDots_swept alike rfl endsRest plain
              rw [expandFrom_of_wildcards literal, expandFrom_of_wildcards literal]
              cases listed : tree.list path with
              | error cause =>
                  obtain ⟨cause, failed⟩ := list_swept_error swept listed
                  rw [failed]
              | ok names =>
                  obtain ⟨place, entries, located, found, _, mem_names⟩ :=
                    FileTree.located_of_list listed
                  have directory := (FileTree.entryAt?_eq_directory_iff _ _).2 ⟨entries, found⟩
                  have child : ∀ name ∈ names,
                      tree.locate (path.joinText name) = .ok (place ++ [name]) := by
                    intro name member
                    have here := (mem_names name).1 member
                    exact locate_child located directory (wellFormed.isEntryName here) here
                  have depth : level tree path = place.length := by rw [level, located]
                  rw [list_swept swept located listed]
                  simp only [dots]
                  congr 1
                  refine flatMap_filter_eq (fun name member _ => ?_) fun name member dropped => ?_
                  · refine foundBelow_swept alike swept rfl endsRest plain fun isDirectory => ?_
                    obtain ⟨other, again, below⟩ := hasDirectory_iff.1 isDirectory
                    cases (child name member).symm.trans again
                    have bounded := deep _ below
                    have depthOfChild : level tree (path.joinText name) =
                        (place ++ [name]).length := by
                      rw [level, child name member]
                    rw [depth, depthOfChild]
                    refine ⟨?_, bounded⟩
                    rw [List.length_append]
                    exact Nat.lt_succ_self _
                  · have isStaged : place ++ [name] ∈ staged := by simpa using dropped
                    exact foundBelow_staged swept (child name member) isStaged
                      (apart place name isStaged) endsRest plain fuel

/-- **A pattern that ends in a name finds the same** when staged files of other names are swept
away. -/
theorem expand_swept (swept : Swept staged tree later) (wellFormed : tree.WellFormed)
    {file : String} (isFile : IsEntryName file) (plain : IsPlain file)
    (apart : ∀ dir name, dir ++ [name] ∈ staged → name ≠ file) {pattern : Path}
    (last : pattern.pieces.getLast? = some file)
    (noSlash : ∀ piece ∈ pattern.pieces, '/' ∉ piece.toList) :
    expand later pattern = expand tree pattern := by
  have deep : ∀ place, tree.entryAt? place = some .directory →
      place.length ≤ min tree.size later.size := by
    intro place directory
    obtain ⟨entries, found⟩ := (FileTree.entryAt?_eq_directory_iff _ _).1 directory
    obtain ⟨others, found'⟩ :=
      (FileTree.entryAt?_eq_directory_iff _ _).1 ((swept.directories place).1 directory)
    have short := FileTree.length_add_size_le found
    have short' := FileTree.length_add_size_le found'
    omega
  have bounded : ∀ (pieces : List (List Token)) (start : Path) (size : Nat),
      min tree.size later.size ≤ size →
        need (min tree.size later.size) tree pieces start < (pieces.length + 1) * (size + 2) := by
    intro pieces start size large
    have product : pieces.length * (min tree.size later.size + 1) ≤
        pieces.length * (size + 2) := Nat.mul_le_mul_left _ (by omega)
    rw [need, Nat.succ_mul]
    omega
  rw [expand_eq, expand_eq]
  cases compile pattern.text.toList with
  | error fault => rfl
  | ok tokens =>
      rw [Results.ok_bind, Results.ok_bind]
      cases compiled : (patternStart pattern).2.mapM fun piece => compile piece.toList with
      | error fault => rfl
      | ok pieces =>
          have noSlashes : NoSlashes pieces := by
            intro piece among text literal slash
            obtain ⟨name, member, tokens⟩ := (Results.mapM_eq_ok_iff.1 compiled).of_mem among
            rw [eq_map_literal_of_literal? literal] at tokens
            exact noSlash name (mem_of_mem_patternStart member)
              (mem_of_readTokens tokens (List.mem_map_of_mem slash))
          have ends := endsIn_of_compiled plain ((getLast?_patternStart pattern).trans last) compiled
          rw [Results.ok_bind, Results.ok_bind, expandFrom_swept swept wellFormed isFile apart deep
            ends noSlashes (bounded pieces _ tree.size (min_le_left _ _))
            (bounded pieces _ later.size (min_le_right _ _))]

end Sweeping

end Uplift.Glob
