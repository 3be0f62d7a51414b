import Uplift.Proofs.FileTree.Globbing

/-!
# Patterns made of names

A name without wildcards is a piece of a pattern that stands for itself (`compile_of_plain`), so a
pattern that begins with such names is followed down to their directory.  From there, a pattern that
ends in one more piece and the name of a file finds that file in every directory that the piece
stands for, and nothing else (`mem_expand`).
-/

set_option autoImplicit false

namespace Uplift.Glob

open FileTree (Place IsEntryName)

/-! ## Reading plain pieces -/

/-- A character that stands for itself in a pattern. -/
def IsPlainChar (c : Char) : Prop :=
  c ≠ '?' ∧ c ≠ '*' ∧ c ≠ '['

instance (c : Char) : Decidable (IsPlainChar c) :=
  inferInstanceAs (Decidable (_ ∧ _))

/-- A piece of a pattern without wildcards. -/
def IsPlain (piece : String) : Prop :=
  ∀ c ∈ piece.toList, IsPlainChar c

instance (piece : String) : Decidable (IsPlain piece) :=
  List.decidableBAll IsPlainChar piece.toList

/-- The units of a piece without wildcards. -/
def literals (piece : String) : List Token :=
  piece.toList.map .literal

theorem literal?_literals (piece : String) : literal? (literals piece) = some piece := by
  have chars : ∀ char? : Token → Option Char, (∀ c, char? (.literal c) = some c) →
      ∀ text : List Char, (text.map Token.literal).mapM char? = some text := by
    intro char? reads text
    induction text with
    | nil => rfl
    | cons c text ih =>
        rw [List.map_cons, List.mapM_cons, ih, reads]
        rfl
  calc literal? (literals piece) = (some piece.toList).map String.ofList :=
        congrArg (Option.map String.ofList) (chars _ (fun _ => rfl) piece.toList)
    _ = some piece := congrArg some String.ofList_toList

theorem readTokens_cons_plain {c : Char} (plain : IsPlainChar c) (fuel : Nat)
    (previous : Option Char) (count : Nat) (rest : List Char) :
    readTokens (fuel + 1) previous count (c :: rest) =
      (do .ok (.literal c :: (← readTokens fuel (some c) (count + 1) rest))) := by
  rw [readTokens.eq_def]
  simp only [if_neg plain.1, if_neg plain.2.1, if_neg plain.2.2]

/-- **A piece without wildcards stands for itself.** -/
theorem compile_of_plain {piece : String} (plain : IsPlain piece) :
    compile piece.toList = .ok (literals piece) := by
  have read : ∀ (chars : List Char) (previous : Option Char) (count : Nat),
      (∀ c ∈ chars, IsPlainChar c) →
        readTokens chars.length previous count chars = .ok (chars.map .literal) := by
    intro chars
    induction chars with
    | nil =>
        intro _ _ _
        rfl
    | cons c chars ih =>
        intro previous count plain
        rw [List.length_cons, readTokens_cons_plain (plain c List.mem_cons_self),
          ih _ _ fun d member => plain d (List.mem_cons_of_mem _ member)]
        rfl
  exact read piece.toList none 0 plain

/-- A text that is a pattern, from wherever it is read. -/
def Compiles (chars : List Char) : Prop :=
  ∀ fuel previous count, ∃ tokens, readTokens fuel previous count chars = .ok tokens

theorem compiles_nil : Compiles [] := by
  intro fuel previous count
  cases fuel with
  | zero => exact ⟨[], rfl⟩
  | succ fuel => exact ⟨[], rfl⟩

theorem Compiles.plain {chars : List Char} (compiles : Compiles chars) {front : List Char}
    (plain : ∀ c ∈ front, IsPlainChar c) : Compiles (front ++ chars) := by
  induction front with
  | nil => exact compiles
  | cons c front ih =>
      have rest := ih fun d member => plain d (List.mem_cons_of_mem _ member)
      intro fuel previous count
      cases fuel with
      | zero => exact ⟨[], rfl⟩
      | succ fuel =>
          obtain ⟨tokens, read⟩ := rest fuel (some c) (count + 1)
          rw [List.cons_append, readTokens_cons_plain (plain c List.mem_cons_self), read]
          exact ⟨_, rfl⟩

theorem Compiles.star {chars : List Char} (compiles : Compiles chars)
    (single : chars.head? ≠ some '*') : Compiles ('*' :: chars) := by
  have none : chars.takeWhile (· = '*') = [] ∧ chars.dropWhile (· = '*') = chars := by
    cases chars with
    | nil => exact ⟨rfl, rfl⟩
    | cons c chars =>
        have different : c ≠ '*' := by simpa using single
        simp [different]
  intro fuel previous count
  cases fuel with
  | zero => exact ⟨[], rfl⟩
  | succ fuel =>
      obtain ⟨tokens, read⟩ := compiles fuel (some '*') (count + 1)
      refine ⟨.anySequence :: tokens, ?_⟩
      rw [readTokens.eq_def]
      simp [none.1, none.2, read]

/-- A piece that is a name, or stands for every name. -/
def IsSimple (piece : String) : Prop :=
  IsPlain piece ∨ piece = "*"

/-- The units of a simple piece. -/
def unitsOf (piece : String) : List Token :=
  if piece = "*" then [.anySequence] else literals piece

theorem unitsOf_of_plain {piece : String} (plain : IsPlain piece) :
    unitsOf piece = literals piece := by
  rw [unitsOf, if_neg]
  rintro rfl
  exact absurd plain (by decide)

theorem compile_of_simple {piece : String} (simple : IsSimple piece) :
    compile piece.toList = .ok (unitsOf piece) := by
  rcases simple with plain | rfl
  · rw [unitsOf_of_plain plain, compile_of_plain plain]
  · rfl

/-- Simple pieces with slashes between them are a pattern. -/
theorem compiles_intercalate {pieces : List String} (simple : ∀ piece ∈ pieces, IsSimple piece) :
    Compiles (['/'].intercalate (pieces.map String.toList)) := by
  have slash : IsPlainChar '/' := by decide
  have before : ∀ piece chars, IsSimple piece → Compiles chars → chars.head? ≠ some '*' →
      Compiles (piece.toList ++ chars) := by
    intro piece chars simple compiles single
    rcases simple with plain | rfl
    · exact compiles.plain plain
    · exact compiles.star single
  induction pieces with
  | nil => exact compiles_nil
  | cons piece pieces ih =>
      have here := simple piece List.mem_cons_self
      have others := ih fun other member => simple other (List.mem_cons_of_mem _ member)
      cases pieces with
      | nil =>
          have alone := before piece [] here compiles_nil (by simp)
          simpa using alone
      | cons next pieces =>
          rw [List.map_cons, List.map_cons, List.intercalate_cons_cons]
          rw [List.append_assoc]
          rw [List.map_cons] at others
          have further : Compiles (['/'] ++ ['/'].intercalate
              (next.toList :: pieces.map String.toList)) := others.plain (by simpa using slash)
          exact before piece _ here further (by simp)

/-! ## Following pieces -/

section Following

variable {tree : FileTree} {path : Path} {place : Place}

/-- A directory is found by any path that spells its place. -/
theorem hasDirectory_of_spells (spells : path.Spells place)
    (directory : tree.entryAt? place = some .directory) :
    tree.has path = true ∧ tree.hasDirectory path = true := by
  obtain ⟨entries, here⟩ := (FileTree.entryAt?_eq_directory_iff tree place).1 directory
  have located := FileTree.locate_of_directory spells directory
  have found : tree.find path = .ok (.directory entries) := by
    rw [FileTree.find, located]
    simp [here]
  rw [FileTree.has, FileTree.hasDirectory, found]
  exact ⟨rfl, rfl⟩

theorem has_iff_of_spells {dir : Place} {name : String} (spells : path.Spells (dir ++ [name]))
    (ends : path.pieces.getLast? = some name) :
    tree.has path = true ↔ tree.entryAt? (dir ++ [name]) ≠ none := by
  constructor
  · intro present absent
    rw [FileTree.has] at present
    cases found : tree.find path with
    | error cause =>
        rw [found] at present
        cases present
    | ok subtree =>
        have here := (FileTree.find_iff_of_spells spells ends).1 found
        rw [FileTree.entryAt?_eq_none_iff, here] at absent
        cases absent
  · intro there
    by_contra absent
    exact there (FileTree.entryAt?_of_not_has spells ends (by simpa using absent))

/-- A name is followed from a directory to a directory. -/
theorem expandFrom_literal (spells : path.Spells place) {piece : String} (level : piece ≠ "..")
    (plain : '/' ∉ piece.toList)
    (here : tree.entryAt? place = some .directory)
    (directory : tree.entryAt? (place ++ [piece].filter fun piece => !Path.isIdle piece) =
      some .directory) (fuel : Nat) (pieces : List (List Token)) (more : pieces ≠ []) :
    (path.joinText piece).Spells (place ++ [piece].filter fun piece => !Path.isIdle piece) ∧
      expandFrom tree (fuel + 1) (literals piece :: pieces) path =
        expandFrom tree fuel pieces (path.joinText piece) := by
  have spelled : (path.joinText piece).Spells
      (place ++ [piece].filter fun piece => !Path.isIdle piece) := by
    rcases Path.innerComponent?_cases piece with ⟨idle, _⟩ | ⟨rfl, _⟩ | ⟨isName, _⟩
    · simpa [idle] using spells_joinText_idle spells idle
    · exact absurd rfl level
    · simpa [isName.not_isIdle] using spells.joinText isName plain
  have continues : pieces.isEmpty = false := by simpa using more
  refine ⟨spelled, ?_⟩
  rw [expandFrom]
  simp only [literal?_literals, continues]
  rw [(hasDirectory_of_spells spells here).2, (hasDirectory_of_spells spelled directory).1]
  simp

/-- **Names are followed down to the directory that they spell.** -/
theorem expandFrom_literals (spells : path.Spells place) {guide : List String}
    (level : ".." ∉ guide) (plain : ∀ piece ∈ guide, '/' ∉ piece.toList)
    (directory : tree.entryAt? (place ++ guide.filter fun piece => !Path.isIdle piece) =
      some .directory) (fuel : Nat) (pieces : List (List Token)) (more : pieces ≠ []) :
    ∃ next : Path, next.Spells (place ++ guide.filter fun piece => !Path.isIdle piece) ∧
      expandFrom tree (guide.length + fuel) (guide.map literals ++ pieces) path =
        expandFrom tree fuel pieces next := by
  induction guide generalizing path place with
  | nil => exact ⟨path, by simpa using spells, by simp⟩
  | cons piece guide ih =>
      have split : (piece :: guide).filter (fun piece => !Path.isIdle piece) =
          [piece].filter (fun piece => !Path.isIdle piece) ++
            guide.filter fun piece => !Path.isIdle piece := by
        rw [← List.filter_append, List.singleton_append]
      rw [split, ← List.append_assoc] at directory ⊢
      have below := FileTree.directory_of_prefix (List.prefix_append _ _) directory
      have here := FileTree.directory_of_prefix (List.prefix_append _ _) below
      obtain ⟨spelled, same⟩ := expandFrom_literal spells (fun equal => level (by simp [equal]))
        (plain piece List.mem_cons_self) here below (guide.length + fuel)
        (guide.map literals ++ pieces) (by simp [more])
      obtain ⟨next, found, further⟩ := ih spelled (fun up => level (List.mem_cons_of_mem _ up))
        (fun other member => plain other (List.mem_cons_of_mem _ member)) directory
      refine ⟨next, found, ?_⟩
      rw [← further, ← same, List.length_cons, List.map_cons, List.cons_append]
      congr 1
      omega

end Following

/-! ## What is found in a directory -/

section Found

variable {tree : FileTree} {path : Path} {place : Place}

theorem accepts_anySequence (text : List Char) : accepts [.anySequence] text = true := by
  have ends : ∀ chars : List Char, [] ∈ suffixes chars := by
    intro chars
    induction chars with
    | nil => exact List.mem_cons_self
    | cons c chars ih => exact List.mem_cons_of_mem _ ih
  rw [accepts, List.any_eq_true]
  exact ⟨[], ends text, rfl⟩

/-- A name is followed if it leads anywhere. -/
theorem expandFrom_name {name : String} (isName : IsEntryName name) (fuel : Nat)
    (pieces : List (List Token)) :
    expandFrom tree (fuel + 1) (literals name :: pieces) path =
      if tree.has (path.joinText name) then
        if pieces.isEmpty then [path.joinText name]
        else expandFrom tree fuel pieces (path.joinText name)
      else [] := by
  have notDots : ¬ (name = "." ∨ name = "..") := by
    rintro (rfl | rfl)
    · exact absurd isName.1 (by decide)
    · exact absurd isName.1 (by decide)
  rw [expandFrom]
  simp only [literal?_literals, if_neg notDots]

/-- A name leads somewhere if there is an entry of that name. -/
theorem has_joinText_iff (spells : path.Spells place) {name : String} (isName : IsEntryName name) :
    tree.has (path.joinText name) = true ↔ tree.entryAt? (place ++ [name]) ≠ none := by
  refine has_iff_of_spells (spells.joinText isName.1 isName.2) ?_
  rw [Path.pieces_joinText isName.2, List.getLast?_concat]

/-- The last piece of a pattern finds the file of that name. -/
theorem mem_expandFrom_last (spells : path.Spells place) {file : String} (isFile : IsEntryName file)
    (fuel : Nat) {found : Path} :
    found ∈ expandFrom tree (fuel + 1) [literals file] path ↔
      tree.entryAt? (place ++ [file]) ≠ none ∧ found = path.joinText file := by
  rw [expandFrom_name isFile, ← has_joinText_iff spells isFile]
  split
  next present => simp [present]
  next absent => simp [absent]

/-- A name and a file are found if the file is in the directory of that name. -/
theorem mem_expandFrom_name (spells : path.Spells place) {name file : String}
    (isName : IsEntryName name) (isFile : IsEntryName file) (fuel : Nat) {found : Path} :
    found ∈ expandFrom tree (fuel + 2) [literals name, literals file] path ↔
      tree.entryAt? (place ++ [name, file]) ≠ none ∧
        found = (path.joinText name).joinText file := by
  have split : place ++ [name, file] = place ++ [name] ++ [file] := by simp
  have further : found ∈ expandFrom tree (fuel + 1) [literals file] (path.joinText name) ↔
      tree.entryAt? (place ++ [name] ++ [file]) ≠ none ∧
        found = (path.joinText name).joinText file :=
    mem_expandFrom_last (spells.joinText isName.1 isName.2) isFile fuel
  rw [expandFrom_name isName, split]
  split
  next => exact further
  next absent =>
    have none : tree.entryAt? (place ++ [name]) = none := by
      by_contra there
      exact absent ((has_joinText_iff spells isName).2 there)
    rw [FileTree.entryAt?_below (by simp [none]) file []]
    simp

/-- A star and a file find the file in each directory that has it. -/
theorem mem_expandFrom_star (spells : path.Spells place)
    (directory : tree.entryAt? place = some .directory)
    (entryNames : ∀ name, tree.entryAt? (place ++ [name]) ≠ none → IsEntryName name)
    {file : String} (isFile : IsEntryName file) (fuel : Nat) {found : Path} :
    found ∈ expandFrom tree (fuel + 2) [[.anySequence], literals file] path ↔
      ∃ name, tree.entryAt? (place ++ [name, file]) ≠ none ∧
        found = (path.joinText name).joinText file := by
  obtain ⟨names, listed⟩ := FileTree.list_of_directory spells directory
  obtain ⟨_, _, _, mem_names⟩ := FileTree.list_of_spells spells listed
  have opened : expandFrom tree (fuel + 2) [[.anySequence], literals file] path =
      names.flatMap fun name =>
        expandFrom tree (fuel + 1) [literals file] (path.joinText name) := by
    rw [expandFrom]
    have wild : literal? [.anySequence] = none := rfl
    have flat : isRecursive [.anySequence] = false := rfl
    simp [wild, flat, listed, accepts_anySequence]
  rw [opened, List.mem_flatMap]
  refine exists_congr fun name => ?_
  have split : place ++ [name, file] = place ++ [name] ++ [file] := by simp
  rw [split, mem_names]
  constructor
  · rintro ⟨there, member⟩
    have isName := entryNames name there
    exact (mem_expandFrom_last (spells.joinText isName.1 isName.2) isFile fuel).1 member
  · rintro ⟨there, rfl⟩
    have above : tree.entryAt? (place ++ [name]) = some .directory :=
      FileTree.entryAt?_above there
    have present : tree.entryAt? (place ++ [name]) ≠ none := by simp [above]
    have isName := entryNames name present
    exact ⟨present,
      (mem_expandFrom_last (spells.joinText isName.1 isName.2) isFile fuel).2 ⟨there, rfl⟩⟩

/-! ## What a pattern finds -/

/-- Pieces of a pattern that are names without wildcards, and lead from the top to a place. -/
structure Guides (guide : List String) (place : Place) : Prop where
  plain : ∀ name ∈ guide, IsPlain name
  level : ".." ∉ guide
  noSlash : ∀ name ∈ guide, '/' ∉ name.toList
  leads : (guide.filter fun piece => !Path.isIdle piece) = place

/-- The text of a pattern of simple pieces is a pattern. -/
theorem compile_text_of_simple {pattern : Path} (simple : ∀ piece ∈ pattern.pieces, IsSimple piece) :
    ∃ tokens, compile pattern.text.toList = .ok tokens := by
  rw [Path.text, Path.toList_slashed, compile]
  exact compiles_intercalate simple _ none 0

/-- A pattern that ends in two pieces after its guide is expanded from where the guide leads. -/
theorem expand_of_guides {pattern : Path} {guide : List String} {piece file : String}
    (pieces : pattern.pieces = "" :: (guide ++ [piece, file])) (guides : Guides guide place)
    (simple : IsSimple piece) (plainFile : IsPlain file)
    (directory : tree.entryAt? place = some .directory) :
    ∃ (parent : Path) (fuel : Nat), parent.Spells place ∧
      expand tree pattern =
        .ok (expandFrom tree (fuel + 2) [unitsOf piece, literals file] parent) := by
  have allSimple : ∀ name ∈ guide ++ [piece, file], IsSimple name := by
    intro name member
    rcases List.mem_append.1 member with before | last
    · exact .inl (guides.plain name before)
    · rcases List.mem_pair.1 last with equal | equal
      · rwa [equal]
      · exact .inl (equal ▸ plainFile)
  obtain ⟨tokens, whole⟩ : ∃ tokens, compile pattern.text.toList = .ok tokens := by
    refine compile_text_of_simple ?_
    rw [pieces]
    exact List.forall_mem_cons.2 ⟨.inl (by decide), allSimple⟩
  have absolute : pattern.isAbsolute = true := by
    rw [Path.isAbsolute_iff, pieces]
    cases guide with
    | nil => exact ⟨_, _, rfl⟩
    | cons first rest => exact ⟨_, _, rfl⟩
  have units : (guide ++ [piece, file]).mapM (fun piece => compile piece.toList) =
      .ok (guide.map literals ++ [unitsOf piece, literals file]) := by
    rw [Results.mapM_eq_ok_map fun name member => compile_of_simple (allSimple name member),
      List.map_append,
      List.map_congr_left fun name member => unitsOf_of_plain (guides.plain name member)]
    simp [unitsOf_of_plain plainFile]
  have long : guide.length + 2 ≤
      ((guide.map literals ++ [unitsOf piece, literals file]).length + 1) * (tree.size + 2) := by
    refine le_trans ?_ (Nat.le_mul_of_pos_right _ (Nat.succ_pos _))
    simp
  obtain ⟨fuel, enough⟩ := Nat.exists_eq_add_of_le long
  rw [Nat.add_right_comm, Nat.add_assoc] at enough
  have start : (⟨["", ""]⟩ : Path).Spells [] := by decide
  obtain ⟨parent, spells, same⟩ := expandFrom_literals start guides.level guides.noSlash
    (by rwa [guides.leads, List.nil_append]) (fuel + 2) [unitsOf piece, literals file]
    (List.cons_ne_nil _ _)
  rw [guides.leads, List.nil_append] at spells
  refine ⟨parent, fuel, spells, ?_⟩
  rw [expand, whole, Results.ok_bind, if_pos absolute, pieces, List.drop_one, List.tail_cons]
  simp only [units, Results.ok_bind, enough, same]

/-- **A pattern of names finds a file** in the directories that its last piece but one stands for,
in the directory that the names before it lead to. -/
theorem mem_expand {pattern : Path} {guide : List String} {piece file : String}
    (pieces : pattern.pieces = "" :: (guide ++ [piece, file])) (guides : Guides guide place)
    (ends : IsPlain piece ∧ IsEntryName piece ∨ piece = "*")
    (isFile : IsEntryName file) (plainFile : IsPlain file)
    (directory : tree.entryAt? place = some .directory)
    (entryNames : piece = "*" → ∀ name, tree.entryAt? (place ++ [name]) ≠ none →
      IsEntryName name) :
    ∃ (parent : Path) (paths : List Path), parent.Spells place ∧
      expand tree pattern = .ok paths ∧ ∀ found, found ∈ paths ↔
        ∃ name, (piece = "*" ∨ name = piece) ∧ tree.entryAt? (place ++ [name, file]) ≠ none ∧
          found = (parent.joinText name).joinText file := by
  obtain ⟨parent, fuel, spells, expanded⟩ :=
    expand_of_guides pieces guides (ends.imp_left And.left) plainFile directory
  refine ⟨parent, _, spells, expanded, fun found => ?_⟩
  rcases ends with ⟨plainPiece, isName⟩ | rfl
  · have different : piece ≠ "*" := by
      rintro rfl
      exact absurd plainPiece (by decide)
    rw [unitsOf_of_plain plainPiece, mem_expandFrom_name spells isName isFile]
    simp [different]
  · rw [unitsOf, if_pos rfl, mem_expandFrom_star spells directory (entryNames rfl) isFile]
    simp

end Found

end Uplift.Glob
