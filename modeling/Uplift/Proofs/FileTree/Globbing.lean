import Uplift.FileTree.Glob
import Uplift.Proofs.FileTree.Names
import Uplift.Proofs.Path.Display

/-!
# What a pattern finds

A piece of a pattern climbs if it leads from a directory to the one above (`Climbs`): a double dot,
or a piece with wildcards that starts with a dot and matches a double dot.  A pattern without such
pieces finds only paths that spell places (`expand_spells`).
-/

set_option autoImplicit false

namespace Uplift.Glob

open FileTree (Place)

/-! ## Pieces that climb -/

/-- Whether the units of a piece lead to the directory above. -/
def climbing (tokens : List Token) : Bool :=
  tokens.head? == some (.literal '.') && accepts tokens ['.', '.']

/-- A piece of a pattern that leads to the directory above. -/
def Climbs (piece : String) : Prop :=
  (compile piece.toList).toOption.map climbing = some true

instance (piece : String) : Decidable (Climbs piece) :=
  inferInstanceAs (Decidable (_ = _))

/-- The units of a piece without wildcards are its characters. -/
theorem eq_map_literal_of_literal? {tokens : List Token} {text : String}
    (literal : literal? tokens = some text) : tokens = text.toList.map .literal := by
  rw [literal?] at literal
  obtain ⟨chars, given, rfl⟩ := Option.map_eq_some_iff.1 literal
  rw [String.toList_ofList]
  clear literal
  induction tokens generalizing chars with
  | nil =>
      cases given
      rfl
  | cons token tokens ih =>
      rw [List.mapM_cons] at given
      obtain ⟨c, first, rest⟩ := Option.bind_eq_some_iff.1 given
      obtain ⟨more, others, equal⟩ := Option.bind_eq_some_iff.1 rest
      cases equal
      cases token with
      | literal d =>
          cases first
          rw [List.map_cons, ← ih more others]
      | _ => cases first

/-- A piece of units that does not lead above, and does not lead down by more than one name. -/
structure Steady (tokens : List Token) : Prop where
  level : climbing tokens = false
  plain : ∀ text, literal? tokens = some text → '/' ∉ text.toList

/-- The text of a steady piece is a name or means nothing. -/
theorem Steady.literal_cases {tokens : List Token} (steady : Steady tokens) {text : String}
    (literal : literal? tokens = some text) : Path.isIdle text = true ∨ IsName text := by
  rcases Path.innerComponent?_cases text with ⟨idle, _⟩ | ⟨rfl, _⟩ | ⟨isName, _⟩
  · exact .inl idle
  · have level := steady.level
    rw [eq_map_literal_of_literal? literal] at level
    revert level
    decide
  · exact .inr isName

/-! ## One step of an expansion -/

/-- What is found from a path with the pieces that are left: the path itself if there are none. -/
def further (tree : FileTree) (fuel : Nat) (rest : List (List Token)) (next : Path) : List Path :=
  if rest.isEmpty then [next] else expandFrom tree fuel rest next

/-- What is found by a name if the first of the pieces accepts it. -/
def foundBy (tree : FileTree) (fuel : Nat) (path : Path) (pieces : List (List Token))
    (name : String) : List Path :=
  match pieces with
  | [] => []
  | first :: rest =>
    if accepts first name.toList then further tree fuel rest (path.joinText name) else []

/-- What is found by a name that a directory lists. -/
def foundBelow (tree : FileTree) (fuel : Nat) (piece : List Token) (pieces : List (List Token))
    (path : Path) (name : String) : List Path :=
  let child := path.joinText name
  if isRecursive piece then
    let rest := pieces.dropWhile isRecursive
    if tree.hasDirectory child then
      expandFrom tree fuel (piece :: rest) child ++
        (if rest.isEmpty then [child] else foundBy tree fuel path rest name)
    else foundBy tree fuel path rest name
  else foundBy tree fuel path (piece :: pieces) name

/-- What is found by the dots that a piece accepts. -/
def foundByDots (tree : FileTree) (fuel : Nat) (piece : List Token) (pieces : List (List Token))
    (path : Path) : List Path :=
  if piece.head? = some (.literal '.') then
    [".", ".."].flatMap fun dot =>
      if accepts piece dot.toList then further tree fuel pieces (path.joinText dot) else []
  else []

/-- Whether a name or dots lead on from a path. -/
def leadsOn (tree : FileTree) (path : Path) (text : String) : Bool :=
  if text = "." ∨ text = ".." then tree.hasDirectory path else tree.has (path.joinText text)

theorem expandFrom_of_literal {piece : List Token} {text : String}
    (literal : literal? piece = some text) (tree : FileTree) (fuel : Nat)
    (pieces : List (List Token)) (path : Path) :
    expandFrom tree (fuel + 1) (piece :: pieces) path =
      if leadsOn tree path text then further tree fuel pieces (path.joinText text) else [] := by
  rw [expandFrom]
  simp only [literal]
  rfl

theorem expandFrom_of_wildcards {piece : List Token} (wild : literal? piece = none)
    (tree : FileTree) (fuel : Nat) (pieces : List (List Token)) (path : Path) :
    expandFrom tree (fuel + 1) (piece :: pieces) path =
      match tree.list path with
      | .error _ => []
      | .ok names =>
        names.flatMap (foundBelow tree fuel piece pieces path) ++
          foundByDots tree fuel piece pieces path := by
  rw [expandFrom]
  simp only [wild]
  rfl

/-! ## Paths found -/

theorem spells_joinText_idle {path : Path} {place : Place} (spells : path.Spells place)
    {text : String} (idle : Path.isIdle text = true) : (path.joinText text).Spells place := by
  have plain : '/' ∉ text.toList := by
    rcases (by simpa [Path.isIdle] using idle : text = "" ∨ text = ".") with rfl | rfl <;> decide
  have pieces := Path.pieces_ofText plain
  have relative : (Path.ofText text).isAbsolute = false := by simp [Path.isAbsolute, pieces]
  rw [Path.joinText, Path.Spells,
    Path.components_join spells relative (by simp [pieces]), pieces]
  simp [Path.innerComponent?_of_isIdle idle]

/-- One step of an expansion: from a path and the pieces that are left, to another path and pieces
among these. -/
inductive Leads (tree : FileTree) (path : Path) (pieces : List (List Token)) :
    List (List Token) → Path → Prop where
  /-- A piece without wildcards is followed as it is written. -/
  | literal {piece : List Token} {text : String} {rest : List (List Token)} :
      piece ∈ pieces → literal? piece = some text → rest ⊆ pieces →
      Leads tree path pieces rest (path.joinText text)
  /-- A name in the directory is followed. -/
  | listed {names : List String} {name : String} {rest : List (List Token)} :
      tree.list path = .ok names → name ∈ names → rest ⊆ pieces →
      Leads tree path pieces rest (path.joinText name)
  /-- A piece that starts with a dot may stand for the dots. -/
  | dots {piece : List Token} {text : String} {rest : List (List Token)} :
      piece ∈ pieces → piece.head? = some (.literal '.') → accepts piece text.toList = true →
      text = "." ∨ text = ".." → rest ⊆ pieces →
      Leads tree path pieces rest (path.joinText text)

section Finding

variable {tree : FileTree}

theorem leads_of_mem_further {fuel : Nat} {pieces rest : List (List Token)}
    {path next found : Path} (leads : Leads tree path pieces rest next)
    (member : found ∈ further tree fuel rest next) :
    ∃ rest next, Leads tree path pieces rest next ∧
      (found = next ∨ found ∈ expandFrom tree fuel rest next) := by
  refine ⟨rest, next, leads, ?_⟩
  rw [further] at member
  split at member
  · exact .inl (List.mem_singleton.1 member)
  · exact .inr member

/-- A name that the first of the remaining pieces accepts is followed. -/
theorem leads_of_mem_foundBy {fuel : Nat} {pieces rest : List (List Token)} {path found : Path}
    {names : List String} {name : String} (listed : tree.list path = .ok names)
    (present : name ∈ names) (within : rest ⊆ pieces)
    (member : found ∈ foundBy tree fuel path rest name) :
    ∃ rest next, Leads tree path pieces rest next ∧
      (found = next ∨ found ∈ expandFrom tree fuel rest next) := by
  cases rest with
  | nil => cases member
  | cons first rest =>
      rw [foundBy] at member
      split at member
      · exact leads_of_mem_further (.listed listed present
          fun other remains => within (List.mem_cons_of_mem _ remains)) member
      · cases member

theorem leads_of_mem_foundBelow {fuel : Nat} {piece : List Token} {pieces : List (List Token)}
    {path found : Path} {names : List String} {name : String} (listed : tree.list path = .ok names)
    (present : name ∈ names) (member : found ∈ foundBelow tree fuel piece pieces path name) :
    ∃ rest next, Leads tree path (piece :: pieces) rest next ∧
      (found = next ∨ found ∈ expandFrom tree fuel rest next) := by
  have later : pieces.dropWhile isRecursive ⊆ piece :: pieces :=
    fun other remains => List.mem_cons_of_mem _ ((List.dropWhile_sublist _).subset remains)
  rw [foundBelow] at member
  dsimp only at member
  split at member
  · split at member
    · rcases List.mem_append.1 member with deeper | matched
      · exact ⟨_, _, .listed listed present
          (List.cons_subset.2 ⟨List.mem_cons_self, later⟩), .inr deeper⟩
      · split at matched
        · exact ⟨[], _, .listed listed present (List.nil_subset _),
            .inl (List.mem_singleton.1 matched)⟩
        · exact leads_of_mem_foundBy listed present later matched
    · exact leads_of_mem_foundBy listed present later member
  · exact leads_of_mem_foundBy listed present (List.Subset.refl _) member

theorem leads_of_mem_foundByDots {fuel : Nat} {piece : List Token} {pieces : List (List Token)}
    {path found : Path} (member : found ∈ foundByDots tree fuel piece pieces path) :
    ∃ rest next, Leads tree path (piece :: pieces) rest next ∧
      (found = next ∨ found ∈ expandFrom tree fuel rest next) := by
  rw [foundByDots] at member
  split at member
  next starts =>
    obtain ⟨text, either, member⟩ := List.mem_flatMap.1 member
    split at member
    next matched =>
      exact leads_of_mem_further (.dots List.mem_cons_self starts matched (by simpa using either)
        (List.subset_cons_self piece pieces)) member
    next => cases member
  next => cases member

/-- Whatever is found is where a step leads, or is found from there. -/
theorem leads_of_mem_expandFrom {fuel : Nat} {pieces : List (List Token)} {path found : Path}
    (member : found ∈ expandFrom tree (fuel + 1) pieces path) :
    ∃ rest next, Leads tree path pieces rest next ∧
      (found = next ∨ found ∈ expandFrom tree fuel rest next) := by
  cases pieces with
  | nil => simp [expandFrom] at member
  | cons piece pieces =>
      cases literal : literal? piece with
      | some text =>
          rw [expandFrom_of_literal literal] at member
          split at member
          · exact leads_of_mem_further
              (.literal List.mem_cons_self literal (List.subset_cons_self piece pieces)) member
          · cases member
      | none =>
          rw [expandFrom_of_wildcards literal] at member
          split at member
          next => cases member
          next names listed =>
            rcases List.mem_append.1 member with child | dots
            · obtain ⟨name, present, member⟩ := List.mem_flatMap.1 child
              exact leads_of_mem_foundBelow listed present member
            · exact leads_of_mem_foundByDots dots

/-- From a path that spells a place, steady pieces lead to such paths again. -/
theorem Leads.spells (wellFormed : tree.WellFormed) {path next : Path}
    {pieces rest : List (List Token)} (leads : Leads tree path pieces rest next)
    (steady : ∀ piece ∈ pieces, Steady piece) {place : Place} (spells : path.Spells place) :
    (∀ piece ∈ rest, Steady piece) ∧ ∃ place, next.Spells place := by
  cases leads with
  | literal member literal among =>
      have here := steady _ member
      refine ⟨fun piece remains => steady piece (among remains), ?_⟩
      rcases here.literal_cases literal with idle | isName
      · exact ⟨place, spells_joinText_idle spells idle⟩
      · exact ⟨_, spells.joinText isName (here.plain _ literal)⟩
  | listed listed present among =>
      obtain ⟨_, _, _, mem_names⟩ := FileTree.list_of_spells spells listed
      have isEntryName := wellFormed.isEntryName ((mem_names _).1 present)
      exact ⟨fun piece remains => steady piece (among remains), _,
        spells.joinText isEntryName.1 isEntryName.2⟩
  | dots member starts matched either among =>
      refine ⟨fun piece remains => steady piece (among remains), ?_⟩
      rcases either with rfl | rfl
      · exact ⟨place, spells_joinText_idle spells rfl⟩
      · have level := (steady _ member).level
        rw [climbing, starts, show accepts _ ['.', '.'] = true from matched] at level
        cases level

/-- **Without a piece that climbs, everything found spells a place.** -/
theorem expandFrom_spells (wellFormed : tree.WellFormed) {fuel : Nat}
    {pieces : List (List Token)} (steady : ∀ piece ∈ pieces, Steady piece) {path : Path}
    {place : Place} (spells : path.Spells place) {found : Path}
    (member : found ∈ expandFrom tree fuel pieces path) : ∃ place, found.Spells place := by
  induction fuel generalizing pieces path place with
  | zero => simp [expandFrom] at member
  | succ fuel ih =>
      obtain ⟨rest, next, leads, here | further⟩ := leads_of_mem_expandFrom member
      · rw [here]
        exact (leads.spells wellFormed steady spells).2
      · obtain ⟨steadyRest, _, spelled⟩ := leads.spells wellFormed steady spells
        exact ih steadyRest spelled further

/-- What follows a class is part of what the class was read from. -/
theorem subset_of_readClass? {chars items after : List Char}
    (read : readClass? chars = some (items, after)) : after ⊆ chars := by
  cases chars with
  | nil => cases read
  | cons first rest =>
      rw [readClass?] at read
      split at read
      · cases read
        intro c member
        exact List.mem_cons_of_mem _
          ((List.dropWhile_sublist _).subset ((List.drop_sublist 1 _).subset member))
      · cases read

/-- **What reading from a pattern does first**: it reads a unit, which stands for itself only if it
is the first character, and ends or goes on with a part of the rest. -/
theorem readTokens_cons {fuel : Nat} {previous : Option Char} {count : Nat} {d : Char}
    {rest : List Char} {tokens : List Token}
    (read : readTokens (fuel + 1) previous count (d :: rest) = .ok tokens) :
    ∃ token more, tokens = token :: more ∧ (∀ c, token = .literal c → c = d) ∧
      (more = [] ∨ ∃ previous count after, after ⊆ rest ∧
        readTokens fuel previous count after = .ok more) := by
  have stars : rest.dropWhile (· = '*') ⊆ rest := (List.dropWhile_sublist _).subset
  rw [readTokens.eq_def] at read
  simp only at read
  split at read
  next =>
    obtain ⟨more, readMore, equal⟩ := Results.bind_eq_ok_iff.1 read
    cases equal
    exact ⟨_, more, rfl, by simp, .inr ⟨_, _, _, List.Subset.refl _, readMore⟩⟩
  next =>
    split at read
    next =>
      split at read
      · cases read
      · split at read
        · obtain ⟨more, readMore, equal⟩ := Results.bind_eq_ok_iff.1 read
          cases equal
          exact ⟨_, more, rfl, by simp, .inr ⟨_, _, _, stars, readMore⟩⟩
        · split at read
          · split at read
            next =>
              cases read
              exact ⟨_, [], rfl, by simp, .inl rfl⟩
            next after remaining =>
              obtain ⟨more, readMore, equal⟩ := Results.bind_eq_ok_iff.1 read
              cases equal
              have within : after ⊆ rest := by
                refine fun e present => stars ?_
                rw [remaining]
                exact List.mem_cons_of_mem _ present
              exact ⟨_, more, rfl, by simp, .inr ⟨_, _, _, within, readMore⟩⟩
            next => cases read
          · cases read
    next =>
      split at read
      next =>
        split at read
        next items after inClass =>
          obtain ⟨more, readMore, equal⟩ := Results.bind_eq_ok_iff.1 read
          cases equal
          have within : after ⊆ rest := by
            refine fun e present => ?_
            have among := subset_of_readClass? inClass present
            split at among
            · exact List.mem_cons_of_mem _ among
            · exact among
          refine ⟨_, more, rfl, ?_, .inr ⟨_, _, _, within, readMore⟩⟩
          split <;> simp
        next => cases read
      next =>
        obtain ⟨more, readMore, equal⟩ := Results.bind_eq_ok_iff.1 read
        cases equal
        exact ⟨_, more, rfl, by simp, .inr ⟨_, _, _, List.Subset.refl _, readMore⟩⟩

/-- Characters that stand for themselves are characters of the pattern. -/
theorem mem_of_readTokens {fuel : Nat} {previous : Option Char} {count : Nat} {chars : List Char}
    {tokens : List Token} (read : readTokens fuel previous count chars = .ok tokens) {c : Char}
    (member : .literal c ∈ tokens) : c ∈ chars := by
  induction fuel generalizing previous count chars tokens with
  | zero =>
      cases read
      cases member
  | succ fuel ih =>
      cases chars with
      | nil =>
          cases read
          cases member
      | cons d rest =>
          obtain ⟨token, more, rfl, itself, further⟩ := readTokens_cons read
          rcases List.mem_cons.1 member with same | later
          · rw [itself c same.symm]
            exact List.mem_cons_self
          · obtain rfl | ⟨_, _, after, within, readMore⟩ := further
            · cases later
            · exact List.mem_cons_of_mem _ (within (ih readMore later))

/-- The units of a piece without a slash that does not climb are steady. -/
theorem steady_of_compile {piece : String} {tokens : List Token}
    (compiled : compile piece.toList = .ok tokens) (level : ¬ Climbs piece)
    (plain : '/' ∉ piece.toList) : Steady tokens := by
  refine ⟨?_, fun text literal slash => plain ?_⟩
  · rw [Climbs, compiled] at level
    simpa [Except.toOption] using level
  · rw [eq_map_literal_of_literal? literal] at compiled
    exact mem_of_readTokens compiled (List.mem_map_of_mem slash)

/-- **A pattern without a piece that climbs finds paths that spell places.** -/
theorem expand_spells (wellFormed : tree.WellFormed) {pattern : Path}
    (absolute : pattern.isAbsolute = true)
    (plain : ∀ piece ∈ pattern.pieces, '/' ∉ piece.toList ∧ ¬ Climbs piece)
    {paths : List Path} (expanded : expand tree pattern = .ok paths) {found : Path}
    (member : found ∈ paths) : ∃ place, found.Spells place := by
  obtain ⟨_, _, rest⟩ := Results.bind_eq_ok_iff.1 expanded
  rw [if_pos absolute] at rest
  obtain ⟨pieces, compiled, equal⟩ := Results.bind_eq_ok_iff.1 rest
  cases equal
  have start : (⟨["", ""]⟩ : Path).Spells [] := by decide
  refine expandFrom_spells wellFormed (fun tokens among => ?_) start member
  obtain ⟨piece, given, tokensOf⟩ := (Results.mapM_eq_ok_iff.1 compiled).of_mem among
  obtain ⟨noSlash, level⟩ := plain piece (List.mem_of_mem_drop given)
  exact steady_of_compile tokensOf level noSlash

end Finding

end Uplift.Glob
