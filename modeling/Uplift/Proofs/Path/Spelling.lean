import Uplift.Path.Lexical
import Uplift.Proofs.Path.FileName

/-!
# Paths that spell places

A path *spells* a place if it starts at the root and its other components are the names of the
place, in order; doubled slashes and single dots do not count (`Spells`).  An absolute path in
normal form spells the place of its names (`spells_names`).

Joining a name, taking the parent and resolving a text below a root all act on the place that is
spelled.  What resolves below a root adds to the root's place a nonempty list of names, each of
them a component of the text (`within?_eq_some`).
-/

set_option autoImplicit false

namespace Uplift.Path

/-- The name that a component is, if it is one. -/
def Component.name? : Component → Option String
  | .normal name => some name
  | _ => none

/-- The names along a path, in order. -/
def names (path : Path) : List String :=
  path.components.filterMap Component.name?

/-- A path starts at the root and goes on with the names of a place. -/
def Spells (path : Path) (place : List String) : Prop :=
  path.components = .root :: place.map .normal

instance (path : Path) (place : List String) : Decidable (path.Spells place) :=
  inferInstanceAs (Decidable (_ = _))

theorem Spells.names {path : Path} {place : List String} (spells : path.Spells place) :
    path.names = place := by
  have named : (place.map Component.normal).filterMap Component.name? = place := by
    rw [List.filterMap_map]
    exact List.filterMap_some
  rw [Path.names, show path.components = _ from spells, List.filterMap_cons_none rfl, named]

theorem same_iff {first second : Path} :
    first.same second = true ↔ first.components = second.components :=
  beq_iff_eq

theorem same_comm (first second : Path) : first.same second = second.same first :=
  BEq.comm

/-- Paths that spell places are the same exactly if the places are. -/
theorem Spells.same_iff {first second : Path} {place other : List String}
    (spells : first.Spells place) (again : second.Spells other) :
    first.same second = true ↔ place = other := by
  rw [Path.same_iff, spells, again]
  constructor
  · intro equal
    refine List.map_inj_right (fun _ _ same => ?_) |>.1 (List.cons.inj equal).2
    cases same
    rfl
  · rintro rfl
    rfl

/-! ## Pieces -/

/-- A piece after the start of a path counts for nothing, goes up, or is a name. -/
theorem innerComponent?_cases (piece : String) :
    isIdle piece = true ∧ innerComponent? piece = none ∨
      piece = ".." ∧ innerComponent? piece = some .parent ∨
        IsName piece ∧ innerComponent? piece = some (.normal piece) := by
  by_cases empty : piece = ""
  · subst empty
    exact .inl ⟨rfl, rfl⟩
  · by_cases dot : piece = "."
    · subst dot
      exact .inl ⟨rfl, rfl⟩
    · by_cases up : piece = ".."
      · subst up
        exact .inr (.inl ⟨rfl, rfl⟩)
      · have name : IsName piece := ⟨empty, dot, up⟩
        exact .inr (.inr ⟨name, innerComponent?_of_isName name⟩)

theorem innerComponent?_of_isIdle {piece : String} (idle : isIdle piece = true) :
    innerComponent? piece = none := by
  obtain ⟨_, none⟩ | ⟨rfl, _⟩ | ⟨name, _⟩ := innerComponent?_cases piece
  · exact none
  · cases idle
  · rw [name.not_isIdle] at idle
    cases idle

theorem filterMap_innerComponent?_of_isName {pieces : List String}
    (isName : ∀ piece ∈ pieces, IsName piece) :
    pieces.filterMap innerComponent? = pieces.map .normal := by
  induction pieces with
  | nil => rfl
  | cons piece rest ih =>
      rw [List.filterMap_cons_some (innerComponent?_of_isName (isName piece List.mem_cons_self)),
        ih fun other member => isName other (List.mem_cons_of_mem _ member), List.map_cons]

/-- The names among components are names of entries. -/
theorem isName_of_mem_filterMap {pieces : List String} {name : String}
    (member : .normal name ∈ pieces.filterMap innerComponent?) : IsName name := by
  obtain ⟨piece, _, found⟩ := List.mem_filterMap.1 member
  obtain ⟨_, none⟩ | ⟨_, up⟩ | ⟨isName, same⟩ := innerComponent?_cases piece
  · rw [none] at found
    cases found
  · rw [up] at found
    cases found
  · rw [same] at found
    cases found
    exact isName

/-- Pieces that make up names only have no double dot, and the names are the pieces that are not
idle. -/
theorem pieces_of_filterMap {pieces place : List String}
    (spelled : pieces.filterMap innerComponent? = place.map .normal) :
    ".." ∉ pieces ∧ pieces.filter (fun piece => !isIdle piece) = place := by
  induction pieces generalizing place with
  | nil =>
      have empty : place = [] := by simpa using spelled.symm
      simp [empty]
  | cons piece rest ih =>
      obtain ⟨idle, none⟩ | ⟨rfl, up⟩ | ⟨isName, same⟩ := innerComponent?_cases piece
      · rw [List.filterMap_cons_none none] at spelled
        obtain ⟨flat, names⟩ := ih spelled
        refine ⟨?_, by simpa [idle] using names⟩
        rintro (_ | ⟨_, later⟩)
        · cases idle
        · exact flat later
      · rw [List.filterMap_cons_some up] at spelled
        cases place <;> simp at spelled
      · rw [List.filterMap_cons_some same] at spelled
        cases place with
        | nil => simp at spelled
        | cons name place =>
            simp only [List.map_cons, List.cons.injEq, Component.normal.injEq] at spelled
            obtain ⟨rfl, spelled⟩ := spelled
            obtain ⟨flat, names⟩ := ih spelled
            refine ⟨?_, by simpa [isName.not_isIdle] using names⟩
            rintro (_ | ⟨_, later⟩)
            · exact isName.2.2 rfl
            · exact flat later

/-- Pieces without a double dot make up names, which are the pieces that are not idle. -/
theorem filterMap_innerComponent?_of_level {pieces : List String} (level : ".." ∉ pieces) :
    pieces.filterMap innerComponent? =
      (pieces.filter fun piece => !isIdle piece).map .normal := by
  induction pieces with
  | nil => rfl
  | cons piece rest ih =>
      have others := ih fun later => level (List.mem_cons_of_mem _ later)
      obtain ⟨idle, none⟩ | ⟨rfl, _⟩ | ⟨isName, same⟩ := innerComponent?_cases piece
      · rw [List.filterMap_cons_none none, others, List.filter_cons_of_neg (by simp [idle])]
      · exact absurd List.mem_cons_self level
      · rw [List.filterMap_cons_some same, others,
          List.filter_cons_of_pos (by simp [isName.not_isIdle]), List.map_cons]

/-! ## Components -/

theorem components_absolute {path : Path} {first : String} {rest : List String}
    (pieces : path.pieces = "" :: first :: rest) :
    path.components = .root :: (first :: rest).filterMap innerComponent? := by
  rw [components, pieces]
  rfl

theorem isAbsolute_iff {path : Path} :
    path.isAbsolute = true ↔ ∃ first rest, path.pieces = "" :: first :: rest := by
  rw [isAbsolute]
  split
  next first rest pieces => exact ⟨fun _ => ⟨first, rest, pieces⟩, fun _ => rfl⟩
  next other =>
    constructor
    · intro impossible
      cases impossible
    · rintro ⟨first, rest, pieces⟩
      exact absurd pieces (other first rest)

theorem components_relative {path : Path} {first : String} {rest : List String}
    (pieces : path.pieces = first :: rest) (relative : path.isAbsolute = false) :
    path.components = (leadingComponent? first).toList ++ rest.filterMap innerComponent? := by
  obtain ⟨_⟩ := path
  cases pieces
  cases rest with
  | nil => simp [components]
  | cons second rest =>
      have notEmpty : first ≠ "" := by
        rintro rfl
        cases relative
      rw [components]
      split
      next none => cases none
      next single => cases single
      next absolute => exact absurd (List.cons.inj absolute).1 notEmpty
      next cut =>
        cases cut
        rfl

theorem components_ne_root_of_relative {piece : String} :
    ∀ component ∈ (leadingComponent? piece).toList, component ≠ .root := by
  intro component member
  rw [Option.mem_toList, leadingComponent?] at member
  split at member
  · cases member
  · split at member
    · cases member
      exact Component.noConfusion
    · split at member
      · cases member
        exact Component.noConfusion
      · cases member
        exact Component.noConfusion

/-- A path whose components start with the root is absolute. -/
theorem absolute_of_components {path : Path} {rest : List Component}
    (components : path.components = .root :: rest) :
    ∃ first more, path.pieces = "" :: first :: more ∧
      rest = (first :: more).filterMap innerComponent? := by
  obtain ⟨pieces⟩ := path
  match pieces with
  | [] => cases components
  | [piece] =>
      have here : Component.root ∈ (leadingComponent? piece).toList := by
        change (leadingComponent? piece).toList = _ at components
        rw [components]
        exact List.mem_cons_self
      exact absurd rfl (components_ne_root_of_relative _ here)
  | piece :: first :: more =>
      by_cases rooted : piece = ""
      · subst rooted
        rw [components_absolute rfl] at components
        exact ⟨first, more, rfl, (List.cons.inj components).2.symm⟩
      · have relative : (⟨piece :: first :: more⟩ : Path).components =
            (leadingComponent? piece).toList ++ (first :: more).filterMap innerComponent? :=
          components_relative rfl (by simp [isAbsolute, rooted])
        have inner : Component.root ∉ (first :: more).filterMap innerComponent? := by
          intro member
          obtain ⟨other, _, found⟩ := List.mem_filterMap.1 member
          obtain ⟨_, none⟩ | ⟨_, up⟩ | ⟨_, same⟩ := innerComponent?_cases other <;> simp_all
        have here : Component.root ∈ (leadingComponent? piece).toList := by
          have head : Component.root ∈ (⟨piece :: first :: more⟩ : Path).components := by
            rw [components]
            exact List.mem_cons_self
          rw [relative, List.mem_append] at head
          exact head.resolve_right inner
        exact absurd rfl (components_ne_root_of_relative _ here)

/-- What it takes for pieces to spell a place. -/
theorem Spells.pieces {path : Path} {place : List String} (spells : path.Spells place) :
    ∃ first rest, path.pieces = "" :: first :: rest ∧
      (first :: rest).filterMap innerComponent? = place.map .normal := by
  obtain ⟨first, rest, pieces, same⟩ := absolute_of_components spells
  exact ⟨first, rest, pieces, same.symm⟩

theorem Spells.isName {path : Path} {place : List String} (spells : path.Spells place)
    {name : String} (member : name ∈ place) : IsName name := by
  obtain ⟨first, rest, _, same⟩ := spells.pieces
  have given : .normal name ∈ (first :: rest).filterMap innerComponent? := by
    rw [same]
    exact List.mem_map_of_mem member
  exact isName_of_mem_filterMap given

/-- The plainest path of a place. -/
theorem spells_plain {place : List String} (isName : ∀ name ∈ place, IsName name)
    (nonempty : place ≠ []) : (⟨"" :: place⟩ : Path).Spells place := by
  cases place with
  | nil => exact absurd rfl nonempty
  | cons first rest =>
      rw [Spells, components_absolute rfl, filterMap_innerComponent?_of_isName isName]

theorem components_ofComponents {place : List String} (isName : ∀ name ∈ place, IsName name) :
    (ofComponents (.root :: place.map .normal)).components = .root :: place.map .normal := by
  cases place with
  | nil => rfl
  | cons first rest =>
      have plain : ofComponents (.root :: (first :: rest).map .normal) =
          ⟨"" :: first :: rest⟩ := by
        simp [ofComponents, Component.piece, Function.comp_def]
      rw [plain]
      exact spells_plain isName (by simp)

/-! ## Joining -/

theorem filterMap_openEnd (pieces : List String) :
    (openEnd pieces).filterMap innerComponent? = pieces.filterMap innerComponent? := by
  rw [openEnd]
  split
  next last =>
    obtain ⟨above, rfl⟩ := List.getLast?_eq_some_iff.1 last
    rw [List.dropLast_concat, List.filterMap_append, List.filterMap_cons_none rfl,
      List.filterMap_nil, List.append_nil]
  next => rfl

/-- The components of an absolute path that goes on with a relative one. -/
theorem components_join {path next : Path} {rest : List Component}
    (components : path.components = .root :: rest) (relative : next.isAbsolute = false)
    (some_piece : next.pieces ≠ []) :
    (path.join next).components =
      .root :: (rest ++ next.pieces.filterMap innerComponent?) := by
  obtain ⟨first, more, pieces, same⟩ := absolute_of_components components
  obtain ⟨head, tail, joined⟩ : ∃ head tail,
      openEnd (first :: more) ++ next.pieces = head :: tail := by
    cases equal : openEnd (first :: more) ++ next.pieces with
    | nil => simp_all
    | cons head tail => exact ⟨head, tail, rfl⟩
  have opened : openEnd path.pieces = "" :: openEnd (first :: more) := by
    rw [pieces, openEnd, openEnd, List.getLast?_cons_cons]
    split
    · rw [List.dropLast_cons_cons]
    · rfl
  have whole : (path.join next).pieces = "" :: head :: tail := by
    rw [join, relative]
    simp [opened, joined]
  rw [components_absolute whole, ← joined, List.filterMap_append, filterMap_openEnd, same]

/-- A text has at least one piece. -/
theorem pieces_ofText_ne_nil (text : String) : (ofText text).pieces ≠ [] := by
  intro empty
  have cut : Text.splitOn '/' text.toList = [] := by simpa [ofText] using empty
  cases chars : text.toList with
  | nil =>
      rw [chars] at cut
      cases cut
  | cons c rest =>
      rw [chars, Text.splitOn] at cut
      split at cut
      · cases cut
      · split at cut <;> cases cut

theorem isAbsolute_joinText {path : Path} (absolute : path.isAbsolute = true) (text : String) :
    (path.joinText text).isAbsolute = true := by
  cases relative : (ofText text).isAbsolute with
  | true => rw [joinText, join, if_pos relative, relative]
  | false =>
      obtain ⟨first, rest, pieces⟩ := isAbsolute_iff.1 absolute
      have joined := components_join (components_absolute pieces) relative
        (pieces_ofText_ne_nil text)
      obtain ⟨first, rest, whole, _⟩ := absolute_of_components joined
      exact isAbsolute_iff.2 ⟨first, rest, whole⟩

/-- The pieces of a joined path are those of its parts. -/
theorem mem_pieces_joinText {path : Path} {text piece : String}
    (member : piece ∈ (path.joinText text).pieces) :
    piece ∈ path.pieces ∨ piece ∈ (ofText text).pieces := by
  rw [joinText, join] at member
  split at member
  · exact .inr member
  · refine (List.mem_append.1 member).imp_left fun opened => ?_
    rw [openEnd] at opened
    split at opened
    · exact (List.dropLast_sublist _).subset opened
    · exact opened

/-- Joining a name adds it to the place. -/
theorem Spells.joinText {path : Path} {place : List String} (spells : path.Spells place)
    {name : String} (isName : IsName name) (plain : '/' ∉ name.toList) :
    (path.joinText name).Spells (place ++ [name]) := by
  have pieces := pieces_ofText plain
  have relative : (ofText name).isAbsolute = false := by simp [isAbsolute, pieces]
  rw [Path.joinText, Spells, components_join spells relative (by simp [pieces]), pieces]
  simp [innerComponent?_of_isName isName]

/-- Joining a relative text without a double dot adds its names to the place. -/
theorem Spells.joinLevel {path : Path} {place : List String} (spells : path.Spells place)
    {text : String} (relative : (ofText text).isAbsolute = false)
    (level : ".." ∉ (ofText text).pieces) :
    (path.joinText text).Spells
      (place ++ (ofText text).pieces.filter fun piece => !isIdle piece) := by
  rw [Path.joinText, Spells, components_join spells relative (pieces_ofText_ne_nil text),
    filterMap_innerComponent?_of_level level, List.map_append]

/-! ## Taking the parent -/

theorem filterMap_dropIdleEnd (pieces : List String) :
    (dropIdleEnd pieces).filterMap innerComponent? = pieces.filterMap innerComponent? := by
  obtain ⟨idle, split, all⟩ := dropIdleEnd_append pieces
  have nothing : idle.filterMap innerComponent? = [] := by
    rw [List.filterMap_eq_nil_iff]
    exact fun piece member => innerComponent?_of_isIdle (all piece member)
  conv => rhs; rw [split, List.filterMap_append, nothing, List.append_nil]

theorem components_rebuild (pieces : List String) :
    (rebuild true pieces).components = .root :: pieces.filterMap innerComponent? := by
  cases pieces with
  | nil => rfl
  | cons first rest => exact components_absolute rfl

/-- The last of the pieces that are kept means something. -/
theorem exists_component_of_body {pieces above : List String} {last : String}
    (split : dropIdleEnd pieces = above ++ [last]) :
    ∃ component, pieces.filterMap innerComponent? =
      above.filterMap innerComponent? ++ [component] := by
  have busy : isIdle last = false := by
    refine getLast?_dropIdleEnd pieces ?_
    rw [split, List.getLast?_concat]
  have meant : ∃ component, innerComponent? last = some component := by
    obtain ⟨idle, _⟩ | ⟨_, up⟩ | ⟨_, inner⟩ := innerComponent?_cases last
    · rw [idle] at busy
      cases busy
    · exact ⟨_, up⟩
    · exact ⟨_, inner⟩
  obtain ⟨component, meant⟩ := meant
  refine ⟨component, ?_⟩
  rw [← filterMap_dropIdleEnd, split, List.filterMap_append, List.filterMap_cons_some meant,
    List.filterMap_nil]

/-- The parent of an absolute path has all components but the last, which is not the root. -/
theorem components_parent?_of_absolute {path parent : Path} {first : String} {rest : List String}
    (pieces : path.pieces = "" :: first :: rest) (found : path.parent? = some parent) :
    ∃ component, path.components = parent.components ++ [component] ∧
      parent.components ≠ [] := by
  have absolute : path.isAbsolute = true := isAbsolute_iff.2 ⟨first, rest, pieces⟩
  have body : path.body = dropIdleEnd (first :: rest) := by simp [Path.body, pieces]
  rcases List.eq_nil_or_concat path.body with empty | ⟨above, last, split⟩
  · rw [Path.parent?, empty] at found
    cases found
  · rw [List.concat_eq_append] at split
    rw [parent?_of_body split, absolute, body_rebuild_absolute] at found
    cases found
    obtain ⟨component, meant⟩ := exists_component_of_body (body ▸ split)
    refine ⟨component, ?_, ?_⟩
    · rw [components_absolute pieces, meant, components_rebuild, filterMap_dropIdleEnd]
      rfl
    · rw [components_rebuild]
      exact List.cons_ne_nil _ _

theorem exists_leadingComponent {piece : String} (some_piece : piece ≠ "") :
    ∃ component, leadingComponent? piece = some component := by
  rw [leadingComponent?, if_neg some_piece]
  split
  · exact ⟨_, rfl⟩
  · split <;> exact ⟨_, rfl⟩

theorem components_parent?_of_relative {path parent : Path} {first : String} {rest : List String}
    (pieces : path.pieces = first :: rest) (some_piece : first ≠ "")
    (found : path.parent? = some parent) :
    ∃ component, path.components = parent.components ++ [component] := by
  have relative : path.isAbsolute = false := by simp [isAbsolute, pieces, some_piece]
  have body : path.body = first :: dropIdleEnd rest := by simp [Path.body, pieces, some_piece]
  have whole := components_relative pieces relative
  rcases List.eq_nil_or_concat (dropIdleEnd rest) with empty | ⟨above, last, split⟩
  · have single : path.body = [] ++ [first] := by rw [body, empty]; rfl
    rw [parent?_of_body single, relative] at found
    cases found
    obtain ⟨component, leading⟩ := exists_leadingComponent some_piece
    rw [← filterMap_dropIdleEnd, empty, leading] at whole
    exact ⟨component, whole⟩
  · rw [List.concat_eq_append] at split
    have longer : path.body = (first :: above) ++ [last] := by rw [body, split]; rfl
    rw [parent?_of_body longer, relative, body_rebuild_relative some_piece] at found
    cases found
    obtain ⟨component, meant⟩ := exists_component_of_body split
    have parent : (⟨first :: dropIdleEnd above⟩ : Path).components =
        (leadingComponent? first).toList ++ (dropIdleEnd above).filterMap innerComponent? :=
      components_relative rfl (by simp [isAbsolute, some_piece])
    rw [filterMap_dropIdleEnd] at parent
    refine ⟨component, ?_⟩
    rw [whole, meant, ← List.append_assoc]
    exact congrArg (· ++ [component]) parent.symm

/-- **The parent of a path has all its components but the last.** -/
theorem components_parent? {path parent : Path} (found : path.parent? = some parent) :
    ∃ component, path.components = parent.components ++ [component] := by
  obtain ⟨pieces⟩ := path
  match pieces with
  | [] => cases found
  | first :: rest =>
      by_cases some_piece : first = ""
      · subst some_piece
        cases rest with
        | nil => cases found
        | cons second rest =>
            obtain ⟨component, split, _⟩ := components_parent?_of_absolute rfl found
            exact ⟨component, split⟩
      · exact components_parent?_of_relative rfl some_piece found

/-- The parent of a path spells the place above. -/
theorem Spells.parent? {path parent : Path} {place : List String} (spells : path.Spells place)
    (found : path.parent? = some parent) : parent.Spells place.dropLast := by
  obtain ⟨first, rest, pieces, _⟩ := spells.pieces
  obtain ⟨component, split, nonempty⟩ := components_parent?_of_absolute pieces found
  have whole : Component.root :: place.map .normal = parent.components ++ [component] :=
    spells.symm.trans split
  rcases List.eq_nil_or_concat place with rfl | ⟨above, name, rfl⟩
  · have lengths := congrArg List.length whole
    exact absurd (List.length_eq_zero_iff.1 (by simpa using lengths)) nonempty
  · rw [List.concat_eq_append, List.map_append, ← List.cons_append] at whole
    rw [Spells, List.concat_eq_append, List.dropLast_concat]
    exact (List.append_inj' whole rfl).1.symm

/-- Every ancestor of a path spells an initial part of its place. -/
theorem Spells.properAncestors {path : Path} {place : List String} (spells : path.Spells place)
    {fuel : Nat} {ancestor : Path} (member : ancestor ∈ properAncestors fuel path) :
    ∃ above, ancestor.Spells above ∧ above <+: place := by
  induction fuel generalizing path place with
  | zero => cases member
  | succ fuel ih =>
      rw [Path.properAncestors] at member
      split at member
      next parent found =>
        have above := spells.parent? found
        rcases List.mem_cons.1 member with rfl | higher
        · exact ⟨_, above, List.dropLast_prefix place⟩
        · obtain ⟨top, spelled, leads⟩ := ih above higher
          exact ⟨top, spelled, leads.trans (List.dropLast_prefix place)⟩
      next => cases member

theorem Spells.ancestors {path : Path} {place : List String} (spells : path.Spells place)
    {ancestor : Path} (member : ancestor ∈ path.ancestors) :
    ∃ above, ancestor.Spells above ∧ above <+: place := by
  rcases List.mem_cons.1 member with rfl | higher
  · exact ⟨place, spells, List.prefix_rfl⟩
  · exact spells.properAncestors higher

/-! ## Resolving -/

/-- The components of a place on the stack, the last name on top. -/
def stackOf (place : List String) : List Component :=
  (place.map Component.normal).reverse ++ [.root]

theorem push_normal (place : List String) (name : String) :
    push (stackOf place) (.normal name) = stackOf (place ++ [name]) := by
  simp [push, stackOf]

theorem push_parent (place : List String) :
    push (stackOf place) .parent = stackOf place.dropLast := by
  rcases List.eq_nil_or_concat place with rfl | ⟨above, last, rfl⟩
  · rfl
  · simp [push, stackOf]

theorem foldl_push_normal (place more : List String) :
    (more.map Component.normal).foldl push (stackOf place) = stackOf (place ++ more) := by
  induction more generalizing place with
  | nil => simp
  | cons name more ih =>
      rw [List.map_cons, List.foldl_cons, push_normal, ih, List.append_assoc]
      rfl

/-- Resolving what follows a place takes back a part of the place and goes on with names that
were given. -/
theorem foldl_push_inner (pieces place given : List String) :
    ∃ kept fresh, kept <+: place ∧
      (pieces.filterMap innerComponent?).foldl push (stackOf (place ++ given)) =
        stackOf (kept ++ fresh) ∧
      ∀ name ∈ fresh, name ∈ given ∨ .normal name ∈ pieces.filterMap innerComponent? := by
  induction pieces generalizing place given with
  | nil => exact ⟨place, given, List.prefix_rfl, rfl, fun _ member => .inl member⟩
  | cons piece rest ih =>
      obtain ⟨_, none⟩ | ⟨_, up⟩ | ⟨_, inner⟩ := innerComponent?_cases piece
      · rw [List.filterMap_cons_none none]
        exact ih place given
      · rw [List.filterMap_cons_some up, List.foldl_cons, push_parent]
        rcases List.eq_nil_or_concat given with rfl | ⟨above, last, rfl⟩
        · obtain ⟨kept, fresh, leads, resolved, origin⟩ := ih place.dropLast []
          rw [List.append_nil] at resolved ⊢
          refine ⟨kept, fresh, leads.trans (List.dropLast_prefix place), resolved, ?_⟩
          exact fun name member => .inr (List.mem_cons_of_mem _
            ((origin name member).resolve_left List.not_mem_nil))
        · rw [List.concat_eq_append, ← List.append_assoc, List.dropLast_concat]
          obtain ⟨kept, fresh, leads, resolved, origin⟩ := ih place above
          refine ⟨kept, fresh, leads, resolved, fun name member => ?_⟩
          exact (origin name member).imp (List.mem_append_left _) (List.mem_cons_of_mem _)
      · rw [List.filterMap_cons_some inner, List.foldl_cons, push_normal, List.append_assoc]
        obtain ⟨kept, fresh, leads, resolved, origin⟩ := ih place (given ++ [piece])
        refine ⟨kept, fresh, leads, resolved, fun name member => ?_⟩
        rcases origin name member with earlier | later
        · rcases List.mem_append.1 earlier with before | here
          · exact .inl before
          · rw [List.mem_singleton.1 here]
            exact .inr List.mem_cons_self
        · exact .inr (List.mem_cons_of_mem _ later)

theorem resolve_spelled (place : List String) :
    resolve (.root :: place.map .normal) = .root :: place.map .normal := by
  have start : push [] .root = stackOf [] := rfl
  rw [resolve, List.foldl_cons, start, foldl_push_normal, List.nil_append, stackOf]
  simp

/-- A path in normal form that spells a place. -/
theorem Spells.components_normalize {path : Path} {place : List String}
    (spells : path.Spells place) : path.normalize.Spells place := by
  rw [Spells, normalize, spells, resolve_spelled]
  exact components_ofComponents fun _ member => spells.isName member

/-- The normal form of an absolute path spells a place. -/
theorem exists_spells_normalize {path : Path} (absolute : path.isAbsolute = true) :
    ∃ place, path.normalize.Spells place := by
  obtain ⟨first, rest, pieces⟩ := isAbsolute_iff.1 absolute
  have components := components_absolute pieces
  obtain ⟨kept, fresh, above, resolved, origin⟩ := foldl_push_inner (first :: rest) [] []
  rw [List.prefix_nil.1 above, List.nil_append, List.nil_append] at resolved
  have isName : ∀ name ∈ fresh, IsName name := fun name member =>
    isName_of_mem_filterMap ((origin name member).resolve_left List.not_mem_nil)
  have start : push [] .root = stackOf [] := rfl
  have result : resolve path.components = .root :: fresh.map .normal := by
    rw [components, resolve, List.foldl_cons, start, resolved, stackOf]
    simp
  refine ⟨fresh, ?_⟩
  rw [Spells, normalize, result]
  exact components_ofComponents isName

/-- **An absolute path in normal form spells the place of its names.** -/
theorem spells_names {path : Path} (absolute : path.isAbsolute = true)
    (normalized : path.normalize.same path = true) : path.Spells path.names := by
  obtain ⟨place, normal⟩ := exists_spells_normalize absolute
  have spells : path.Spells place := by
    rw [Spells, ← same_iff.1 normalized, normal]
  rwa [spells.names]

/-- The names with which a relative path goes on are components of it. -/
theorem mem_components_of_relative {path : Path} (relative : path.isAbsolute = false)
    {name : String} (member : .normal name ∈ path.pieces.filterMap innerComponent?) :
    .normal name ∈ path.components := by
  cases pieces : path.pieces with
  | nil =>
      rw [pieces] at member
      cases member
  | cons piece rest =>
      rw [pieces] at member
      rw [components_relative pieces relative, List.mem_append]
      obtain ⟨_, none⟩ | ⟨_, up⟩ | ⟨isName, inner⟩ := innerComponent?_cases piece
      · rw [List.filterMap_cons_none none] at member
        exact .inr member
      · rw [List.filterMap_cons_some up] at member
        exact .inr ((List.mem_cons.1 member).resolve_left (by simp))
      · rw [List.filterMap_cons_some inner] at member
        rcases List.mem_cons.1 member with here | later
        · rw [leadingComponent?_of_isName isName, here]
          exact .inl List.mem_cons_self
        · exact .inr later

/-- **What a relative text resolves to from a root** keeps names of the root's place in normal form,
and goes on with names that the text gives. -/
theorem exists_resolve_join {root : Path} {place : List String} {relative : String}
    (normal : root.normalize.Spells place) (relativeText : (ofText relative).isAbsolute = false) :
    ∃ kept fresh, kept <+: place ∧
      resolve (root.normalize.join (ofText relative)).components =
        .root :: (kept ++ fresh).map .normal ∧
      (root.normalize.join (ofText relative)).normalize.Spells (kept ++ fresh) ∧
      ∀ name ∈ fresh, .normal name ∈ (ofText relative).components := by
  obtain ⟨kept, fresh, leads, resolved, origin⟩ :=
    foldl_push_inner (ofText relative).pieces place []
  have start : push [] .root = stackOf [] := rfl
  have result : resolve (root.normalize.join (ofText relative)).components =
      .root :: (kept ++ fresh).map .normal := by
    rw [components_join normal relativeText (pieces_ofText_ne_nil relative), resolve,
      List.foldl_cons, start, List.foldl_append, foldl_push_normal, List.nil_append]
    rw [List.append_nil] at resolved
    rw [resolved, stackOf]
    simp
  have given : ∀ name ∈ fresh,
      .normal name ∈ (ofText relative).pieces.filterMap innerComponent? := fun name member =>
    (origin name member).resolve_left List.not_mem_nil
  have isName : ∀ name ∈ kept ++ fresh, IsName name := by
    intro name member
    rcases List.mem_append.1 member with old | new
    · exact normal.isName (leads.subset old)
    · exact isName_of_mem_filterMap (given name new)
  refine ⟨kept, fresh, leads, result, ?_, fun name member =>
    mem_components_of_relative relativeText (given name member)⟩
  rw [Spells, normalize, result]
  exact components_ofComponents isName

/-- **What resolves below a root** adds names to the place of the root in normal form, each of them
a component of the text. -/
theorem within?_eq_some {root member : Path} {place : List String} {relative : String}
    (normal : root.normalize.Spells place) (found : within? root relative = some member) :
    ∃ added, added ≠ [] ∧ member = ⟨"" :: (place ++ added)⟩ ∧ member.Spells (place ++ added) ∧
      ∀ name ∈ added, .normal name ∈ (ofText relative).components := by
  rw [within?] at found
  split at found
  · cases found
  next absolute =>
    have relativeText : (ofText relative).isAbsolute = false := by simpa using absolute
    obtain ⟨kept, fresh, leads, result, spelled, given⟩ := exists_resolve_join normal relativeText
    simp only at found
    split at found
    next below =>
      cases found
      rw [Bool.and_eq_true, Bool.not_eq_true', startsWith, List.isPrefixOf_iff_prefix, spelled,
        normal, List.cons_prefix_cons] at below
      obtain ⟨different, _, starts⟩ := below
      have initial : place <+: kept ++ fresh := by
        obtain ⟨more, split⟩ := starts
        have names := congrArg (List.filterMap Component.name?) split
        simp only [List.filterMap_append, List.filterMap_map, Function.comp_def,
          Component.name?, List.filterMap_some] at names
        exact ⟨_, names⟩
      obtain ⟨added, split⟩ := initial
      rw [← split] at spelled result
      have nonempty : added ≠ [] := by
        rintro rfl
        rw [List.append_nil] at spelled
        rw [Bool.eq_false_iff] at different
        exact different (same_iff.2 (spelled.trans normal.symm))
      refine ⟨added, nonempty, ?_, spelled, fun name member => ?_⟩
      · rw [normalize, result]
        cases whole : place ++ added with
        | nil => simp_all
        | cons first rest => simp [ofComponents, Component.piece, Function.comp_def]
      · refine given name ?_
        obtain ⟨rest, rfl⟩ := leads
        rw [List.append_assoc] at split
        have tail : rest ++ added = fresh := List.append_cancel_left split
        rw [← tail]
        exact List.mem_append_right _ member
    next => cases found

end Uplift.Path
