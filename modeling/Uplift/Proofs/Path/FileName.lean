import Uplift.Path.Basic

/-!
# Paths that end in a name

A path whose last piece is a name has that name as its file name, however the pieces before it are
written (`fileName?_of_pieces`).  Replacing the file name replaces the last piece, and on the way
drops the idle pieces before it, which mean nothing; only the first piece of a path always stays
(`pieces_withFileName`).
-/

set_option autoImplicit false

namespace Uplift

/-- A piece that names an entry of a directory. -/
def IsName (piece : String) : Prop :=
  piece ≠ "" ∧ piece ≠ "." ∧ piece ≠ ".."

instance (piece : String) : Decidable (IsName piece) :=
  inferInstanceAs (Decidable (_ ∧ _))

theorem IsName.not_isIdle {piece : String} (name : IsName piece) : Path.isIdle piece = false := by
  simp [Path.isIdle, name.1, name.2.1]

theorem isName_of_length {piece : String} (long : 2 < piece.length) : IsName piece := by
  refine ⟨?_, ?_, ?_⟩ <;>
  · rintro rfl
    revert long
    decide

namespace Path

/-! ## Idle pieces -/

/-- What `dropIdleEnd` leaves does not end in an idle piece. -/
theorem getLast?_dropIdleEnd (pieces : List String) {last : String}
    (found : (dropIdleEnd pieces).getLast? = some last) : isIdle last = false := by
  rw [dropIdleEnd, List.getLast?_reverse] at found
  have stops := List.head?_dropWhile_not isIdle pieces.reverse
  rw [found] at stops
  simpa using stops

/-- What `dropIdleEnd` takes away is idle. -/
theorem dropIdleEnd_append (pieces : List String) :
    ∃ idle, pieces = dropIdleEnd pieces ++ idle ∧ ∀ piece ∈ idle, isIdle piece = true := by
  refine ⟨(pieces.reverse.takeWhile isIdle).reverse, ?_, ?_⟩
  · rw [dropIdleEnd, ← List.reverse_append, List.takeWhile_append_dropWhile,
      List.reverse_reverse]
  · intro piece member
    exact List.all_eq_true.1 List.all_takeWhile piece (List.mem_reverse.1 member)

/-- The pieces before a name, as replacing the name leaves them. -/
def trimAbove : List String → List String
  | [] => []
  | first :: rest => first :: dropIdleEnd rest

/-! ## The last name -/

theorem innerComponent?_of_isName {name : String} (isName : IsName name) :
    innerComponent? name = some (.normal name) := by
  simp [innerComponent?, isName.1, isName.2.1, isName.2.2]

theorem leadingComponent?_of_isName {name : String} (isName : IsName name) :
    leadingComponent? name = some (.normal name) := by
  simp [leadingComponent?, isName.1, isName.2.1, isName.2.2]

/-- A path that ends in a name has it as its file name. -/
theorem fileName?_of_pieces {path : Path} {above : List String} {name : String}
    (pieces : path.pieces = above ++ [name]) (isName : IsName name) :
    path.fileName? = some name := by
  have last : path.components.getLast? = some (.normal name) := by
    rw [components, pieces]
    cases above with
    | nil => simp [leadingComponent?_of_isName isName]
    | cons first rest =>
        have inner : ((rest ++ [name]).filterMap innerComponent?).getLast? =
            some (.normal name) := by
          simp [innerComponent?_of_isName isName]
        have longer : rest ++ [name] ≠ [] := by simp
        rw [List.cons_append]
        generalize rest ++ [name] = more at inner longer ⊢
        split
        next empty => cases empty
        next single =>
          cases single
          exact absurd rfl longer
        next absolute =>
          cases absolute
          rw [List.getLast?_cons, inner]
          rfl
        next relative =>
          cases relative
          rw [List.getLast?_append, inner]
          rfl
  rw [fileName?, last]

/-- A path that ends in a name with no slash after it has the name for its last piece. -/
theorem pieces_of_endsInName {path : Path} (named : path.endsInName = true)
    (unslashed : path.endsInSlash = false) :
    ∃ above name, path.pieces = above ++ [name] ∧ IsName name := by
  rcases List.eq_nil_or_concat path.pieces with none | ⟨above, last, split⟩
  · rw [endsInName, none] at named
    cases named
  · rw [List.concat_eq_append] at split
    rw [endsInSlash, split, List.getLast?_concat, decide_eq_false_iff_not] at unslashed
    have notEmpty : last ≠ "" := fun empty => unslashed (congrArg some empty)
    rw [endsInName, split, List.reverse_concat, List.dropWhile_cons_of_neg (by simpa)] at named
    simp only [Bool.and_eq_true, decide_eq_true_eq] at named
    exact ⟨above, last, split, notEmpty, named.1, named.2⟩

/-! ## Replacing the last name -/

theorem splitOn_of_not_mem {mark : Char} {text : List Char} (absent : mark ∉ text) :
    Text.splitOn mark text = [text] := by
  induction text with
  | nil => rfl
  | cons c rest ih =>
      have head : c ≠ mark := fun equal => absent (equal ▸ List.mem_cons_self)
      rw [Text.splitOn, if_neg head, ih fun member => absent (List.mem_cons_of_mem _ member)]

/-- A text without a slash is a path of one piece. -/
theorem pieces_ofText {text : String} (plain : '/' ∉ text.toList) :
    (ofText text).pieces = [text] := by
  rw [ofText, splitOn_of_not_mem plain]
  simp

/-- Joining a text without a slash adds one piece. -/
theorem pieces_joinText {text : String} (plain : '/' ∉ text.toList) (path : Path) :
    (path.joinText text).pieces = openEnd path.pieces ++ [text] := by
  have relative : (ofText text).isAbsolute = false := by
    simp [isAbsolute, pieces_ofText plain]
  rw [joinText, join, relative, pieces_ofText plain]
  rfl

/-- The body of a path that ends in a name: all its pieces after the root. -/
theorem body_of_pieces {path : Path} {above : List String} {name : String}
    (pieces : path.pieces = above ++ [name]) (isName : IsName name) :
    path.body = if path.isAbsolute then above.drop 1 ++ [name] else above ++ [name] := by
  rw [body, isAbsolute, pieces]
  cases above with
  | nil =>
      simp [isName.1, dropIdleEnd]
  | cons first rest =>
      by_cases absolute : first = ""
      · subst absolute
        cases rest with
        | nil => simp [dropIdleEnd, isName.not_isIdle]
        | cons second rest => simp [dropIdleEnd, isName.not_isIdle]
      · simp [absolute, dropIdleEnd, isName.not_isIdle]

theorem parent?_of_body {path : Path} {pieces : List String} {name : String}
    (body : path.body = pieces ++ [name]) :
    path.parent? = some (rebuild path.isAbsolute (rebuild path.isAbsolute pieces).body) := by
  rw [parent?, body]
  split
  next empty => simp at empty
  next => rw [List.dropLast_concat]

theorem body_rebuild_absolute (pieces : List String) :
    (rebuild true pieces).body = dropIdleEnd pieces := by
  cases pieces with
  | nil => rfl
  | cons first rest => simp [rebuild, body]

theorem body_rebuild_relative {first : String} (open_start : first ≠ "") (rest : List String) :
    (rebuild false (first :: rest)).body = first :: dropIdleEnd rest := by
  simp [rebuild, body, open_start]

theorem openEnd_of_busy {pieces : List String} (busy : pieces.getLast? ≠ some "") :
    openEnd pieces = pieces :=
  if_neg busy

/-- A first piece followed by what `dropIdleEnd` leaves has an open end, if the first has. -/
theorem openEnd_trimmed {first : String} {rest : List String}
    (busy : dropIdleEnd rest = [] → first ≠ "") :
    openEnd (first :: dropIdleEnd rest) = first :: dropIdleEnd rest := by
  refine openEnd_of_busy fun last => ?_
  cases found : (dropIdleEnd rest).getLast? with
  | none =>
      rw [List.getLast?_cons, found] at last
      exact busy (List.getLast?_eq_none_iff.1 found) (Option.some.inj last)
  | some piece =>
      rw [List.getLast?_cons, found] at last
      cases last
      have := getLast?_dropIdleEnd rest found
      cases this

/-- The directory whose path stands before the last name of a path. -/
def enclosing : List String → Path
  | [] => empty
  | first :: rest =>
    if first = "" then rebuild true (dropIdleEnd rest) else ⟨first :: dropIdleEnd rest⟩

theorem parent?_of_pieces {path : Path} {above : List String} {name : String}
    (pieces : path.pieces = above ++ [name]) (isName : IsName name) :
    path.parent? = some (enclosing above) := by
  have bodyEq := body_of_pieces pieces isName
  cases above with
  | nil =>
      have relative : path.isAbsolute = false := by simp [isAbsolute, pieces]
      rw [relative] at bodyEq
      rw [parent?_of_body bodyEq, relative]
      rfl
  | cons first rest =>
      by_cases rooted : first = ""
      · subst rooted
        have absolute : path.isAbsolute = true := by
          cases rest <;> simp [isAbsolute, pieces]
        rw [absolute] at bodyEq
        rw [parent?_of_body bodyEq, absolute, body_rebuild_absolute]
        rfl
      · have relative : path.isAbsolute = false := by simp [isAbsolute, pieces, rooted]
        rw [relative] at bodyEq
        rw [parent?_of_body bodyEq, relative, body_rebuild_relative rooted, enclosing,
          if_neg rooted]
        rfl

theorem openEnd_enclosing (above : List String) :
    openEnd (enclosing above).pieces = trimAbove above := by
  cases above with
  | nil => rfl
  | cons first rest =>
      by_cases rooted : first = ""
      · subst rooted
        cases trimmed : dropIdleEnd rest with
        | nil => simp [enclosing, trimmed, rebuild, openEnd, trimAbove]
        | cons second more =>
            have busy : openEnd ("" :: dropIdleEnd rest) = "" :: dropIdleEnd rest :=
              openEnd_trimmed (by simp [trimmed])
            rw [trimmed] at busy
            rw [enclosing, if_pos rfl, trimAbove, trimmed]
            exact busy
      · rw [enclosing, if_neg rooted, trimAbove]
        exact openEnd_trimmed fun _ => rooted

/-- **Replacing the last name** replaces the last piece and trims the pieces before it. -/
theorem pieces_withFileName {path : Path} {above : List String} {name other : String}
    (pieces : path.pieces = above ++ [name]) (isName : IsName name) (plain : '/' ∉ other.toList) :
    (path.withFileName other).pieces = trimAbove above ++ [other] := by
  rw [withFileName, fileName?_of_pieces pieces isName, Option.isSome_some, if_pos rfl,
    parent?_of_pieces pieces isName, Option.getD_some, pieces_joinText plain, openEnd_enclosing]

end Path

end Uplift
