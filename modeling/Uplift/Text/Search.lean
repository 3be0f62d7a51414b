/-!
# Finding and replacing within a text

Plain substring operations on character lists: what stands before and after the first occurrence
of a character, whether a text starts with another, and the replacement of every occurrence of a
pattern, taken from left to right without overlap.
-/

set_option autoImplicit false

namespace Uplift.Text

/-- What remains of a text after an initial piece, if it starts with that piece. -/
def stripPrefix? : List Char → List Char → Option (List Char)
  | [], text => some text
  | _ :: _, [] => none
  | p :: piece, c :: text => if p = c then stripPrefix? piece text else none

/-- What remains of a text before a final piece, if it ends with that piece. -/
def stripSuffix? (piece text : List Char) : Option (List Char) :=
  (stripPrefix? piece.reverse text.reverse).map List.reverse

/-- Exactly the texts that start with the piece have a remainder, and it completes the piece. -/
theorem stripPrefix?_eq_some_iff (piece text rest : List Char) :
    stripPrefix? piece text = some rest ↔ text = piece ++ rest := by
  induction piece generalizing text with
  | nil => simp [stripPrefix?, eq_comm]
  | cons p piece ih =>
    cases text with
    | nil => simp [stripPrefix?]
    | cons c text =>
      by_cases h : p = c
      · simp [stripPrefix?, h, ih]
      · simp [stripPrefix?, h]
        intro h'
        exact absurd h'.symm h

/-- Exactly the texts that end with the piece have a remainder, and the piece completes it. -/
theorem stripSuffix?_eq_some_iff (piece text rest : List Char) :
    stripSuffix? piece text = some rest ↔ text = rest ++ piece := by
  rw [stripSuffix?, Option.map_eq_some_iff]
  constructor
  · rintro ⟨stripped, found, rfl⟩
    have reversed := (stripPrefix?_eq_some_iff _ _ _).1 found
    rw [← List.reverse_reverse text, reversed, List.reverse_append, List.reverse_reverse]
  · rintro rfl
    refine ⟨rest.reverse, (stripPrefix?_eq_some_iff _ _ _).2 ?_, List.reverse_reverse rest⟩
    rw [List.reverse_append]

/-- The text before the first occurrence of a character and the text after it. -/
def splitOnce? (mark : Char) : List Char → Option (List Char × List Char)
  | [] => none
  | c :: rest =>
    if c = mark then some ([], rest)
    else (splitOnce? mark rest).map fun (before, after) => (c :: before, after)

/-- The text before the last occurrence of a character and the text after it. -/
def splitLast? (mark : Char) (text : List Char) : Option (List Char × List Char) :=
  (splitOnce? mark text.reverse).map fun (after, before) => (before.reverse, after.reverse)

/-- The pieces between the occurrences of a character; `n` occurrences give `n + 1` pieces. -/
def splitOn (mark : Char) : List Char → List (List Char)
  | [] => [[]]
  | c :: rest =>
    if c = mark then [] :: splitOn mark rest
    else
      match splitOn mark rest with
      | [] => [[c]]
      | piece :: pieces => (c :: piece) :: pieces

/-- Whether a piece occurs in a text. -/
def occurs (piece : List Char) : List Char → Bool
  | [] => piece.isEmpty
  | c :: rest => (stripPrefix? piece (c :: rest)).isSome || occurs piece rest

/-- Every occurrence of the nonempty pattern `head :: tail` is replaced, from left to right; the
search goes on after each occurrence. -/
def replaceAll (head : Char) (tail replacement : List Char) : List Char → List Char
  | [] => []
  | c :: rest =>
    match h : stripPrefix? (head :: tail) (c :: rest) with
    | some after =>
      have : after.length < rest.length + 1 := by
        have hlen := congrArg List.length ((stripPrefix?_eq_some_iff _ _ _).1 h)
        simp only [List.length_cons, List.length_append] at hlen
        omega
      replacement ++ replaceAll head tail replacement after
    | none => c :: replaceAll head tail replacement rest
termination_by text => text.length

/-- Whether a string starts with another. -/
def startsWith (text piece : String) : Bool :=
  (stripPrefix? piece.toList text.toList).isSome

/-- Whether a string ends with another. -/
def endsWith (text piece : String) : Bool :=
  (stripSuffix? piece.toList text.toList).isSome

end Uplift.Text
