import Uplift.Text.Lines
import Uplift.Text.Search

/-!
# Texts cut into pieces

A text that is put together from a piece, a mark and a rest is cut there again, if the mark is not
in the piece.  The same holds of lines: a text that starts with full lines has them as its first
lines, each without the carriage return at its end (`lines_terminate_append`).  Folding drops one
such return from each line (`foldCrlf_terminate_append`), so that a text is found again after its
line feeds were written with returns (`foldCrlf_withReturns`).
-/

set_option autoImplicit false

namespace Uplift.Text

/-! ## The first and the last mark -/

section Mark

variable {mark : Char}

theorem splitOnce?_append {front : List Char} (absent : mark ∉ front) (rest : List Char) :
    splitOnce? mark (front ++ mark :: rest) = some (front, rest) := by
  induction front with
  | nil => simp [splitOnce?]
  | cons c front ih =>
      have different : c ≠ mark := fun same => absent (by simp [same])
      have others : mark ∉ front := fun member => absent (List.mem_cons_of_mem _ member)
      rw [List.cons_append, splitOnce?, if_neg different, ih others]
      rfl

theorem splitOnce?_of_not_mem {text : List Char} (absent : mark ∉ text) :
    splitOnce? mark text = none := by
  induction text with
  | nil => rfl
  | cons c text ih =>
      have different : c ≠ mark := fun same => absent (by simp [same])
      have others : mark ∉ text := fun member => absent (List.mem_cons_of_mem _ member)
      rw [splitOnce?, if_neg different, ih others]
      rfl

theorem splitLast?_append {last : List Char} (absent : mark ∉ last) (front : List Char) :
    splitLast? mark (front ++ mark :: last) = some (front, last) := by
  have reversed : (front ++ mark :: last).reverse = last.reverse ++ mark :: front.reverse := by
    simp
  rw [splitLast?, reversed, splitOnce?_append (by simpa using absent)]
  simp

theorem splitLast?_of_not_mem {text : List Char} (absent : mark ∉ text) :
    splitLast? mark text = none := by
  rw [splitLast?, splitOnce?_of_not_mem (by simpa using absent)]
  rfl

end Mark

/-! ## Lines -/

/-- A text that starts with a full line. -/
theorem splitLines_append {content : List Char} (plain : '\n' ∉ content) (rest : List Char) :
    splitLines (content ++ '\n' :: rest) = (content ++ ['\n']) :: splitLines rest := by
  induction content with
  | nil => rfl
  | cons c content ih =>
      have head : c ≠ '\n' := fun equal => plain (equal ▸ List.mem_cons_self)
      have tail := ih fun member => plain (List.mem_cons_of_mem _ member)
      rw [List.cons_append, splitLines, if_neg head, tail]
      rfl

/-- A text without a line feed is one piece, if it is anything. -/
theorem splitLines_of_plain {text : List Char} (plain : '\n' ∉ text) (nonempty : text ≠ []) :
    splitLines text = [text] := by
  induction text with
  | nil => exact absurd rfl nonempty
  | cons c text ih =>
      have head : c ≠ '\n' := fun equal => plain (equal ▸ List.mem_cons_self)
      rw [splitLines, if_neg head]
      cases text with
      | nil => rfl
      | cons d text =>
          rw [ih (fun member => plain (List.mem_cons_of_mem _ member)) (List.cons_ne_nil d text)]

/-- Induction over the full lines that a text starts with. -/
@[elab_as_elim]
theorem full_line_induction {motive : List Char → Prop} (text : List Char)
    (last : ∀ text, '\n' ∉ text → motive text)
    (full : ∀ content rest, '\n' ∉ content → motive rest → motive (content ++ '\n' :: rest)) :
    motive text := by
  suffices passed : ∀ content, '\n' ∉ content → motive (content ++ text) from
    passed [] List.not_mem_nil
  induction text with
  | nil =>
      intro content plain
      rw [List.append_nil]
      exact last content plain
  | cons c text ih =>
      intro content plain
      by_cases ends : c = '\n'
      · rw [ends]
        exact full content text plain (ih [] List.not_mem_nil)
      · rw [List.append_cons]
        exact ih _ (by simp [plain, Ne.symm ends])

/-- A line without the carriage return at its end, if there is one. -/
def dropReturn (line : List Char) : List Char :=
  if line.getLast? = some '\r' then line.dropLast else line

theorem dropReturn_of_last {line : List Char} (last : line.getLast? ≠ some '\r') :
    dropReturn line = line :=
  if_neg last

theorem dropReturn_sublist (line : List Char) : (dropReturn line).Sublist line := by
  unfold dropReturn
  split
  · exact List.dropLast_sublist line
  · exact List.Sublist.refl line

theorem not_mem_dropReturn {c : Char} {line : List Char} (absent : c ∉ line) :
    c ∉ dropReturn line := fun member =>
  absent ((dropReturn_sublist line).subset member)

theorem dropReturn_concat (front : List Char) (last : Char) :
    dropReturn (front ++ [last]) = if last = '\r' then front else front ++ [last] := by
  rw [dropReturn, List.getLast?_concat, List.dropLast_concat]
  simp only [Option.some.injEq]

theorem dropReturn_append (front : List Char) {line : List Char} (nonempty : line ≠ []) :
    dropReturn (front ++ line) = front ++ dropReturn line := by
  obtain ⟨middle, last, rfl⟩ := (List.eq_nil_or_concat line).resolve_left nonempty
  rw [List.concat_eq_append, ← List.append_assoc, dropReturn_concat, dropReturn_concat]
  split
  · rfl
  · exact List.append_assoc front middle [last]

theorem dropReturn_cons {c : Char} (other : c ≠ '\r') (line : List Char) :
    dropReturn (c :: line) = c :: dropReturn line := by
  cases line with
  | nil => exact dropReturn_of_last fun last => other (Option.some.inj last)
  | cons d line => exact dropReturn_append [c] (List.cons_ne_nil d line)

theorem stripTerminator_append (content : List Char) :
    stripTerminator (content ++ ['\n']) = dropReturn content := by
  rw [stripTerminator, List.reverse_append, List.reverse_singleton, List.singleton_append]
  rcases List.eq_nil_or_concat content with rfl | ⟨front, last, rfl⟩
  · rfl
  · rw [List.concat_eq_append, List.reverse_append, List.reverse_singleton, List.singleton_append,
      dropReturn_concat]
    by_cases returns : last = '\r'
    · rw [returns, if_pos rfl]
      exact List.reverse_reverse front
    · rw [if_neg returns]
      split
      next first =>
        cases first
        exact absurd rfl returns
      next first =>
        cases first
        rw [List.reverse_cons, List.reverse_reverse]
      next other => exact absurd rfl (other (last :: front.reverse))

theorem eq_nil_of_lines {text : List Char} (none : lines text = []) : text = [] := by
  rw [← flatten_splitLines text, List.map_eq_nil_iff.1 none, List.flatten_nil]

theorem lines_append {content : List Char} (plain : '\n' ∉ content) (rest : List Char) :
    lines (content ++ '\n' :: rest) = dropReturn content :: lines rest := by
  rw [lines, splitLines_append plain, List.map_cons, stripTerminator_append, lines]

/-- Lines as a text, each ended by a line feed. -/
def terminate (lines : List (List Char)) : List Char :=
  lines.flatMap (· ++ ['\n'])

theorem terminate_cons_append (line : List Char) (lines : List (List Char)) (rest : List Char) :
    terminate (line :: lines) ++ rest = line ++ '\n' :: (terminate lines ++ rest) := by
  simp [terminate]

/-- **The lines of a text** that starts with full lines. -/
theorem lines_terminate_append {front : List (List Char)} (plain : ∀ line ∈ front, '\n' ∉ line)
    (rest : List Char) :
    lines (terminate front ++ rest) = front.map dropReturn ++ lines rest := by
  induction front with
  | nil => rfl
  | cons line front ih =>
      have later := ih fun other member => plain other (List.mem_cons_of_mem _ member)
      rw [terminate_cons_append, lines_append (plain line List.mem_cons_self), later]
      rfl

/-! ## Carriage returns -/

/-- A character is kept if it is not a carriage return before a line feed. -/
theorem foldCrlf_cons {c : Char} {text : List Char}
    (apart : c = '\r' → text.head? ≠ some '\n') : foldCrlf (c :: text) = c :: foldCrlf text := by
  cases text with
  | nil => rfl
  | cons d text =>
      rw [foldCrlf]
      rintro returns rfl
      exact apart returns rfl

theorem foldCrlf_of_not_mem {text : List Char} (absent : '\r' ∉ text) : foldCrlf text = text := by
  induction text with
  | nil => rfl
  | cons c text ih =>
      have other : c ≠ '\r' := fun equal => absent (equal ▸ List.mem_cons_self)
      rw [foldCrlf_cons fun equal => absurd equal other,
        ih fun member => absent (List.mem_cons_of_mem _ member)]

theorem foldCrlf_append {content : List Char} (plain : '\n' ∉ content) (rest : List Char) :
    foldCrlf (content ++ '\n' :: rest) = dropReturn content ++ '\n' :: foldCrlf rest := by
  have feed : foldCrlf ('\n' :: rest) = '\n' :: foldCrlf rest := foldCrlf_cons nofun
  induction content with
  | nil => exact feed
  | cons c content ih =>
      have tail := ih fun member => plain (List.mem_cons_of_mem _ member)
      cases content with
      | nil =>
          by_cases returns : c = '\r'
          · rw [returns]
            exact foldCrlf.eq_3 rest
          · rw [List.singleton_append, foldCrlf_cons (absurd · returns), feed,
              dropReturn_cons returns]
            rfl
      | cons d content =>
          have head : (d :: content ++ '\n' :: rest).head? ≠ some '\n' := fun equal =>
            plain (by simp [Option.some.inj equal])
          rw [List.cons_append, foldCrlf_cons fun _ => head, tail]
          exact congrArg (· ++ '\n' :: foldCrlf rest)
            (dropReturn_append [c] (List.cons_ne_nil d content)).symm

/-- **Folding a text** that starts with full lines drops one return from each. -/
theorem foldCrlf_terminate_append {front : List (List Char)}
    (plain : ∀ line ∈ front, '\n' ∉ line) (rest : List Char) :
    foldCrlf (terminate front ++ rest) = terminate (front.map dropReturn) ++ foldCrlf rest := by
  induction front with
  | nil => rfl
  | cons line front ih =>
      have later := ih fun other member => plain other (List.mem_cons_of_mem _ member)
      rw [terminate_cons_append, foldCrlf_append (plain line List.mem_cons_self), later,
        List.map_cons, terminate_cons_append]

/-- A text with a carriage return before each line feed. -/
def withReturns (text : List Char) : List Char :=
  text.flatMap fun c => if c = '\n' then ['\r', '\n'] else [c]

theorem head?_withReturns (text : List Char) : (withReturns text).head? ≠ some '\n' := by
  cases text with
  | nil => exact nofun
  | cons c text =>
      rw [withReturns, List.flatMap_cons]
      split
      next => exact nofun
      next other => exact fun equal => other (Option.some.inj equal)

/-- **Folding takes the returns away again.** -/
theorem foldCrlf_withReturns (text : List Char) : foldCrlf (withReturns text) = text := by
  induction text with
  | nil => rfl
  | cons c text ih =>
      rw [withReturns, List.flatMap_cons, ← withReturns]
      split
      next feed =>
        have folded : foldCrlf (['\r', '\n'] ++ withReturns text) =
            '\n' :: foldCrlf (withReturns text) := foldCrlf.eq_3 _
        rw [folded, ih, feed]
      next =>
        rw [List.singleton_append, foldCrlf_cons fun _ => head?_withReturns text, ih]

end Uplift.Text
