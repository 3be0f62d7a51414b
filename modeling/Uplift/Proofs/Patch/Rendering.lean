import Uplift.Proofs.Patch.Applier
import Uplift.Proofs.Text.Cutting

/-!
# Reading a rendered diff back

The text of a diff, cut into lines and with its notes folded, is the file names followed by the
lines of each hunk (`foldNotes_renderHunks`): the header, and one line for each step of the script,
with the mark of its kind and without its terminator if the line has none.  A header reads back as
the numbers it was written with (`parse?_renderHeader`).
-/

set_option autoImplicit false

namespace Uplift.Patch

open Text (splitLines splitLines_append)

/-! ## Lines of a text -/

/-- A line: characters without a line feed, then a line feed unless they are all. -/
inductive IsLine : Line → Prop where
  | terminated {content : List Char} : '\n' ∉ content → IsLine (content ++ ['\n'])
  | open {content : List Char} : '\n' ∉ content → content ≠ [] → IsLine content

/-- The pieces of a text are lines. -/
theorem isLine_of_mem_splitLines {text : List Char} {line : Line}
    (member : line ∈ splitLines text) : IsLine line := by
  induction text generalizing line with
  | nil => cases member
  | cons c rest ih =>
      rw [splitLines] at member
      split at member
      next =>
        rcases List.mem_cons.1 member with rfl | member
        · exact .terminated (List.not_mem_nil)
        · exact ih member
      next ordinary =>
        have longer : ∀ {content : List Char}, '\n' ∉ content → '\n' ∉ c :: content := by
          intro content plain member
          rcases List.mem_cons.1 member with equal | member
          · exact ordinary equal.symm
          · exact plain member
        split at member
        next =>
          rw [List.mem_singleton.1 member]
          exact .open (longer List.not_mem_nil) (List.cons_ne_nil _ _)
        next piece pieces split =>
          rcases List.mem_cons.1 member with rfl | member
          · cases ih (split ▸ List.mem_cons_self) with
            | terminated plain => exact .terminated (longer plain)
            | «open» plain _ => exact .open (longer plain) (List.cons_ne_nil _ _)
          · exact ih (split ▸ List.mem_cons_of_mem _ member)

/-- The first line of a text starts with the text's first character. -/
theorem head?_of_splitLines {text : List Char} {line : Line} {lines : List Line}
    (split : splitLines text = line :: lines) : line.head? = text.head? := by
  cases text with
  | nil => cases split
  | cons c rest =>
      rw [splitLines] at split
      split at split
      next equal =>
        cases split
        rw [equal]
        rfl
      next =>
        split at split
        · cases split
          rfl
        · cases split
          rfl

/-! ## Notes -/

/-- A text that does not start like the note. -/
def Unnoted (text : List Char) : Prop :=
  text.head? ≠ some '\\'

theorem foldNotes_cons {text : List Char} (unnoted : Unnoted text) (line : Line) :
    foldNotes (line :: splitLines text) = line :: foldNotes (splitLines text) := by
  cases split : splitLines text with
  | nil => rfl
  | cons next rest =>
      have other : next ≠ noNewlineNote := by
        rintro rfl
        exact unnoted (head?_of_splitLines split).symm
      rw [foldNotes, if_neg other]

theorem foldNotes_note (line : Line) (rest : List Line) :
    foldNotes (line :: noNewlineNote :: rest) = line.dropLast :: foldNotes rest := by
  rw [foldNotes, if_pos rfl]

/-! ## Lines of a hunk -/

/-- The mark of a step's kind. -/
def Edit.mark : Edit Line → Char
  | .keep _ => ' '
  | .remove _ => '-'
  | .add _ => '+'

/-- A step of a script as a line of a hunk. -/
def Edit.bodyLine (edit : Edit Line) : Line :=
  edit.mark :: edit.line

theorem Edit.mark_plain (edit : Edit Line) : edit.mark ≠ '\n' ∧ edit.mark ≠ '\\' := by
  cases edit <;> simp [Edit.mark]

/-- The note is a full line of its own. -/
theorem splitLines_note (rest : List Char) :
    splitLines (noNewlineNote ++ rest) = noNewlineNote :: splitLines rest := by
  have note : noNewlineNote = "\\ No newline at end of file".toList ++ ['\n'] := by decide
  rw [note, List.append_assoc, List.singleton_append, splitLines_append (by decide)]

theorem renderEdit_eq (edit : Edit Line) :
    renderEdit edit =
      edit.bodyLine ++ (if edit.line.getLast? = some '\n' then [] else '\n' :: noNewlineNote) := by
  cases edit <;> rfl

theorem unnoted_renderEdits {rest : List Char} (unnoted : Unnoted rest)
    (body : List (Edit Line)) : Unnoted (body.flatMap renderEdit ++ rest) := by
  cases body with
  | nil => exact unnoted
  | cons edit body =>
      rw [List.flatMap_cons, renderEdit_eq]
      intro equal
      exact edit.mark_plain.2 (Option.some.inj equal)

/-- A rendered step is read as its line. -/
theorem foldNotes_renderEdit {edit : Edit Line} (isLine : IsLine edit.line) {rest : List Char}
    (unnoted : Unnoted rest) :
    foldNotes (splitLines (renderEdit edit ++ rest)) =
      edit.bodyLine :: foldNotes (splitLines rest) := by
  have marked : ∀ {content : List Char}, '\n' ∉ content → '\n' ∉ edit.mark :: content := by
    intro content plain member
    rcases List.mem_cons.1 member with equal | member
    · exact edit.mark_plain.1 equal.symm
    · exact plain member
  rw [renderEdit_eq, Edit.bodyLine]
  generalize edit.line = line at isLine
  cases isLine with
  | terminated plain =>
      rw [if_pos (List.getLast?_concat ..), List.append_nil, ← List.cons_append, List.append_assoc,
        List.singleton_append, splitLines_append (marked plain), foldNotes_cons unnoted]
  | «open» plain _ =>
      have unterminated : line.getLast? ≠ some '\n' := fun last =>
        plain (List.mem_of_getLast? last)
      have regroup : edit.mark :: line ++ '\n' :: noNewlineNote ++ rest =
          edit.mark :: line ++ '\n' :: (noNewlineNote ++ rest) := List.append_assoc _ _ _
      rw [if_neg unterminated, regroup, splitLines_append (marked plain), splitLines_note,
        foldNotes_note, List.dropLast_concat]

/-- The rendered steps of a hunk are read as their lines. -/
theorem foldNotes_renderEdits {body : List (Edit Line)} (lines : ∀ edit ∈ body, IsLine edit.line)
    {rest : List Char} (unnoted : Unnoted rest) :
    foldNotes (splitLines (body.flatMap renderEdit ++ rest)) =
      body.map Edit.bodyLine ++ foldNotes (splitLines rest) := by
  induction body with
  | nil => rfl
  | cons edit body ih =>
      have later := ih fun other member => lines other (List.mem_cons_of_mem _ member)
      rw [List.flatMap_cons, List.append_assoc,
        foldNotes_renderEdit (lines edit List.mem_cons_self) (unnoted_renderEdits unnoted body),
        later]
      rfl

/-! ## Headers -/

/-- A number is read back from its digits, up to the first character that is none. -/
theorem readNumber?_toString (number : Nat) {rest : List Char}
    (boundary : ∀ c, rest.head? = some c → c.isDigit = false) :
    readNumber? ((toString number).toList ++ rest) = some (number, rest) := by
  have digits : (toString number).toList = Nat.toDigits 10 number := by
    rw [Nat.toString_eq_repr, Nat.toList_repr]
  have inside : ∀ c ∈ Nat.toDigits 10 number, c.isDigit = true := fun c member =>
    Nat.isDigit_of_mem_toDigits (by decide) (by decide) member
  have outside : rest.takeWhile Char.isDigit = [] ∧ rest.dropWhile Char.isDigit = rest := by
    cases rest with
    | nil => exact ⟨rfl, rfl⟩
    | cons c rest => simp [boundary c rfl]
  rw [digits, readNumber?, List.takeWhile_append_of_pos inside,
    List.dropWhile_append_of_pos inside, outside.1, outside.2, List.append_nil]
  simp [Nat.toDigits_ne_nil, Nat.ofDigitChars_ten_toDigits]

/-- Digits end before a character that is none. -/
theorem isDigit_head?_cons (first : Char) (rest : List Char) (other : first.isDigit = false) :
    ∀ c, (first :: rest).head? = some c → c.isDigit = false := by
  rintro c found
  cases found
  exact other

/-- A side is read back from its two numbers. -/
theorem readSide?_append (lead : String) (start count : Nat) {rest : List Char}
    (boundary : ∀ c, rest.head? = some c → c.isDigit = false) :
    readSide? lead (lead.toList ++ ((toString start).toList ++
      ',' :: ((toString count).toList ++ rest))) = some ((start, count), rest) := by
  have comma : ∀ text, Text.stripPrefix? [','] (',' :: text) = some text := fun text =>
    (Text.stripPrefix?_eq_some_iff _ _ _).2 rfl
  have introduced := (Text.stripPrefix?_eq_some_iff lead.toList _ _).2
    (Eq.refl (lead.toList ++ ((toString start).toList ++
      ',' :: ((toString count).toList ++ rest))))
  rw [readSide?, introduced]
  simp only [Option.bind_eq_bind, Option.bind_some]
  rw [readNumber?_toString start (isDigit_head?_cons ',' _ rfl)]
  simp only [Option.bind_some, comma]
  rw [readNumber?_toString count boundary]
  rfl

/-- The text of a header, part by part. -/
theorem renderHeader_eq (oldBefore oldCount newBefore newCount : Nat) :
    renderHeader oldBefore oldCount newBefore newCount =
      "@@ -".toList ++ ((toString (headerStart oldBefore oldCount)).toList ++
        ',' :: ((toString oldCount).toList ++
          (" +".toList ++ ((toString (headerStart newBefore newCount)).toList ++
            ',' :: ((toString newCount).toList ++ " @@\n".toList))))) := by
  have literal : ∀ text : String, toString text = text := fun _ => rfl
  simp [renderHeader, literal]

/-- A header is read back. -/
theorem parse?_renderHeader (oldBefore oldCount newBefore newCount : Nat) :
    Header.parse? (renderHeader oldBefore oldCount newBefore newCount) =
      some ⟨headerStart oldBefore oldCount, oldCount, headerStart newBefore newCount,
        newCount⟩ := by
  have middle : ∀ text c, (" +".toList ++ text).head? = some c → c.isDigit = false := fun text =>
    isDigit_head?_cons ' ' ('+' :: text) rfl
  have last : ∀ c, " @@\n".toList.head? = some c → c.isDigit = false :=
    isDigit_head?_cons ' ' ['@', '@', '\n'] rfl
  rw [renderHeader_eq, Header.parse?, readSide?_append _ _ _ (middle _)]
  simp only [Option.bind_eq_bind, Option.bind_some]
  rw [readSide?_append _ _ _ last]
  rfl

/-- A header is a full line. -/
theorem splitLines_renderHeader (oldBefore oldCount newBefore newCount : Nat)
    (rest : List Char) :
    splitLines (renderHeader oldBefore oldCount newBefore newCount ++ rest) =
      renderHeader oldBefore oldCount newBefore newCount :: splitLines rest := by
  have digits : ∀ number : Nat, '\n' ∉ (toString number).toList := by
    intro number member
    rw [Nat.toString_eq_repr, Nat.toList_repr] at member
    have digit := Nat.isDigit_of_mem_toDigits (by decide) (by decide) member
    revert digit
    decide
  obtain ⟨content, plain, full⟩ : ∃ content, '\n' ∉ content ∧
      renderHeader oldBefore oldCount newBefore newCount = content ++ ['\n'] := by
    refine ⟨"@@ -".toList ++ ((toString (headerStart oldBefore oldCount)).toList ++
      ',' :: ((toString oldCount).toList ++
        (" +".toList ++ ((toString (headerStart newBefore newCount)).toList ++
          ',' :: ((toString newCount).toList ++ " @@".toList))))), ?_, ?_⟩
    · simp [digits, -Nat.toString_eq_repr]
    · simp [renderHeader_eq]
  rw [full, List.append_assoc, List.singleton_append, splitLines_append plain]

/-! ## Hunks -/

/-- The header of a hunk. -/
def headerLine (script : List (Edit Line)) (hunk : Hunk) : Line :=
  renderHeader (oldCount (script.take hunk.start))
    (oldCount ((script.take hunk.stop).drop hunk.start)) (newCount (script.take hunk.start))
    (newCount ((script.take hunk.stop).drop hunk.start))

/-- A hunk as the lines that the applier sees. -/
def hunkLines (script : List (Edit Line)) (hunk : Hunk) : List Line :=
  headerLine script hunk :: ((script.take hunk.stop).drop hunk.start).map Edit.bodyLine

theorem unnoted_renderHunks (script : List (Edit Line)) (hunks : List Hunk) :
    Unnoted (hunks.flatMap (renderHunk script)) := by
  cases hunks with
  | nil => simp [Unnoted]
  | cons hunk hunks => simp [Unnoted, renderHunk, renderHeader_eq]

/-- The rendered hunks are read as their lines. -/
theorem foldNotes_renderHunks {script : List (Edit Line)}
    (lines : ∀ edit ∈ script, IsLine edit.line) (hunks : List Hunk) :
    foldNotes (splitLines (hunks.flatMap (renderHunk script))) =
      hunks.flatMap (hunkLines script) := by
  induction hunks with
  | nil => rfl
  | cons hunk hunks ih =>
      have later := unnoted_renderHunks script hunks
      have body : ∀ edit ∈ (script.take hunk.stop).drop hunk.start, IsLine edit.line :=
        fun edit member => lines edit (List.mem_of_mem_take (List.mem_of_mem_drop member))
      rw [List.flatMap_cons, renderHunk, List.append_assoc, splitLines_renderHeader,
        foldNotes_cons (unnoted_renderEdits later _), foldNotes_renderEdits body later, ih]
      rfl

/-! ## Diffs -/

/-- The text of a diff with hunks: a line for each name of the file, then the hunks. -/
theorem renderScript_eq (path : String) {script : List (Edit Line)} (changed : hunks script ≠ []) :
    renderScript path script =
      "--- a/".toList ++ path.toList ++ '\n' ::
        ("+++ b/".toList ++ path.toList ++ '\n' ::
          (hunks script).flatMap (renderHunk script)) := by
  have literal : ∀ text : String, toString text = text := fun _ => rfl
  rw [renderScript]
  split
  next none => exact absurd none changed
  next => simp [literal]

/-- The diff of a script is empty exactly if the script changes nothing. -/
theorem renderScript_eq_nil_iff (path : String) (script : List (Edit Line)) :
    renderScript path script = [] ↔ Unchanged script := by
  rw [← hunks_eq_nil_iff]
  constructor
  · intro empty
    refine Decidable.byContradiction fun changed => ?_
    rw [renderScript_eq path changed] at empty
    cases empty
  · intro none
    rw [renderScript, none]

/-- A diff with hunks is read as the names of the file and the lines of the hunks. -/
theorem foldNotes_renderScript {path : String} (plain : '\n' ∉ path.toList)
    {script : List (Edit Line)} (lines : ∀ edit ∈ script, IsLine edit.line)
    (changed : hunks script ≠ []) :
    foldNotes (splitLines (renderScript path script)) =
      ("--- a/".toList ++ path.toList ++ ['\n']) :: ("+++ b/".toList ++ path.toList ++ ['\n']) ::
        (hunks script).flatMap (hunkLines script) := by
  have name : ∀ {lead : List Char}, '\n' ∉ lead → '\n' ∉ lead ++ path.toList := by
    intro lead lead_plain member
    rcases List.mem_append.1 member with member | member
    · exact lead_plain member
    · exact plain member
  have unnoted := unnoted_renderHunks script (hunks script)
  have second : ∀ rest, Unnoted ("+++ b/".toList ++ path.toList ++ '\n' :: rest) := by
    simp [Unnoted]
  rw [renderScript_eq path changed, splitLines_append (name (by decide)),
    foldNotes_cons (second _), splitLines_append (name (by decide)), foldNotes_cons unnoted,
    foldNotes_renderHunks lines]

end Uplift.Patch
