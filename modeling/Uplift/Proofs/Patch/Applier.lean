import Uplift.Proofs.Patch.Hunks
import Uplift.Text.Search

/-!
# A strict applier of unified diffs

The applier reads a diff line by line and nothing else: two lines that name the file, then hunks.
A hunk's header must give the place that the applier has reached on the new side, and must not go
back on the old one; the source lines before the hunk are copied.  After a header exactly as many
lines follow as it counts on each side.  A kept or removed line must be the next source line,
terminator included: a line followed by the note that it lacks its terminator stands for the line
without one.  Anything else makes the applier fail.

Each line of a diff is one step (`Progress.step`), and a diff is applied by taking its steps in
order (`Progress.run`).
-/

set_option autoImplicit false

namespace Uplift.Patch

/-! ## Headers -/

/-- What a header says of the two sides of its hunk. -/
structure Header where
  oldStart : Nat
  oldCount : Nat
  newStart : Nat
  newCount : Nat
  deriving DecidableEq, Repr

/-- Reads a number in decimal digits. -/
def readNumber? (text : List Char) : Option (Nat × List Char) :=
  let digits := text.takeWhile Char.isDigit
  if digits.isEmpty then none
  else some (Nat.ofDigitChars 10 digits 0, text.dropWhile Char.isDigit)

/-- Reads the two numbers of a side after the text that introduces them. -/
def readSide? (lead : String) (text : List Char) : Option ((Nat × Nat) × List Char) := do
  let (start, text) ← readNumber? (← Text.stripPrefix? lead.toList text)
  let (count, text) ← readNumber? (← Text.stripPrefix? [','] text)
  some ((start, count), text)

/-- The header that a line spells. -/
def Header.parse? (line : Line) : Option Header := do
  let (old, rest) ← readSide? "@@ -" line
  let (new, rest) ← readSide? " +" rest
  if rest = " @@\n".toList then some ⟨old.1, old.2, new.1, new.2⟩ else none

/-- The number of lines before a side: the number of its first line is one more, unless it covers
no line. -/
def linesBefore? : Nat → Nat → Option Nat
  | start, 0 => some start
  | 0, _ + 1 => none
  | start + 1, _ + 1 => some start

/-! ## Applying lines -/

/-- How far a diff has been applied. -/
structure Progress where
  /-- The number of source lines used up. -/
  used : Nat
  /-- The source lines left. -/
  source : List Line
  /-- The lines produced. -/
  output : List Line
  /-- The number of old lines that the hunk has still to cover. -/
  oldLeft : Nat
  /-- The number of new lines that the hunk has still to cover. -/
  newLeft : Nat
  deriving DecidableEq, Repr

namespace Progress

/-- Nothing applied yet. -/
def start (source : List Line) : Progress :=
  ⟨0, source, [], 0, 0⟩

/-- Copies the source lines before a hunk and enters it. -/
def enter (progress : Progress) (header : Header) : Option Progress := do
  let oldBefore ← linesBefore? header.oldStart header.oldCount
  let newBefore ← linesBefore? header.newStart header.newCount
  let gap := oldBefore - progress.used
  if progress.used ≤ oldBefore ∧ gap ≤ progress.source.length ∧
      newBefore = progress.output.length + gap then
    some ⟨oldBefore, progress.source.drop gap, progress.output ++ progress.source.take gap,
      header.oldCount, header.newCount⟩
  else none

/-- Uses up a line, which must be the next of the source and one the hunk still has to cover. -/
def useLine (progress : Progress) (line : Line) : Option Progress :=
  match progress.source, progress.oldLeft with
  | next :: source, oldLeft + 1 =>
    if next = line then
      some { progress with used := progress.used + 1, source := source, oldLeft := oldLeft }
    else none
  | _, _ => none

/-- Produces a line, which must be one the hunk still has to cover. -/
def yieldLine (progress : Progress) (line : Line) : Option Progress :=
  match progress.newLeft with
  | newLeft + 1 =>
    some { progress with output := progress.output ++ [line], newLeft := newLeft }
  | 0 => none

/-- Applies a line of a hunk's body. -/
def applyLine (progress : Progress) : Line → Option Progress
  | ' ' :: line => do (← progress.useLine line).yieldLine line
  | '-' :: line => progress.useLine line
  | '+' :: line => progress.yieldLine line
  | _ => none

/-- Applies a line of a diff: a header between hunks, else a line of the hunk's body. -/
def step (progress : Progress) (line : Line) : Option Progress :=
  if progress.oldLeft = 0 ∧ progress.newLeft = 0 then do
    progress.enter (← Header.parse? line)
  else progress.applyLine line

/-- Applies lines one after another. -/
def run (progress : Progress) (lines : List Line) : Option Progress :=
  lines.foldlM step progress

/-- The lines produced when nothing more follows: those of the source that are left are copied, and
the last hunk must be complete. -/
def finish (progress : Progress) : Option (List Line) :=
  if progress.oldLeft = 0 ∧ progress.newLeft = 0 then some (progress.output ++ progress.source)
  else none

/-- Between hunks a step reads a header. -/
theorem step_header {progress : Progress} (complete : progress.oldLeft = 0 ∧ progress.newLeft = 0)
    {line : Line} {header : Header} (parsed : Header.parse? line = some header) :
    progress.step line = progress.enter header := by
  rw [step, if_pos complete, parsed]
  rfl

/-- Inside a hunk a step applies a line of its body. -/
theorem step_body {progress : Progress}
    (incomplete : ¬ (progress.oldLeft = 0 ∧ progress.newLeft = 0)) (line : Line) :
    progress.step line = progress.applyLine line := by
  rw [step, if_neg incomplete]

theorem run_cons {progress next : Progress} {line : Line} (first : progress.step line = some next)
    (lines : List Line) : progress.run (line :: lines) = next.run lines := by
  rw [run, List.foldlM_cons, first]
  rfl

theorem run_append {progress next : Progress} {lines : List Line}
    (first : progress.run lines = some next) (later : List Line) :
    progress.run (lines ++ later) = next.run later := by
  rw [run] at first
  rw [run, List.foldlM_append, first]
  rfl

end Progress

/-! ## Applying diffs -/

/-- The note on a line that lacks its terminator. -/
def noNewlineNote : Line :=
  "\\ No newline at end of file\n".toList

/-- Takes the terminator from every line that the note follows, and drops the notes. -/
def foldNotes : List Line → List Line
  | line :: next :: rest =>
    if next = noNewlineNote then line.dropLast :: foldNotes rest
    else line :: foldNotes (next :: rest)
  | lines => lines

/-- Applies a diff to a text.  An empty diff changes nothing. -/
def applyDiff (source diff : List Char) : Option (List Char) :=
  match foldNotes (Text.splitLines diff) with
  | [] => some source
  | oldName :: newName :: body =>
    if "--- ".toList.isPrefixOf oldName ∧ "+++ ".toList.isPrefixOf newName then do
      let progress ← (Progress.start (Text.splitLines source)).run body
      some (← progress.finish).flatten
    else none
  | _ => none

/-- A diff whose lines are known is applied by running through them. -/
theorem applyDiff_eq_some {source diff : List Char} {oldName newName : Line}
    {body lines : List Line} {progress : Progress}
    (read : foldNotes (Text.splitLines diff) = oldName :: newName :: body)
    (names : "--- ".toList.isPrefixOf oldName ∧ "+++ ".toList.isPrefixOf newName)
    (applied : (Progress.start (Text.splitLines source)).run body = some progress)
    (finished : progress.finish = some lines) : applyDiff source diff = some lines.flatten := by
  simp only [applyDiff, read, if_pos names, applied, finished, Option.bind_eq_bind,
    Option.bind_some]

end Uplift.Patch
