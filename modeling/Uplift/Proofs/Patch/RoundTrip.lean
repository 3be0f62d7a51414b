import Uplift.Proofs.Patch.Rendering

/-!
# Applying a diff gives the second text

The strict applier, given the unified diff of two texts and the first of them, succeeds and
produces the second, line ends folded in both (`applyDiff_unified`).  The diff is empty exactly if
the two texts are equal.

Between two steps the applier stands at a place of the script: it has used up the old side of what
lies before the place and produced its new side (`Progress.between`).  A header takes it over the
unchanged piece before its hunk, a line of a body over one step of the script, and a hunk therefore
from the end of the hunk before it to its own end.
-/

set_option autoImplicit false

namespace Uplift.Patch

open Text (splitLines foldCrlf)

/-- The applier between two pieces of a script, with what its hunk has still to cover. -/
def Progress.between (before after : List (Edit Line)) (oldLeft newLeft : Nat) : Progress :=
  ⟨oldCount before, oldLines after, newLines before, oldLeft, newLeft⟩

/-! ## Steps -/

/-- A header's number gives back how many lines come before the side. -/
theorem linesBefore?_headerStart (before count : Nat) :
    linesBefore? (headerStart before count) count = some before := by
  cases count with
  | zero => rfl
  | succ count => rfl

/-- A header takes the applier over an unchanged piece and into its hunk. -/
theorem Progress.enter_between {gap : List (Edit Line)} (unchanged : Unchanged gap)
    (before after : List (Edit Line)) (oldLeft newLeft : Nat) :
    (Progress.between before (gap ++ after) 0 0).enter
        ⟨headerStart (oldCount (before ++ gap)) oldLeft, oldLeft,
          headerStart (newCount (before ++ gap)) newLeft, newLeft⟩ =
      some (Progress.between (before ++ gap) after oldLeft newLeft) := by
  have gap_length : oldCount (before ++ gap) - oldCount before = (oldLines gap).length := by
    rw [oldCount_append, length_oldLines]
    omega
  simp only [Progress.enter, Progress.between, linesBefore?_headerStart, Option.bind_eq_bind,
    Option.bind_some, gap_length, oldLines_append, newLines_append, List.drop_left,
    List.take_left, unchanged.sides_eq]
  rw [if_pos]
  refine ⟨?_, ?_, ?_⟩
  · rw [oldCount_append]
    omega
  · rw [List.length_append]
    omega
  · rw [newCount_append, length_newLines, length_newLines]

/-- A line of a body takes the applier over one step of the script. -/
theorem Progress.applyLine_between (edit : Edit Line) (before body after : List (Edit Line)) :
    (Progress.between before (edit :: body ++ after) (oldCount (edit :: body))
        (newCount (edit :: body))).applyLine edit.bodyLine =
      some (Progress.between (before ++ [edit]) (body ++ after) (oldCount body)
        (newCount body)) := by
  cases edit with
  | keep line =>
      simp [Progress.between, Progress.applyLine, Progress.useLine, Progress.yieldLine,
        Edit.bodyLine, Edit.mark, Edit.line]
  | remove line =>
      simp [Progress.between, Progress.applyLine, Progress.useLine, Edit.bodyLine, Edit.mark,
        Edit.line]
  | add line =>
      simp [Progress.between, Progress.applyLine, Progress.yieldLine, Edit.bodyLine, Edit.mark,
        Edit.line]

/-- The lines of a body take the applier over the hunk. -/
theorem Progress.run_body (body before after : List (Edit Line)) :
    (Progress.between before (body ++ after) (oldCount body) (newCount body)).run
        (body.map Edit.bodyLine) =
      some (Progress.between (before ++ body) after 0 0) := by
  induction body generalizing before with
  | nil => simp [Progress.run]
  | cons edit body ih =>
      have later := ih (before ++ [edit])
      rw [List.append_assoc, List.singleton_append] at later
      have inside := Progress.applyLine_between edit before body after
      rw [← Progress.step_body (counts_cons_ne_zero edit body)] at inside
      rw [← later, List.map_cons, Progress.run_cons inside]

/-- The lines of a hunk take the applier from before the unchanged piece in front of it to its
end. -/
theorem Progress.run_hunk {script : List (Edit Line)} {place : Nat} {hunk : Hunk}
    (before : place ≤ hunk.start) (order : hunk.start ≤ hunk.stop)
    (unchanged : Unchanged ((script.take hunk.start).drop place)) :
    (Progress.between (script.take place) (script.drop place) 0 0).run (hunkLines script hunk) =
      some (Progress.between (script.take hunk.stop) (script.drop hunk.stop) 0 0) := by
  have gap : Unchanged (piece script place hunk.start) := unchanged
  have entered := Progress.enter_between gap (script.take place) (script.drop hunk.start)
    (oldCount (piece script hunk.start hunk.stop)) (newCount (piece script hunk.start hunk.stop))
  have body := Progress.run_body (piece script hunk.start hunk.stop) (script.take hunk.start)
    (script.drop hunk.stop)
  rw [take_append_piece script before, piece_append_drop script before] at entered
  rw [take_append_piece script order, piece_append_drop script order] at body
  rw [← Progress.step_header ⟨rfl, rfl⟩ (parse?_renderHeader _ _ _ _)] at entered
  rw [← body]
  exact Progress.run_cons entered _

/-- **Hunks that cover a script take the applier to its end.** -/
theorem Progress.run_covered {script : List (Edit Line)} {place : Nat} {hunks : List Hunk}
    (covered : Covered script place hunks) :
    ((Progress.between (script.take place) (script.drop place) 0 0).run
        (hunks.flatMap (hunkLines script))).bind Progress.finish =
      some (newLines script) := by
  induction covered with
  | @done place unchanged =>
      have sides : newLines script =
          newLines (script.take place) ++ oldLines (script.drop place) := by
        rw [unchanged.sides_eq, ← newLines_append, List.take_append_drop]
      rw [sides]
      rfl
  | hunk before order unchanged _ ih =>
      rw [← ih, List.flatMap_cons,
        Progress.run_append (Progress.run_hunk before order unchanged)]

/-! ## Texts -/

/-- The lines of the script between two texts are lines. -/
theorem isLine_of_mem_textScript {before after : String} {edit : Edit Line}
    (member : edit ∈ textScript before after) : IsLine edit.line := by
  rcases line_mem_sides member with side | side
  · rw [textScript, oldLines_editScript] at side
    exact isLine_of_mem_splitLines side
  · rw [textScript, newLines_editScript] at side
    exact isLine_of_mem_splitLines side

/-- Cutting a text into lines loses nothing, so equal lines are equal texts. -/
theorem splitLines_inj {first second : List Char} (equal : splitLines first = splitLines second) :
    first = second := by
  rw [← Text.flatten_splitLines first, equal, Text.flatten_splitLines]

/-- The diff of two texts is empty exactly if the texts are equal, line ends folded. -/
theorem unified_eq_empty_iff (path before after : String) :
    unified path before after = "" ↔ foldCrlf before.toList = foldCrlf after.toList := by
  rw [unified, String.ofList_eq_empty_iff, renderScript_eq_nil_iff, textScript,
    editScript_unchanged_iff]
  exact ⟨splitLines_inj, congrArg splitLines⟩

/-- **Applying the diff of two texts to the first gives the second**, line ends folded in both, and
the diff is empty exactly if there is no difference. -/
theorem applyDiff_unified (path before after : String) (plain : '\n' ∉ path.toList) :
    applyDiff (foldCrlf before.toList) (unified path before after).toList =
        some (foldCrlf after.toList) ∧
      (unified path before after = "" ↔ foldCrlf before.toList = foldCrlf after.toList) := by
  refine ⟨?_, unified_eq_empty_iff path before after⟩
  by_cases same : foldCrlf before.toList = foldCrlf after.toList
  · rw [(unified_eq_empty_iff path before after).2 same, same]
    rfl
  · have changed : hunks (textScript before after) ≠ [] := by
      intro none
      rw [hunks_eq_nil_iff, textScript, editScript_unchanged_iff] at none
      exact same (splitLines_inj none)
    have start : Progress.between ((textScript before after).take 0)
        ((textScript before after).drop 0) 0 0 =
        Progress.start (splitLines (foldCrlf before.toList)) := by
      simp [Progress.between, Progress.start, textScript, oldLines_editScript]
    have covered := Progress.run_covered (covered_hunks (textScript before after))
    rw [start] at covered
    obtain ⟨progress, applied, finished⟩ := Option.bind_eq_some_iff.1 covered
    have read := foldNotes_renderScript plain (fun _ => isLine_of_mem_textScript) changed
    rw [unified, String.toList_ofList,
      applyDiff_eq_some read ⟨by simp, by simp⟩ applied finished, textScript,
      newLines_editScript, Text.flatten_splitLines]

/-- A last line that gains its terminator, under folded line ends. -/
theorem applyDiff_unified_terminator :
    '\n' ∉ "src/index.ts".toList ∧
      applyDiff (foldCrlf "a\r\nb".toList) (unified "src/index.ts" "a\r\nb" "a\nb\n").toList =
          some (foldCrlf "a\nb\n".toList) ∧
        (unified "src/index.ts" "a\r\nb" "a\nb\n" = "" ↔
          foldCrlf "a\r\nb".toList = foldCrlf "a\nb\n".toList) :=
  ⟨by decide, applyDiff_unified "src/index.ts" "a\r\nb" "a\nb\n" (by decide)⟩

end Uplift.Patch
