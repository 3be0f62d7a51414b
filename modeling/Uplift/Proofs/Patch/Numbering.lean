import Uplift.Proofs.Patch.Grouping
import Uplift.Proofs.Patch.RoundTrip

/-!
# What the headers of a diff say

The header of a hunk gives for each side how many lines the hunk shows of it, and the number of the
first of them: one more than there are lines of that side before the hunk, or just as many if the
hunk shows none (`Numbers`).

The numbers can be found in one pass over the hunks that carries along how many lines of each side
have been used up (`renderAlong`).  Since hunks stand in order, the steps up to a hunk are those up
to the hunk before, those between the two, and no others, so the pass gives the same text as
counting from the start of the script for each hunk (`renderAlong_eq`).
-/

set_option autoImplicit false

namespace Uplift.Patch

open Text (splitLines foldCrlf)

/-! ## One pass over the hunks -/

/-- The text of hunks from a place of the script on, given the numbers of old and new lines before
that place. -/
def renderAlong (script : List (Edit Line)) : Nat → Nat → Nat → List Hunk → List Char
  | _, _, _, [] => []
  | place, oldUsed, newUsed, hunk :: later =>
    let oldBefore := oldUsed + oldCount (piece script place hunk.start)
    let newBefore := newUsed + newCount (piece script place hunk.start)
    let body := piece script hunk.start hunk.stop
    renderHeader oldBefore (oldCount body) newBefore (newCount body) ++ body.flatMap renderEdit ++
      renderAlong script hunk.stop (oldBefore + oldCount body) (newBefore + newCount body) later

/-- What is counted up to a place and from there on is what is counted up to the second place. -/
theorem count_take_add_piece {count : List (Edit Line) → Nat}
    (append : ∀ first second, count (first ++ second) = count first + count second)
    (script : List (Edit Line)) {start stop : Nat} (order : start ≤ stop) :
    count (script.take start) + count (piece script start stop) = count (script.take stop) := by
  rw [← append, take_append_piece script order]

/-- **Carrying the numbers along is counting from the start**, for hunks in order. -/
theorem renderAlong_eq {script : List (Edit Line)} {place : Nat} {hunks : List Hunk}
    (covered : Covered script place hunks) :
    renderAlong script place (oldCount (script.take place)) (newCount (script.take place)) hunks =
      hunks.flatMap (renderHunk script) := by
  induction covered with
  | done => rfl
  | @hunk place hunk later before order _ _ ih =>
      rw [renderAlong, count_take_add_piece oldCount_append script before,
        count_take_add_piece newCount_append script before,
        count_take_add_piece oldCount_append script order,
        count_take_add_piece newCount_append script order, ih]
      rfl

/-! ## Numbers of a side -/

/-- The numbers of a side of a hunk: the side has the lines before the hunk and then those shown,
and it is told how many are shown and which is the first. -/
structure Numbers (side before shown : List Line) (start count : Nat) : Prop where
  placed : before ++ shown <+: side
  count_eq : count = shown.length
  start_eq : start = if count = 0 then before.length else before.length + 1

theorem numbers_side {side : List (Edit Line) → List Line}
    (append : ∀ first second, side (first ++ second) = side first ++ side second)
    (script : List (Edit Line)) {start stop : Nat} (order : start ≤ stop) :
    Numbers (side script) (side (script.take start)) (side (piece script start stop))
      (headerStart (side (script.take start)).length (side (piece script start stop)).length)
      (side (piece script start stop)).length := by
  refine ⟨?_, rfl, rfl⟩
  rw [← append, take_append_piece script order]
  refine ⟨side (script.drop stop), ?_⟩
  rw [← append, List.take_append_drop]

/-- A header and the steps of its hunk: the hunk is written as the header and then its steps, and
the header's numbers are those of both sides. -/
structure Heads (script : List (Edit Line)) (hunk : Hunk) (header : Header) : Prop where
  written : ∃ line, Header.parse? line = some header ∧
    renderHunk script hunk = line ++ (piece script hunk.start hunk.stop).flatMap renderEdit
  old : Numbers (oldLines script) (oldLines (script.take hunk.start))
    (oldLines (piece script hunk.start hunk.stop)) header.oldStart header.oldCount
  new : Numbers (newLines script) (newLines (script.take hunk.start))
    (newLines (piece script hunk.start hunk.stop)) header.newStart header.newCount

/-- **The header of a hunk tells its numbers.** -/
theorem exists_heads (script : List (Edit Line)) {hunk : Hunk} (order : hunk.start ≤ hunk.stop) :
    ∃ header, Heads script hunk header := by
  have old := numbers_side oldLines_append script order
  have new := numbers_side newLines_append script order
  rw [length_oldLines, length_oldLines] at old
  rw [length_newLines, length_newLines] at new
  exact ⟨_, ⟨headerLine script hunk, parse?_renderHeader _ _ _ _, rfl⟩, old, new⟩

/-! ## Diffs of texts -/

/-- **Hunks and headers.**  The hunks of every script lie in it as they should.  The diff of two
texts is empty if there is no hunk, and otherwise the names of the file and then the hunks; carrying
line numbers along in one pass over the hunks gives the same text.  Each hunk is its header and its
steps, where the header's counts are the numbers of old and new lines shown, and each of its starts
is one more than the number of lines of that side before the hunk, or just that number if no line is
shown. -/
theorem hunks_grouped_and_numbered :
    (∀ script : List (Edit Line), WellGrouped script (hunks script)) ∧
    ∀ path before after : String,
      (oldLines (textScript before after) = splitLines (foldCrlf before.toList) ∧
        newLines (textScript before after) = splitLines (foldCrlf after.toList)) ∧
      (unified path before after).toList =
        (if hunks (textScript before after) = [] then []
        else "--- a/".toList ++ path.toList ++ '\n' :: ("+++ b/".toList ++ path.toList ++ '\n' ::
          (hunks (textScript before after)).flatMap (renderHunk (textScript before after)))) ∧
      renderAlong (textScript before after) 0 0 0 (hunks (textScript before after)) =
        (hunks (textScript before after)).flatMap (renderHunk (textScript before after)) ∧
      ∀ hunk ∈ hunks (textScript before after),
        ∃ header, Heads (textScript before after) hunk header := by
  refine ⟨wellGrouped_hunks, fun path before after => ?_⟩
  refine ⟨between_textScript before after, ?_, renderAlong_eq (covered_hunks _),
    fun hunk member => ?_⟩
  · rw [unified, String.toList_ofList]
    split
    next none => rw [renderScript, none]
    next changed => exact renderScript_eq path changed
  · exact exists_heads _ (Nat.le_of_lt (bounds_of_mem_hunks member).1)

/-- A first line taken away, and a last one replaced by two, seven lines further down. -/
def shiftedScript : List (Edit Line) :=
  textScript "x\n1\n2\n3\n4\n5\n6\n7\ny\n" "1\n2\n3\n4\n5\n6\n7\nz\nw\n"

theorem hunks_grouped_and_numbered_shifted :
    (⟨5, 11⟩ : Hunk) ∈ hunks shiftedScript ∧ ∃ header, Heads shiftedScript ⟨5, 11⟩ header := by
  have member : (⟨5, 11⟩ : Hunk) ∈ hunks shiftedScript := by decide +kernel
  exact ⟨member, (hunks_grouped_and_numbered.2 "f" _ _).2.2.2 ⟨5, 11⟩ member⟩

/-- Behind a line taken away the new side is one line behind the old one. -/
example : headerLine (textScript "x\n1\n2\n3\n4\n5\n6\n7\ny\n" "1\n2\n3\n4\n5\n6\n7\nz\nw\n")
    ⟨5, 11⟩ = "@@ -6,4 +5,5 @@\n".toList := by
  decide +kernel

end Uplift.Patch
