import Mathlib.Data.List.Basic
import Mathlib.Data.List.Infix
import Uplift.Proofs.Patch.Script

/-!
# The computed script is a shortest one

What a script keeps is common to its two sides (`kept_sublist_oldLines`, `kept_sublist_newLines`),
and what it changes is what the sides have beyond that (`changeCount_add`).  So a script is shortest
exactly if it keeps as many lines as any lines common to both sides have: the length of a longest
common subsequence.

Every entry of the table is that length for a suffix of the old list and a suffix of the new one
(`table_eq`), and the walk along the table keeps as many lines as its first entry says
(`keepCount_walk`).  Lines set aside at both ends cost nothing: a common line at the start can
always be kept first (`lcsLength_append`), and at the end the same holds of the reversed lists.
-/

set_option autoImplicit false

namespace Uplift.Patch

open Text (splitLines foldCrlf)

variable {α : Type}

/-! ## Longest common subsequences -/

section Longest

variable [DecidableEq α]

/-- The length of a longest common subsequence of two lists. -/
def lcsLength : List α → List α → Nat
  | [], _ => 0
  | _ :: _, [] => 0
  | a :: as, b :: bs =>
    if a = b then lcsLength as bs + 1 else max (lcsLength as (b :: bs)) (lcsLength (a :: as) bs)
termination_by first second => first.length + second.length

@[simp] theorem lcsLength_nil_left (second : List α) : lcsLength [] second = 0 := by
  rw [lcsLength]

@[simp] theorem lcsLength_nil_right (first : List α) : lcsLength first [] = 0 := by
  cases first <;> rw [lcsLength]

theorem lcsLength_cons_self (line : α) (first second : List α) :
    lcsLength (line :: first) (line :: second) = lcsLength first second + 1 := by
  rw [lcsLength, if_pos rfl]

theorem lcsLength_cons_of_ne {a b : α} (different : a ≠ b) (first second : List α) :
    lcsLength (a :: first) (b :: second) =
      max (lcsLength first (b :: second)) (lcsLength (a :: first) second) := by
  rw [lcsLength, if_neg different]

/-- No common subsequence is longer: where the heads differ, it leaves out one of them. -/
theorem length_le_lcsLength {common first second : List α} (inFirst : common.Sublist first)
    (inSecond : common.Sublist second) : common.length ≤ lcsLength first second := by
  fun_induction lcsLength first second generalizing common with
  | case1 second => rw [List.sublist_nil.1 inFirst]; exact Nat.le_refl 0
  | case2 => rw [List.sublist_nil.1 inSecond]; exact Nat.le_refl 0
  | case3 as b bs ih =>
      have tail := ih inFirst.tail inSecond.tail
      rw [List.length_tail] at tail
      omega
  | case4 a as b bs different ihFirst ihSecond =>
      rcases List.sublist_cons_iff.1 inFirst with later | ⟨rest, rfl, _⟩
      · exact (ihFirst later inSecond).trans (Nat.le_max_left _ _)
      · rcases List.sublist_cons_iff.1 inSecond with later | ⟨other, same, _⟩
        · exact (ihSecond inFirst later).trans (Nat.le_max_right _ _)
        · exact absurd (List.cons.inj same).1 different

/-- Some common subsequence has the length. -/
theorem exists_length_eq_lcsLength (first second : List α) :
    ∃ common : List α, common.Sublist first ∧ common.Sublist second ∧
      common.length = lcsLength first second := by
  fun_induction lcsLength first second with
  | case1 second => exact ⟨[], List.nil_sublist _, List.nil_sublist _, rfl⟩
  | case2 => exact ⟨[], List.nil_sublist _, List.nil_sublist _, rfl⟩
  | case3 as b bs ih =>
      obtain ⟨common, inFirst, inSecond, length⟩ := ih
      exact ⟨b :: common, inFirst.cons_cons b, inSecond.cons_cons b, congrArg (· + 1) length⟩
  | case4 a as b bs _ ihFirst ihSecond =>
      rcases Nat.le_total (lcsLength (a :: as) bs) (lcsLength as (b :: bs)) with least | least
      · obtain ⟨common, inFirst, inSecond, length⟩ := ihFirst
        exact ⟨common, inFirst.cons a, inSecond, by rw [length, Nat.max_eq_left least]⟩
      · obtain ⟨common, inFirst, inSecond, length⟩ := ihSecond
        exact ⟨common, inFirst, inSecond.cons b, by rw [length, Nat.max_eq_right least]⟩

/-- A length that the common subsequences of two lists reach, and do not exceed. -/
def IsLongestCommon (first second : List α) (length : Nat) : Prop :=
  (∃ common : List α, common.Sublist first ∧ common.Sublist second ∧ common.length = length) ∧
    ∀ common : List α, common.Sublist first → common.Sublist second → common.length ≤ length

theorem isLongestCommon_lcsLength (first second : List α) :
    IsLongestCommon first second (lcsLength first second) :=
  ⟨exists_length_eq_lcsLength first second, fun _ => length_le_lcsLength⟩

/-! ### Common ends -/

theorem lcsLength_reverse_le (first second : List α) :
    lcsLength first second ≤ lcsLength first.reverse second.reverse := by
  obtain ⟨common, inFirst, inSecond, length⟩ := exists_length_eq_lcsLength first second
  rw [← length, ← List.length_reverse]
  exact length_le_lcsLength inFirst.reverse inSecond.reverse

theorem lcsLength_reverse (first second : List α) :
    lcsLength first.reverse second.reverse = lcsLength first second := by
  refine Nat.le_antisymm ?_ (lcsLength_reverse_le first second)
  have back := lcsLength_reverse_le first.reverse second.reverse
  rwa [List.reverse_reverse, List.reverse_reverse] at back

/-- **A common start can be kept.** -/
theorem lcsLength_append (start first second : List α) :
    lcsLength (start ++ first) (start ++ second) = start.length + lcsLength first second := by
  induction start with
  | nil => rw [List.nil_append, List.nil_append, List.length_nil, Nat.zero_add]
  | cons line start ih =>
      rw [List.cons_append, List.cons_append, lcsLength_cons_self, ih, List.length_cons]
      omega

/-- **A common end can be kept.** -/
theorem lcsLength_append_right (first second finish : List α) :
    lcsLength (first ++ finish) (second ++ finish) = lcsLength first second + finish.length := by
  rw [← lcsLength_reverse, List.reverse_append, List.reverse_append, lcsLength_append,
    lcsLength_reverse, List.length_reverse, Nat.add_comm]

/-! ## The table -/

/-- The lengths for an old list against every suffix of the new list. -/
def lengthRow (new old : List α) : List Nat :=
  new.tails.map (lcsLength old)

/-- The rows for every suffix of the old list. -/
def lengthRows (old new : List α) : List (List Nat) :=
  old.tails.map (lengthRow new)

theorem lengthRow_cons (b : α) (bs old : List α) :
    lengthRow (b :: bs) old = lcsLength old (b :: bs) :: lengthRow bs old :=
  rfl

theorem lengthRows_cons (a : α) (as new : List α) :
    lengthRows (a :: as) new = lengthRow new (a :: as) :: lengthRows as new :=
  rfl

theorem drop_one_lengthRows (a : α) (as new : List α) :
    (lengthRows (a :: as) new).drop 1 = lengthRows as new :=
  rfl

theorem headD_lengthRow (new old : List α) : (lengthRow new old).headD 0 = lcsLength old new := by
  cases new <;> rfl

theorem headD_lengthRows (old new : List α) :
    (lengthRows old new).headD [] = lengthRow new old := by
  cases old <;> rfl

/-- One row is computed from the row below it. -/
theorem tableRow_eq (line : α) (new rest : List α) :
    tableRow line new (lengthRow new rest) = lengthRow new (line :: rest) := by
  induction new with
  | nil => simp [tableRow, lengthRow]
  | cons b bs ih =>
      rw [lengthRow_cons, lengthRow_cons, tableRow, ih, headD_lengthRow, headD_lengthRow, lcsLength]

/-- **The table holds the length for every two suffixes.** -/
theorem table_eq (old new : List α) : table old new = lengthRows old new := by
  induction old with
  | nil =>
      have none : lcsLength ([] : List α) = fun _ => 0 := funext lcsLength_nil_left
      simp [table, lengthRows, lengthRow, none]
  | cons line rest ih =>
      rw [table, ih, headD_lengthRows, tableRow_eq, lengthRows_cons]

theorem getD_lengthRow (new old : List α) (column : Nat) :
    (lengthRow new old).getD column 0 = lcsLength old (new.drop column) := by
  induction new generalizing column with
  | nil => cases column <;> simp [lengthRow]
  | cons b bs ih =>
      cases column with
      | zero => rfl
      | succ column => exact ih column

/-- An entry is the length for the old lines left and the new lines not used. -/
theorem entry_lengthRows (old new : List α) (column : Nat) :
    entry (lengthRows old new) column = lcsLength old (new.drop column) := by
  rw [entry, headD_lengthRows, getD_lengthRow]

end Longest

/-! ## What a script keeps -/

/-- The number of lines that a script keeps. -/
def keepCount (script : List (Edit α)) : Nat :=
  script.countP Edit.isKeep

/-- The number of lines that a script removes or adds. -/
def changeCount (script : List (Edit α)) : Nat :=
  script.countP fun edit => !edit.isKeep

/-- The lines that a script keeps. -/
def kept (script : List (Edit α)) : List α :=
  (script.filter Edit.isKeep).map Edit.line

theorem length_kept (script : List (Edit α)) : (kept script).length = keepCount script := by
  rw [kept, List.length_map, keepCount, List.countP_eq_length_filter]

theorem kept_sublist_oldLines (script : List (Edit α)) :
    (kept script).Sublist (oldLines script) := by
  refine List.Sublist.map _ (List.monotone_filter_right script fun edit isKeep => ?_)
  cases edit with
  | keep line => rfl
  | remove line => cases isKeep
  | add line => cases isKeep

theorem kept_sublist_newLines (script : List (Edit α)) :
    (kept script).Sublist (newLines script) := by
  refine List.Sublist.map _ (List.monotone_filter_right script fun edit isKeep => ?_)
  cases edit with
  | keep line => rfl
  | remove line => cases isKeep
  | add line => cases isKeep

theorem keepCount_map_keep (lines : List α) : keepCount (lines.map .keep) = lines.length := by
  simp [keepCount, List.countP_map, Function.comp_def, Edit.isKeep]

theorem keepCount_append (first second : List (Edit α)) :
    keepCount (first ++ second) = keepCount first + keepCount second :=
  List.countP_append

/-- Every line of a side is kept or changed, and only the kept ones are on both. -/
theorem changeCount_add (script : List (Edit α)) :
    changeCount script + 2 * keepCount script =
      (oldLines script).length + (newLines script).length := by
  induction script with
  | nil => rfl
  | cons edit rest ih =>
      rw [length_oldLines, length_newLines] at ih ⊢
      cases edit with
      | keep line =>
          have keeps : keepCount (.keep line :: rest) = keepCount rest + 1 :=
            List.countP_cons_of_pos rfl
          have changes : changeCount (.keep line :: rest) = changeCount rest :=
            List.countP_cons_of_neg Bool.false_ne_true
          rw [keeps, changes, oldCount_keep, newCount_keep]
          omega
      | remove line =>
          have keeps : keepCount (.remove line :: rest) = keepCount rest :=
            List.countP_cons_of_neg Bool.false_ne_true
          have changes : changeCount (.remove line :: rest) = changeCount rest + 1 :=
            List.countP_cons_of_pos rfl
          rw [keeps, changes, oldCount_remove, newCount_remove]
          omega
      | add line =>
          have keeps : keepCount (.add line :: rest) = keepCount rest :=
            List.countP_cons_of_neg Bool.false_ne_true
          have changes : changeCount (.add line :: rest) = changeCount rest + 1 :=
            List.countP_cons_of_pos rfl
          rw [keeps, changes, oldCount_add, newCount_add]
          omega

/-- Of two scripts with the same sides, the one that keeps more changes less. -/
theorem changeCount_le_of_keepCount_le {first second : List (Edit α)}
    (old : oldLines first = oldLines second) (new : newLines first = newLines second)
    (more : keepCount second ≤ keepCount first) : changeCount first ≤ changeCount second := by
  have here := changeCount_add first
  have there := changeCount_add second
  rw [old, new] at here
  omega

/-! ## The computed script -/

/-- Using up one more line. -/
theorem eq_drop_succ {whole rest : List α} {line : α} {column : Nat}
    (here : line :: rest = whole.drop column) : rest = whole.drop (column + 1) := by
  rw [← List.tail_drop, ← here, List.tail_cons]

section Computed

variable [DecidableEq α]

/-- A script keeps at most as many lines as its sides have in common. -/
theorem keepCount_le (script : List (Edit α)) :
    keepCount script ≤ lcsLength (oldLines script) (newLines script) := by
  rw [← length_kept]
  exact length_le_lcsLength (kept_sublist_oldLines script) (kept_sublist_newLines script)

/-- **The walk keeps as many lines as the table says**, from any place of it. -/
theorem keepCount_walk {whole old new : List α} {column : Nat} {rows : List (List Nat)}
    (here : new = whole.drop column) (isTable : rows = lengthRows old whole) :
    keepCount (walk old new column rows) = lcsLength old new := by
  fun_induction walk old new column rows with
  | case1 column rows new => simp [keepCount, List.countP_map, Function.comp_def, Edit.isKeep]
  | case2 column rows old notNil =>
      simp [keepCount, List.countP_map, Function.comp_def, Edit.isKeep]
  | case3 column rows as b bs ih =>
      rw [isTable, drop_one_lengthRows] at ih ⊢
      rw [lcsLength_cons_self, ← ih (eq_drop_succ here) rfl]
      exact List.countP_cons_of_pos rfl
  | case4 column rows a as b bs different worse ih =>
      rw [isTable, drop_one_lengthRows] at ih worse ⊢
      rw [entry_lengthRows, entry_lengthRows, ← eq_drop_succ here, ← here] at worse
      rw [lcsLength_cons_of_ne different, Nat.max_eq_left worse, ← ih here rfl]
      exact List.countP_cons_of_neg Bool.false_ne_true
  | case5 column rows a as b bs different better ih =>
      rw [isTable] at ih ⊢
      rw [isTable, drop_one_lengthRows, entry_lengthRows, entry_lengthRows, ← eq_drop_succ here,
        ← here] at better
      rw [lcsLength_cons_of_ne different, Nat.max_eq_right (Nat.le_of_not_le better),
        ← ih (eq_drop_succ here) rfl]
      exact List.countP_cons_of_neg Bool.false_ne_true

theorem keepCount_walk_table (old new : List α) :
    keepCount (walk old new 0 (table old new)) = lcsLength old new :=
  keepCount_walk rfl (table_eq old new)

/-- **The computed script keeps as many lines as the two lists have in common.** -/
theorem keepCount_editScript (old new : List α) :
    keepCount (editScript old new) = lcsLength old new := by
  simp only [editScript, keepCount_append, keepCount_map_keep, keepCount_walk_table]
  generalize common : commonLength old new = start
  have sameStart := take_commonLength old new
  have sameEnd := drop_commonEnd (old.drop start) (new.drop start)
  rw [common] at sameStart
  generalize commonLength (old.drop start).reverse (new.drop start).reverse = finish at sameEnd ⊢
  conv => rhs; rw [← List.take_append_drop start old, ← List.take_append_drop start new]
  rw [← sameStart, lcsLength_append]
  conv =>
    rhs; rhs
    rw [← List.take_append_drop ((old.drop start).length - finish) (old.drop start),
      ← List.take_append_drop ((new.drop start).length - finish) (new.drop start)]
  rw [← sameEnd, lcsLength_append_right, Nat.add_assoc]

/-- **No script between the two lists changes fewer lines.** -/
theorem changeCount_editScript_le {script : List (Edit α)} {old new : List α}
    (oldSide : oldLines script = old) (newSide : newLines script = new) :
    changeCount (editScript old new) ≤ changeCount script := by
  refine changeCount_le_of_keepCount_le ?_ ?_ ?_
  · rw [oldLines_editScript, oldSide]
  · rw [newLines_editScript, newSide]
  · rw [keepCount_editScript, ← oldSide, ← newSide]
    exact keepCount_le script

end Computed

/-! ## Scripts between texts -/

/-- A script between two texts: its sides are the lines of the texts, once their line ends are
folded. -/
def Between (before after : String) (script : List (Edit Line)) : Prop :=
  oldLines script = splitLines (foldCrlf before.toList) ∧
    newLines script = splitLines (foldCrlf after.toList)

theorem between_textScript (before after : String) :
    Between before after (textScript before after) :=
  ⟨oldLines_editScript _ _, newLines_editScript _ _⟩

/-- The sides of a script between two texts make up the texts. -/
theorem Between.flatten {before after : String} {script : List (Edit Line)}
    (between : Between before after script) :
    (oldLines script).flatten = foldCrlf before.toList ∧
      (newLines script).flatten = foldCrlf after.toList := by
  rw [between.1, between.2]
  exact ⟨Text.flatten_splitLines _, Text.flatten_splitLines _⟩

/-- **The script between two texts is correct and shortest.**  Its sides are the two texts with
their line ends folded, it changes no more lines than any other script between them, and it keeps as
many as a longest common subsequence of all their lines has. -/
theorem textScript_shortest (before after : String) :
    ((oldLines (textScript before after)).flatten = foldCrlf before.toList ∧
      (newLines (textScript before after)).flatten = foldCrlf after.toList) ∧
    Between before after (textScript before after) ∧
    (∀ other, Between before after other →
      changeCount (textScript before after) ≤ changeCount other) ∧
    IsLongestCommon (splitLines (foldCrlf before.toList)) (splitLines (foldCrlf after.toList))
      (keepCount (textScript before after)) := by
  have between := between_textScript before after
  refine ⟨between.flatten, between, fun other sides => ?_, ?_⟩
  · exact changeCount_editScript_le sides.1 sides.2
  · rw [textScript, keepCount_editScript]
    exact isLongestCommon_lcsLength _ _

end Uplift.Patch
