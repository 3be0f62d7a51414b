import Mathlib.Data.List.Chain
import Uplift.Proofs.Patch.Minimality

/-!
# Removed lines come before added ones

In the computed script no added line is directly followed by a removed one (`removalsFirst_walk`).
The walk adds a line only where dropping the first old line would lose something, that is, where
every longest common subsequence of what is left uses that line.  This stays so when the added line
is gone, because the old line and the lines before it have no more in common with fewer new lines;
so the next step does not remove it (`yieldsNew_of_needed`), also not at the end of the new lines,
where nothing is left to be lost.

A script of this kind that keeps no line is removed lines and then added ones
(`RemovalsFirst.exists_append`), and so is every stretch of changes between kept lines.
-/

set_option autoImplicit false

namespace Uplift.Patch

variable {α : Type}

/-- A script in which no added line is directly followed by a removed one. -/
def RemovalsFirst (script : List (Edit α)) : Prop :=
  script.IsChain fun first second => first.usesOld = true ∨ second.yieldsNew = true

/-! ## Stretches of changes -/

/-- A stretch of changes is removed lines and then added ones: behind the first added line, the next
removed one would stand right after an added one. -/
theorem RemovalsFirst.exists_append {stretch : List (Edit α)} (ordered : RemovalsFirst stretch)
    (changes : ∀ edit ∈ stretch, edit.isKeep = false) :
    ∃ removed added : List α, stretch = removed.map .remove ++ added.map .add := by
  induction stretch with
  | nil => exact ⟨[], [], rfl⟩
  | cons edit rest ih =>
      obtain ⟨next, later⟩ := List.isChain_cons.1 ordered
      obtain ⟨removed, added, rfl⟩ := ih later fun other member =>
        changes other (List.mem_cons_of_mem _ member)
      cases edit with
      | keep line => cases changes _ List.mem_cons_self
      | remove line => exact ⟨line :: removed, added, rfl⟩
      | add line =>
          cases removed with
          | nil => exact ⟨[], line :: added, rfl⟩
          | cons other removed =>
              rcases next (.remove other) rfl with used | yielded
              · cases used
              · cases yielded

/-- Steps of one kind are in order. -/
theorem removalsFirst_map (kind : α → Edit α)
    (even : ∀ first second, (kind first).usesOld = true ∨ (kind second).yieldsNew = true)
    (lines : List α) : RemovalsFirst (lines.map kind) :=
  (List.pairwise_map.2 (List.pairwise_of_forall even)).isChain

/-! ## The walk -/

section Computed

variable [DecidableEq α]

/-- One more line can only add to what two lists have in common. -/
theorem lcsLength_le_cons_right (line : α) (first second : List α) :
    lcsLength first second ≤ lcsLength first (line :: second) := by
  obtain ⟨common, inFirst, inSecond, length⟩ := exists_length_eq_lcsLength first second
  exact length ▸ length_le_lcsLength inFirst (inSecond.cons line)

/-- **The walk does not start by removing a line that is needed**: one without which the lists have
less in common. -/
theorem yieldsNew_of_needed {whole as new : List α} {a : α} {column : Nat} {rows : List (List Nat)}
    (here : new = whole.drop column) (isTable : rows = lengthRows (a :: as) whole)
    (needed : lcsLength as new < lcsLength (a :: as) new) :
    ∀ edit ∈ (walk (a :: as) new column rows).head?, edit.yieldsNew = true := by
  cases new with
  | nil =>
      rw [lcsLength_nil_right, lcsLength_nil_right] at needed
      exact absurd needed (Nat.lt_irrefl 0)
  | cons b bs =>
      rw [walk, isTable, drop_one_lengthRows, entry_lengthRows, entry_lengthRows,
        ← eq_drop_succ here, ← here]
      split
      next same => simp [Edit.yieldsNew]
      next different =>
        rw [lcsLength_cons_of_ne different] at needed
        rw [if_neg (by omega)]
        simp [Edit.yieldsNew]

/-- **The walk removes before it adds**, from any place of it. -/
theorem removalsFirst_walk {whole old new : List α} {column : Nat} {rows : List (List Nat)}
    (here : new = whole.drop column) (isTable : rows = lengthRows old whole) :
    RemovalsFirst (walk old new column rows) := by
  fun_induction walk old new column rows with
  | case1 column rows new => exact removalsFirst_map .add (fun _ _ => .inr rfl) new
  | case2 column rows old notNil => exact removalsFirst_map .remove (fun _ _ => .inl rfl) old
  | case3 column rows as b bs ih =>
      refine List.isChain_cons.2 ⟨fun _ _ => .inl rfl, ih (eq_drop_succ here) ?_⟩
      rw [isTable, drop_one_lengthRows]
  | case4 column rows a as b bs different worse ih =>
      refine List.isChain_cons.2 ⟨fun _ _ => .inl rfl, ih here ?_⟩
      rw [isTable, drop_one_lengthRows]
  | case5 column rows a as b bs different better ih =>
      rw [isTable, drop_one_lengthRows, entry_lengthRows, entry_lengthRows, ← eq_drop_succ here,
        ← here, Nat.not_le] at better
      have needed := (lcsLength_le_cons_right b as bs).trans_lt better
      refine List.isChain_cons.2 ⟨fun edit first => .inr ?_, ih (eq_drop_succ here) isTable⟩
      exact yieldsNew_of_needed (eq_drop_succ here) isTable needed edit first

/-- **The computed script removes before it adds**: so does what is walked, and where it meets the
common start and the common end, one of the two steps keeps a line. -/
theorem removalsFirst_editScript (old new : List α) : RemovalsFirst (editScript old new) := by
  have keeps : ∀ {lines : List α} {edit : Edit α}, edit ∈ lines.map Edit.keep →
      edit.usesOld = true ∧ edit.yieldsNew = true := by
    intro lines edit member
    obtain ⟨line, _, rfl⟩ := List.mem_map.1 member
    exact ⟨rfl, rfl⟩
  have unchanged := removalsFirst_map (Edit.keep : α → Edit α) fun _ _ => .inl rfl
  refine List.isChain_append.2 ⟨List.isChain_append.2 ⟨unchanged _,
    removalsFirst_walk rfl (table_eq _ _), ?_⟩, unchanged _, ?_⟩
  · exact fun first last second _ => .inl (keeps (List.mem_of_getLast? last)).1
  · exact fun first _ second head => .inr (keeps (List.mem_of_head? head)).2

end Computed

/-! ## Scripts between texts -/

/-- **Removed lines come before added ones.**  In the script between two texts no added line is
directly followed by a removed one, and every stretch of changes, however long, consists of removed
lines and then added ones. -/
theorem removals_precede_additions (before after : String) :
    (∀ earlier later added removed,
      textScript before after ≠ earlier ++ .add added :: .remove removed :: later) ∧
    ∀ earlier stretch later, textScript before after = earlier ++ stretch ++ later →
      (∀ edit ∈ stretch, edit.isKeep = false) →
        ∃ removed added : List Line, stretch = removed.map .remove ++ added.map .add := by
  have ordered : RemovalsFirst (textScript before after) := removalsFirst_editScript _ _
  constructor
  · intro earlier later added removed script
    rw [script] at ordered
    rcases (List.isChain_append_cons_cons.1 ordered).2.1 with used | yielded
    · cases used
    · cases yielded
  · intro earlier stretch later script changes
    rw [script] at ordered
    have inside : RemovalsFirst stretch := ordered.left_of_append.right_of_append
    exact inside.exists_append changes

/-- Two lines replaced by two others. -/
def replacedPair : List (Edit Line) :=
  [.remove ['p', '\n'], .remove ['q', '\n'], .add ['s', '\n'], .add ['t', '\n']]

/-- Two lines are replaced before a common one, and another after it. -/
theorem removals_precede_additions_aroundLine :
    textScript "p\nq\nm\nr\n" "s\nt\nm\nu" =
        [] ++ replacedPair ++ [.keep ['m', '\n'], .remove ['r', '\n'], .add ['u']] ∧
      (∀ edit ∈ replacedPair, edit.isKeep = false) ∧
      ∃ removed added : List Line, replacedPair = removed.map .remove ++ added.map .add := by
  have script : textScript "p\nq\nm\nr\n" "s\nt\nm\nu" =
      [] ++ replacedPair ++ [.keep ['m', '\n'], .remove ['r', '\n'], .add ['u']] := by
    decide +kernel
  have changes : ∀ edit ∈ replacedPair, edit.isKeep = false := by decide
  exact ⟨script, changes, (removals_precede_additions _ _).2 _ _ _ script changes⟩

end Uplift.Patch
