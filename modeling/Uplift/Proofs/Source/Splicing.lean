import Mathlib.Data.List.Pairwise
import Uplift.Source.Relocation

/-!
# Replacing ranges of a text

Replacements whose ranges are in order and apart can be carried out from the last to the first
without disturbing each other: the result is the text with each range replaced and everything
between the ranges kept (`applyAll_eq_splice`).

An offset that lies in no range moves by what the ranges before it gain or lose (`moved`).  Between
the new offsets of a range's ends stands its replacement, and between those of any other piece the
piece itself (`slice_applyAll`).
-/

set_option autoImplicit false

namespace Uplift.Source

/-! ## Pieces of a text -/

theorem slice_append_slice (text : List Char) {first second third : Nat} (before : first ≤ second)
    (after : second ≤ third) :
    slice text first second ++ slice text second third = slice text first third := by
  have split : text.drop second = (text.drop first).drop (second - first) := by
    rw [List.drop_drop, Nat.add_sub_cancel' before]
  have lengths : third - first = (second - first) + (third - second) := by omega
  rw [slice, slice, slice, split, lengths, List.take_add]

theorem take_eq_slice (text : List Char) (stop : Nat) : text.take stop = slice text 0 stop := rfl

theorem drop_eq_slice (text : List Char) (start : Nat) :
    text.drop start = slice text start text.length := by
  rw [slice, List.take_of_length_le (by simp)]

theorem length_slice {text : List Char} {start stop : Nat} (inside : stop ≤ text.length) :
    (slice text start stop).length = stop - start := by
  rw [slice, List.length_take, List.length_drop]
  omega

theorem slice_append_right (first second third : List Char) :
    slice (first ++ second ++ third) first.length (first.length + second.length) = second := by
  rw [slice, List.append_assoc, List.drop_left, Nat.add_sub_cancel_left, List.take_left]

/-! ## Splicing -/

/-- Replacements whose ranges are in order, apart, and between two offsets. -/
inductive Fits : Nat → Nat → List Replacement → Prop where
  | nil {start stop : Nat} : start ≤ stop → Fits start stop []
  | cons {start stop : Nat} {replacement : Replacement} {rest : List Replacement} :
      start ≤ replacement.start → replacement.start < replacement.stop →
        Fits replacement.stop stop rest → Fits start stop (replacement :: rest)

theorem Fits.le {start stop : Nat} {replacements : List Replacement}
    (fits : Fits start stop replacements) : start ≤ stop := by
  induction fits with
  | nil le => exact le
  | cons before proper _ ih => omega

theorem Fits.append {start middle stop : Nat} {first second : List Replacement}
    (before : Fits start middle first) (after : Fits middle stop second) :
    Fits start stop (first ++ second) := by
  induction before with
  | nil le =>
      cases after with
      | nil le' => exact .nil (Nat.le_trans le le')
      | cons lower proper rest => exact .cons (Nat.le_trans le lower) proper rest
  | cons lower proper _ ih => exact .cons lower proper (ih after)

theorem Fits.mem {start stop : Nat} {replacements : List Replacement}
    (fits : Fits start stop replacements) {replacement : Replacement}
    (member : replacement ∈ replacements) :
    start ≤ replacement.start ∧ replacement.start < replacement.stop ∧
      replacement.stop ≤ stop := by
  induction fits with
  | nil _ => cases member
  | cons before proper later ih =>
      rcases List.mem_cons.1 member with rfl | member
      · exact ⟨before, proper, later.le⟩
      · obtain ⟨lower, proper', upper⟩ := ih member
        exact ⟨by omega, proper', upper⟩

/-- Replacements in order and apart fit between two offsets if each of them does. -/
theorem Fits.of_pairwise {replacements : List Replacement} {start stop : Nat}
    (ordered : replacements.Pairwise fun first second => first.stop ≤ second.start)
    (proper : ∀ replacement ∈ replacements, replacement.start < replacement.stop)
    (lower : ∀ replacement ∈ replacements, start ≤ replacement.start)
    (upper : ∀ replacement ∈ replacements, replacement.stop ≤ stop) (le : start ≤ stop) :
    Fits start stop replacements := by
  induction replacements generalizing start with
  | nil => exact .nil le
  | cons replacement rest ih =>
      obtain ⟨first, later⟩ := List.pairwise_cons.1 ordered
      have high := upper replacement List.mem_cons_self
      refine .cons (lower replacement List.mem_cons_self) (proper replacement List.mem_cons_self) ?_
      exact ih later (fun other member => proper other (List.mem_cons_of_mem _ member)) first
        (fun other member => upper other (List.mem_cons_of_mem _ member)) high

/-- A piece of a text with the ranges in it replaced. -/
def splice (text : List Char) (start stop : Nat) : List Replacement → List Char
  | [] => slice text start stop
  | replacement :: rest =>
    slice text start replacement.start ++ replacement.content ++
      splice text replacement.stop stop rest

/-- A piece is spliced part by part. -/
theorem splice_append (text : List Char) {start middle stop : Nat}
    {first second : List Replacement} (before : Fits start middle first)
    (after : Fits middle stop second) :
    splice text start stop (first ++ second) =
      splice text start middle first ++ splice text middle stop second := by
  induction before with
  | nil le =>
      cases after with
      | nil le' => exact (slice_append_slice text le le').symm
      | cons lower _ _ =>
          rw [List.nil_append, splice, splice, splice, ← slice_append_slice text le lower]
          simp only [List.append_assoc]
  | cons _ _ _ ih =>
      rw [List.cons_append, splice, splice, ih after]
      simp only [List.append_assoc]

/-! ## From the last range to the first -/

/-- Replacing one range after everything behind it has been spliced. -/
theorem apply_splice (text : List Char) {replacement : Replacement} {rest : List Replacement}
    (proper : replacement.start < replacement.stop)
    (fits : Fits replacement.stop text.length rest) :
    replacement.apply (text.take replacement.stop ++
        splice text replacement.stop text.length rest) =
      text.take replacement.start ++ replacement.content ++
        splice text replacement.stop text.length rest := by
  have inside := fits.le
  have length : (text.take replacement.stop).length = replacement.stop := by
    rw [List.length_take]
    omega
  rw [Replacement.apply, List.take_append_of_le_length (by omega), List.take_take,
    Nat.min_eq_left (by omega), List.drop_left' length]

theorem foldr_apply_eq_splice (text : List Char) {start : Nat} {replacements : List Replacement}
    (fits : Fits start text.length replacements) :
    replacements.foldr (fun replacement text => replacement.apply text) text =
      text.take start ++ splice text start text.length replacements := by
  induction replacements generalizing start with
  | nil => rw [List.foldr_nil, splice, ← drop_eq_slice, List.take_append_drop]
  | cons replacement rest ih =>
      cases fits with
      | cons before proper later =>
          rw [List.foldr_cons, ih later, apply_splice text proper later, splice,
            take_eq_slice text replacement.start,
            ← slice_append_slice text (Nat.zero_le start) before, ← take_eq_slice]
          simp only [List.append_assoc]

theorem Fits.pairwise {start stop : Nat} {replacements : List Replacement}
    (fits : Fits start stop replacements) :
    replacements.Pairwise fun first second => first.start < second.start := by
  induction fits with
  | nil _ => exact .nil
  | cons _ proper later ih =>
      refine List.pairwise_cons.2 ⟨fun other member => ?_, ih⟩
      have := (later.mem member).1
      omega

theorem Fits.eq_of_start {start stop : Nat} {replacements : List Replacement}
    (fits : Fits start stop replacements) {first second : Replacement}
    (member : first ∈ replacements) (member' : second ∈ replacements)
    (same : first.start = second.start) : first = second := by
  by_contra different
  have symmetric : Std.Symm fun first second : Replacement => first.start ≠ second.start :=
    ⟨fun _ _ apart => apart.symm⟩
  have apart : replacements.Pairwise fun first second => first.start ≠ second.start :=
    fits.pairwise.imp fun {first second} less => by omega
  exact apart.forall member member' different same

/-- Replacements in order are sorted for being carried out by being reversed. -/
theorem Fits.mergeSort {start stop : Nat} {replacements : List Replacement}
    (fits : Fits start stop replacements) :
    replacements.mergeSort (fun a b => b.start ≤ a.start) = replacements.reverse := by
  have ascending := fits.pairwise
  have sorted : (replacements.mergeSort (fun a b => b.start ≤ a.start)).Pairwise
      fun a b => decide (b.start ≤ a.start) = true := by
    refine List.pairwise_mergeSort ?_ ?_ replacements
    · intro a b c
      simp only [decide_eq_true_eq]
      omega
    · intro a b
      simp only [Bool.or_eq_true, decide_eq_true_eq]
      omega
  have reversed : replacements.reverse.Pairwise
      fun a b => decide (b.start ≤ a.start) = true := by
    rw [List.pairwise_reverse]
    refine ascending.imp fun {a b} less => ?_
    simp only [decide_eq_true_eq]
    omega
  refine List.Perm.eq_of_pairwise ?_ sorted reversed
    ((List.mergeSort_perm replacements _).trans (List.reverse_perm replacements).symm)
  intro a b member member' first second
  simp only [decide_eq_true_eq] at first second
  exact fits.eq_of_start (List.mem_mergeSort.1 member) (List.mem_reverse.1 member') (by omega)

/-- **Replacements in order and apart are carried out as if at once.** -/
theorem applyAll_eq_splice {text : List Char} {replacements : List Replacement}
    (fits : Fits 0 text.length replacements) :
    applyAll text replacements = splice text 0 text.length replacements := by
  rw [applyAll, fits.mergeSort, List.foldl_reverse]
  exact foldr_apply_eq_splice text fits

/-! ## Where offsets go -/

/-- How many characters replacements take out. -/
def removed : List Replacement → Nat
  | [] => 0
  | replacement :: rest => replacement.stop - replacement.start + removed rest

/-- How many characters replacements put in. -/
def added : List Replacement → Nat
  | [] => 0
  | replacement :: rest => replacement.content.length + added rest

/-- The new place of an offset: it moves by what the ranges up to it gain or lose. -/
def moved (replacements : List Replacement) (offset : Nat) : Nat :=
  let before := replacements.filter fun replacement => replacement.stop ≤ offset
  offset + added before - removed before

theorem length_splice {text : List Char} {start stop : Nat} {replacements : List Replacement}
    (fits : Fits start stop replacements) (inside : stop ≤ text.length) :
    (splice text start stop replacements).length + removed replacements =
      stop - start + added replacements := by
  induction fits with
  | nil le => simp [splice, length_slice inside, removed, added]
  | @cons start stop replacement rest before proper later ih =>
      have whole := ih inside
      have upper := later.le
      have piece : (slice text start replacement.start).length = replacement.start - start :=
        length_slice (by omega)
      simp only [splice, List.length_append, removed, added, piece]
      omega

/-- The offset at which a first part ends, given that everything else ends later. -/
theorem moved_of_fits {text : List Char} {offset : Nat} {first second : List Replacement}
    (before : Fits 0 offset first) (inside : offset ≤ text.length)
    (after : ∀ replacement ∈ second, offset < replacement.stop) :
    moved (first ++ second) offset = (splice text 0 offset first).length := by
  have kept : (first ++ second).filter (fun replacement => replacement.stop ≤ offset) = first := by
    rw [List.filter_append, List.filter_eq_self.2, List.filter_eq_nil_iff.2, List.append_nil]
    · intro replacement member
      have := after replacement member
      simpa using this
    · intro replacement member
      have := (before.mem member).2.2
      simpa using this
  have length := length_splice before inside
  rw [moved, kept]
  omega

/-- **What stands at the new place of a piece.**  Between the new offsets of its ends stands the
piece with its own ranges replaced. -/
theorem slice_applyAll {text : List Char} {start stop : Nat}
    {first second third : List Replacement} (before : Fits 0 start first)
    (here : Fits start stop second) (after : Fits stop text.length third)
    (proper : ∀ replacement ∈ second, start < replacement.stop) :
    slice (applyAll text (first ++ second ++ third)) (moved (first ++ second ++ third) start)
        (moved (first ++ second ++ third) stop) =
      splice text start stop second := by
  have inside := after.le
  have lower := here.le
  have whole : applyAll text (first ++ second ++ third) =
      splice text 0 start first ++ splice text start stop second ++
        splice text stop text.length third := by
    rw [applyAll_eq_splice ((before.append here).append after),
      splice_append text (before.append here) after, splice_append text before here]
  have newStart : moved (first ++ second ++ third) start =
      (splice text 0 start first).length := by
    rw [List.append_assoc]
    refine moved_of_fits before (by omega) fun replacement member => ?_
    rcases List.mem_append.1 member with near | far
    · exact proper replacement near
    · have := after.mem far
      omega
  have newStop : moved (first ++ second ++ third) stop =
      (splice text 0 start first).length + (splice text start stop second).length := by
    rw [moved_of_fits (before.append here) inside fun replacement member => by
      have := after.mem member
      omega, splice_append text before here, List.length_append]
  rw [whole, newStart, newStop, slice_append_right]

end Uplift.Source
