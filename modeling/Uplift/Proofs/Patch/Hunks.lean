import Uplift.Proofs.Patch.Script

/-!
# Hunks cover the changes of a script

The hunks of a script stand in order, do not overlap, and leave no change outside (`Covered`).
Grouping goes along the ascending places of the changes: a group is closed only when more than
twice the context lies before the next change, and then the context after the group ends before
the context of the next group begins.  A script without changes is exactly one without hunks.
-/

set_option autoImplicit false

namespace Uplift.Patch

variable {α : Type}

/-- A script has a change at a place. -/
def ChangesAt (script : List (Edit α)) (place : Nat) : Prop :=
  ∃ edit, script[place]? = some edit ∧ edit.isKeep = false

theorem ChangesAt.lt_length {script : List (Edit α)} {place : Nat}
    (changes : ChangesAt script place) : place < script.length := by
  obtain ⟨edit, found, _⟩ := changes
  exact (List.getElem?_eq_some_iff.1 found).1

/-- Hunks that stand in order in a script, from a place on, with no change outside of them. -/
inductive Covered (script : List (Edit α)) : Nat → List Hunk → Prop where
  | done {place : Nat} : Unchanged (script.drop place) → Covered script place []
  | hunk {place : Nat} {hunk : Hunk} {later : List Hunk} :
      place ≤ hunk.start → hunk.start ≤ hunk.stop →
        Unchanged ((script.take hunk.start).drop place) →
          Covered script hunk.stop later → Covered script place (hunk :: later)

/-! ## Places of changes -/

theorem mem_changePlaces (script : List (Edit α)) (offset place : Nat) :
    place ∈ changePlaces offset script ↔
      ∃ index, ChangesAt script index ∧ place = offset + index := by
  induction script generalizing offset with
  | nil => simp [changePlaces, ChangesAt]
  | cons edit rest ih =>
      have split : (∃ index, ChangesAt (edit :: rest) index ∧ place = offset + index) ↔
          (edit.isKeep = false ∧ place = offset) ∨
            ∃ index, ChangesAt rest index ∧ place = offset + 1 + index := by
        constructor
        · rintro ⟨index, changes, rfl⟩
          cases index with
          | zero =>
              obtain ⟨_, found, change⟩ := changes
              cases found
              exact .inl ⟨change, rfl⟩
          | succ index => exact .inr ⟨index, changes, by omega⟩
        · rintro (⟨change, rfl⟩ | ⟨index, changes, rfl⟩)
          · exact ⟨0, ⟨edit, rfl, change⟩, rfl⟩
          · exact ⟨index + 1, changes, by omega⟩
      rw [split, ← ih (offset + 1), changePlaces]
      cases change : edit.isKeep with
      | true => simp
      | false => simp

theorem pairwise_changePlaces (script : List (Edit α)) (offset : Nat) :
    (changePlaces offset script).Pairwise (· < ·) := by
  induction script generalizing offset with
  | nil => exact List.Pairwise.nil
  | cons edit rest ih =>
      rw [changePlaces]
      split
      · exact ih (offset + 1)
      · refine List.pairwise_cons.2 ⟨fun place member => ?_, ih (offset + 1)⟩
        obtain ⟨index, _, rfl⟩ := (mem_changePlaces rest (offset + 1) place).1 member
        omega

/-! ## Pieces of a script -/

/-- The steps from one place up to another. -/
def piece (script : List (Edit α)) (start stop : Nat) : List (Edit α) :=
  (script.take stop).drop start

theorem length_piece {script : List (Edit α)} {start stop : Nat} (inside : stop ≤ script.length) :
    (piece script start stop).length = stop - start := by
  rw [piece, List.length_drop, List.length_take, Nat.min_eq_left inside]

theorem take_append_piece (script : List (Edit α)) {start stop : Nat} (order : start ≤ stop) :
    script.take start ++ piece script start stop = script.take stop := by
  have initial : script.take start = (script.take stop).take start := by
    rw [List.take_take, Nat.min_eq_left order]
  rw [piece, initial, List.take_append_drop]

theorem piece_append_drop (script : List (Edit α)) {start stop : Nat} (order : start ≤ stop) :
    piece script start stop ++ script.drop stop = script.drop start := by
  rw [piece, List.drop_take, ← Nat.add_sub_cancel' order, ← List.drop_drop,
    Nat.add_sub_cancel_left, List.take_append_drop]

/-- A piece of a script in which no place has a change. -/
theorem unchanged_slice {script : List (Edit α)} {start stop : Nat}
    (none : ∀ place, start ≤ place → place < stop → ¬ ChangesAt script place) :
    Unchanged ((script.take stop).drop start) := by
  intro edit member
  obtain ⟨index, found⟩ := List.mem_iff_getElem?.1 member
  rw [List.getElem?_drop, List.getElem?_take] at found
  by_cases inside : start + index < stop
  · rw [if_pos inside] at found
    cases change : edit.isKeep with
    | true => rfl
    | false =>
        have changes : ChangesAt script (start + index) := ⟨edit, found, change⟩
        exact absurd changes (none _ (by omega) inside)
  · rw [if_neg inside] at found
    cases found

theorem unchanged_drop {script : List (Edit α)} {start : Nat}
    (none : ∀ place, start ≤ place → ¬ ChangesAt script place) :
    Unchanged (script.drop start) := by
  have slice : Unchanged ((script.take script.length).drop start) :=
    unchanged_slice fun place after _ => none place after
  rwa [List.take_length] at slice

/-! ## Grouping -/

/-- All changes from `place` on lie in the open group from `first` to `last` or among the places
still to come. -/
structure OpenGroup (script : List (Edit α)) (place first last : Nat) (places : List Nat) :
    Prop where
  before : place ≤ first - context
  order : first ≤ last
  ascending : (last :: places).Pairwise (· < ·)
  bounded : ∀ next ∈ last :: places, next < script.length
  all : ∀ change, place ≤ change → ChangesAt script change →
    (first ≤ change ∧ change ≤ last) ∨ change ∈ places

namespace OpenGroup

variable {script : List (Edit α)} {place first last next : Nat} {places : List Nat}

/-- The hunk of an open group ends where it starts or later. -/
theorem start_le_stop (group : OpenGroup script place first last places) :
    (hunkOf script.length first last).start ≤ (hunkOf script.length first last).stop := by
  have order := group.order
  have inside := group.bounded last List.mem_cons_self
  simp only [hunkOf]
  omega

/-- Before the hunk of an open group nothing changes. -/
theorem unchanged_before (group : OpenGroup script place first last places) :
    Unchanged ((script.take (hunkOf script.length first last).start).drop place) := by
  refine unchanged_slice fun change after within changes => ?_
  have order := group.order
  simp only [hunkOf] at within
  rcases group.all change after changes with bounds | member
  · omega
  · have := List.rel_of_pairwise_cons group.ascending member
    omega

/-- Behind the hunk of the last group nothing changes. -/
theorem unchanged_after (group : OpenGroup script place first last []) :
    Unchanged (script.drop (hunkOf script.length first last).stop) := by
  refine unchanged_drop fun change after changes => ?_
  have before := group.before
  have order := group.order
  have length := changes.lt_length
  simp only [hunkOf] at after
  rcases group.all change (by omega) changes with bounds | member
  · omega
  · cases member

/-- The next place joins the group. -/
theorem extend (group : OpenGroup script place first last (next :: places)) :
    OpenGroup script place first next places := by
  have order := group.order
  have later : last < next := List.rel_of_pairwise_cons group.ascending List.mem_cons_self
  refine ⟨group.before, by omega, (List.pairwise_cons.1 group.ascending).2,
    fun other member => group.bounded other (List.mem_cons_of_mem _ member), ?_⟩
  intro change after changes
  rcases group.all change after changes with bounds | member
  · exact .inl ⟨bounds.1, by omega⟩
  · rcases List.mem_cons.1 member with rfl | member
    · exact .inl ⟨by omega, Nat.le_refl _⟩
    · exact .inr member

/-- The group is closed, and the next place opens one: the context of the first ends before that of
the second begins. -/
theorem close (group : OpenGroup script place first last (next :: places))
    (apart : 2 * context < next - last - 1) :
    OpenGroup script (hunkOf script.length first last).stop next next places := by
  have before := group.before
  have order := group.order
  have inside := group.bounded next (List.mem_cons_of_mem _ List.mem_cons_self)
  have stop_eq : (hunkOf script.length first last).stop = last + context + 1 := by
    simp only [hunkOf]
    omega
  rw [stop_eq]
  refine ⟨by omega, Nat.le_refl _, (List.pairwise_cons.1 group.ascending).2,
    fun other member => group.bounded other (List.mem_cons_of_mem _ member), ?_⟩
  intro change after changes
  rcases group.all change (by omega) changes with bounds | member
  · omega
  · rcases List.mem_cons.1 member with rfl | member
    · exact .inl ⟨Nat.le_refl _, Nat.le_refl _⟩
    · exact .inr member

end OpenGroup

/-- The groups of ascending places give hunks that cover a script. -/
theorem covered_groupPlaces {script : List (Edit α)} {place first last : Nat} {places : List Nat}
    (group : OpenGroup script place first last places) :
    Covered script place ((groupPlaces first last places).map fun group =>
      hunkOf script.length group.1 group.2) := by
  induction places generalizing place first last with
  | nil =>
      exact .hunk group.before group.start_le_stop group.unchanged_before
        (.done group.unchanged_after)
  | cons next places ih =>
      rw [groupPlaces]
      split
      next apart =>
        exact .hunk group.before group.start_le_stop group.unchanged_before (ih (group.close apart))
      next => exact ih group.extend

/-- **The hunks of a script cover its changes.** -/
theorem covered_hunks (script : List (Edit α)) : Covered script 0 (hunks script) := by
  have found : ∀ place, place ∈ changePlaces 0 script ↔ ChangesAt script place := by
    intro place
    rw [mem_changePlaces]
    simp
  have ascending := pairwise_changePlaces script 0
  rw [hunks]
  split
  next none =>
    refine .done (unchanged_drop fun place _ changes => ?_)
    have member := (found place).2 changes
    rw [none] at member
    cases member
  next first rest places =>
    rw [places] at ascending
    have changes_of_mem : ∀ place ∈ first :: rest, ChangesAt script place := fun place member =>
      (found place).1 (places ▸ member)
    refine covered_groupPlaces ⟨Nat.zero_le _, Nat.le_refl _, ascending,
      fun next member => (changes_of_mem next member).lt_length, ?_⟩
    intro change _ changes
    have member := (found change).2 changes
    rw [places] at member
    rcases List.mem_cons.1 member with rfl | member
    · exact .inl ⟨Nat.le_refl _, Nat.le_refl _⟩
    · exact .inr member

/-- Only a script without changes has no hunks. -/
theorem hunks_eq_nil_iff (script : List (Edit α)) : hunks script = [] ↔ Unchanged script := by
  constructor
  · intro none
    have covered := covered_hunks script
    rw [none] at covered
    cases covered with
    | done unchanged => exact unchanged
  · intro unchanged
    rw [hunks]
    split
    next => rfl
    next first rest places =>
      have member : first ∈ changePlaces 0 script := places ▸ List.mem_cons_self
      obtain ⟨index, ⟨edit, found, change⟩, _⟩ := (mem_changePlaces script 0 first).1 member
      have keep := unchanged edit (List.mem_of_getElem? found)
      rw [keep] at change
      cases change

end Uplift.Patch
