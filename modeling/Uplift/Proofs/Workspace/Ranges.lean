import Uplift.Workspace.Upgrade

/-!
# The changes of a manifest

Every change that putting approved versions into a manifest makes moves a range that is understood
to the version approved for its package, and keeps what stands before the version
(`moves_of_mem_bumpRanges`).
-/

set_option autoImplicit false

namespace Uplift.Workspace

/-- A change that moves a range to a version. -/
structure Moves (change : DependencyChange) (range : Range) (target : String) : Prop where
  parsed : Range.parse? change.origin = some range
  destination : change.destination = range.retarget target
  different : change.destination ≠ change.origin

theorem bumped?_eq_some_iff {entries : Json.Fields} {name target current next : String} :
    bumped? entries name target = some (current, next) ↔
      (entries.get? name).bind Json.Value.text? = some current ∧
        ∃ range, Range.parse? current = some range ∧ next = range.retarget target ∧
          next ≠ current := by
  simp only [bumped?, Option.bind_eq_bind, Option.bind_eq_some_iff]
  constructor
  · rintro ⟨value, found, text, isText, range, parsed, moved⟩
    split at moved
    next => cases moved
    next different =>
      cases moved
      exact ⟨⟨value, found, isText⟩, range, parsed, rfl, different⟩
  · rintro ⟨⟨value, found, isText⟩, range, parsed, rfl, different⟩
    exact ⟨value, found, current, isText, range, parsed, if_neg different⟩

theorem moves_of_mem_bumpEntries {relative : String} {part : DependencySection}
    {approved : List (String × String)} {entries : Json.Fields} {change : DependencyChange}
    (member : change ∈ (bumpEntries relative part approved entries).2) :
    ∃ range target, (change.name, target) ∈ approved ∧ Moves change range target := by
  induction approved generalizing entries with
  | nil => cases member
  | cons first rest ih =>
      obtain ⟨name, target⟩ := first
      rw [bumpEntries] at member
      split at member
      next =>
        obtain ⟨range, target', approved, moves⟩ := ih member
        exact ⟨range, target', List.mem_cons_of_mem _ approved, moves⟩
      next current next bumped =>
        rcases List.mem_cons.1 member with rfl | later
        · obtain ⟨_, range, parsed, destination, different⟩ := bumped?_eq_some_iff.1 bumped
          exact ⟨range, target, List.mem_cons_self, parsed, destination, different⟩
        · obtain ⟨range, target', approved, moves⟩ := ih later
          exact ⟨range, target', List.mem_cons_of_mem _ approved, moves⟩

theorem moves_of_mem_bumpSections {relative : String} {approved : Table String}
    {parts : List DependencySection} {manifest : Manifest} {change : DependencyChange}
    (member : change ∈ (bumpSections relative approved parts manifest).2) :
    ∃ range target, (change.name, target) ∈ approved.entries ∧ Moves change range target := by
  induction parts generalizing manifest with
  | nil => cases member
  | cons part parts ih =>
      rw [bumpSections] at member
      split at member
      next => exact ih member
      next entries _ =>
        rcases List.mem_append.1 member with here | later
        · exact moves_of_mem_bumpEntries here
        · exact ih later

/-- **Every change moves a range to the version approved for its package.** -/
theorem moves_of_mem_bumpRanges {relative : String} {approved : Table String}
    {manifest : Manifest} {change : DependencyChange}
    (member : change ∈ (bumpRanges relative approved manifest).2) :
    ∃ range target, (change.name, target) ∈ approved.entries ∧ Moves change range target :=
  moves_of_mem_bumpSections member

end Uplift.Workspace
