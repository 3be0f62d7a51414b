import Mathlib.Data.List.Pairwise
import Mathlib.Data.List.SplitBy
import Mathlib.Order.Bounds.Basic
import Uplift.Proofs.Patch.Hunks
import Uplift.Proofs.Patch.Minimality

/-!
# Hunks and the changes in them

Grouping cuts the ascending places of the changes wherever one is not near the place before it
(`groupPlaces_eq`), so a group is a chain of near places, and consecutive groups are far apart.
Being far apart carries over from consecutive groups to any two (`pairwise_far`): every change
outside a group is far before its first place or far behind its last (`cluster_of_mem`).

Far means more than twice the context.  So the context that a hunk adds on either side of its group
meets no other change, is cut short only by the ends of the script, and leaves a step between one
hunk and the next (`wellGrouped_hunks`).
-/

set_option autoImplicit false

namespace Uplift.Patch

variable {α : Type}

/-! ## Grouping cuts between places that are far apart -/

/-- Whether a place joins the group of the place before it. -/
def isNear (place next : Nat) : Bool :=
  next - place - 1 ≤ 2 * context

theorem isNear_iff {place next : Nat} :
    isNear place next = true ↔ next - place - 1 ≤ 2 * context :=
  decide_eq_true_iff

theorem isNear_eq_false_iff {place next : Nat} :
    isNear place next = false ↔ 2 * context < next - place - 1 := by
  rw [← Bool.not_eq_true, isNear_iff, Nat.not_le]

/-- A group of places in which each is near the one before it. -/
def IsNearChain (group : List Nat) : Prop :=
  group.IsChain fun place next => isNear place next = true

/-- The first and the last place of a group. -/
def ends (group : List Nat) : Nat × Nat :=
  (group.headD 0, group.getLastD 0)

theorem ends_eq {group : List Nat} {first last : Nat} (head : group.head? = some first)
    (final : group.getLast? = some last) : ends group = (first, last) := by
  rw [ends, List.headD_eq_head?_getD, List.getLastD_eq_getLast?, head, final]
  rfl

theorem ends_of_ne_nil {group : List Nat} (nonempty : group ≠ []) :
    ends group = (group.head nonempty, group.getLast nonempty) :=
  ends_eq (List.head?_eq_some_head nonempty) (List.getLast?_eq_some_getLast nonempty)

theorem splitBy_chain {group : List Nat} {first : Nat} (head : group.head? = some first)
    (near : IsNearChain group) : group.splitBy isNear = [group] := by
  refine List.splitBy_of_isChain ?_ near
  rintro rfl
  cases head

/-- **Grouping cuts the places where one is not near the one before.**  The places of the open group
are given, and its ends. -/
theorem groupPlaces_eq {group : List Nat} {first last : Nat} (head : group.head? = some first)
    (final : group.getLast? = some last) (near : IsNearChain group) (places : List Nat) :
    groupPlaces first last places = ((group ++ places).splitBy isNear).map ends := by
  induction places generalizing group first last with
  | nil =>
      rw [groupPlaces, List.append_nil, splitBy_chain head near, List.map_singleton,
        ends_eq head final]
  | cons place rest ih =>
      rw [groupPlaces]
      split
      next far =>
        have cut : ∀ before ∈ group.getLast?, isNear before place = false := by
          intro before member
          cases final.symm.trans member
          exact isNear_eq_false_iff.2 far
        have later := @ih [place] place place rfl rfl (List.isChain_singleton _)
        rw [later, List.splitBy_append_cons _ cut, splitBy_chain head near, List.map_append,
          List.map_singleton, ends_eq head final]
        rfl
      next close =>
        have longer : IsNearChain (group ++ [place]) := by
          refine List.IsChain.append near (List.isChain_singleton _) ?_
          intro before member next isNext
          cases final.symm.trans member
          cases isNext
          exact isNear_iff.2 (Nat.not_lt.1 close)
        have starts : (group ++ [place]).head? = some first := by
          rw [List.head?_append, head]
          rfl
        rw [ih starts List.getLast?_concat longer, List.append_assoc, List.singleton_append]

/-- The places of the changes in a script, in groups of near ones. -/
def changeGroups (script : List (Edit α)) : List (List Nat) :=
  (changePlaces 0 script).splitBy isNear

/-- The hunks of a script lie around its groups of changes. -/
theorem hunks_eq_map (script : List (Edit α)) :
    hunks script = (changeGroups script).map fun group =>
      hunkOf script.length (ends group).1 (ends group).2 := by
  rw [hunks, changeGroups]
  split
  next none =>
    rw [none]
    rfl
  next first rest places =>
    have grouped := @groupPlaces_eq [first] first first rfl rfl (List.isChain_singleton _) rest
    rw [places, grouped, List.map_map]
    rfl

/-! ## Groups of changes -/

theorem mem_changePlaces_iff {script : List (Edit α)} {place : Nat} :
    place ∈ changePlaces 0 script ↔ ChangesAt script place := by
  rw [mem_changePlaces]
  simp

theorem mem_group_iff {script : List (Edit α)} {place : Nat} :
    (∃ group ∈ changeGroups script, place ∈ group) ↔ ChangesAt script place := by
  rw [← mem_changePlaces_iff, ← List.mem_flatten, changeGroups, List.flatten_splitBy]

theorem ascending_of_mem {script : List (Edit α)} {group : List Nat}
    (member : group ∈ changeGroups script) : group.Pairwise (· < ·) := by
  have all : (changeGroups script).flatten.Pairwise (· < ·) := by
    rw [changeGroups, List.flatten_splitBy]
    exact pairwise_changePlaces script 0
  exact (List.pairwise_flatten.1 all).1 group member

/-- In ascending places the first is least and the last greatest. -/
theorem bounds_of_ascending {group : List Nat} (ascending : group.Pairwise (· < ·)) {place : Nat}
    (member : place ∈ group) (nonempty : group ≠ []) :
    group.head nonempty ≤ place ∧ place ≤ group.getLast nonempty := by
  have weakly : group.Pairwise (· ≤ ·) := ascending.imp Nat.le_of_lt
  exact ⟨weakly.rel_head member, weakly.rel_getLast member⟩

/-- Two groups more than twice the context apart. -/
def Far (earlier later : List Nat) : Prop :=
  later ≠ [] ∧ ∀ place ∈ earlier, ∀ next ∈ later, place + 2 * context + 1 < next

instance : Trans Far Far Far where
  trans := by
    rintro first second third ⟨nonempty, before⟩ ⟨some_later, after⟩
    obtain ⟨between, member⟩ := List.exists_mem_of_ne_nil second nonempty
    refine ⟨some_later, fun place inFirst next inThird => ?_⟩
    have := before place inFirst between member
    have := after between member next inThird
    omega

/-- **Any two groups of changes are far apart.** -/
theorem pairwise_far (script : List (Edit α)) : (changeGroups script).Pairwise Far := by
  rw [← List.isChain_iff_pairwise]
  refine List.IsChain.imp_of_mem_imp ?_
    (List.isChain_getLast_head_splitBy isNear (changePlaces 0 script))
  rintro earlier later isEarlier isLater ⟨some_earlier, some_later, cut⟩
  refine ⟨some_later, fun place inEarlier next inLater => ?_⟩
  have gap := isNear_eq_false_iff.1 cut
  have upTo := (bounds_of_ascending (ascending_of_mem isEarlier) inEarlier some_earlier).2
  have onFrom := (bounds_of_ascending (ascending_of_mem isLater) inLater some_later).1
  omega

/-- Two changes with none between them. -/
structure Neighbours (script : List (Edit α)) (place next : Nat) : Prop where
  order : place < next
  change : ChangesAt script place
  nextChange : ChangesAt script next
  between : ∀ other, place < other → other < next → ¬ ChangesAt script other

/-- In ascending near places two neighbours are near. -/
theorem near_of_neighbours {group : List Nat} (ascending : group.Pairwise (· < ·))
    (near : IsNearChain group) {place next : Nat} (member : place ∈ group) (isNext : next ∈ group)
    (order : place < next) (between : ∀ other ∈ group, place < other → ¬ other < next) :
    next - place - 1 ≤ 2 * context := by
  obtain ⟨before, after, rfl⟩ := List.append_of_mem member
  obtain ⟨_, behind, across⟩ := List.pairwise_append.1 ascending
  obtain ⟨first, later⟩ := List.pairwise_cons.1 behind
  have inAfter : next ∈ after := by
    rcases List.mem_append.1 isNext with earlier | here
    · exact absurd (across next earlier place List.mem_cons_self) (Nat.lt_asymm order)
    · exact (List.mem_cons.1 here).resolve_left (Nat.ne_of_gt order)
  cases after with
  | nil => cases inAfter
  | cons second rest =>
      have same : next = second := by
        rcases List.mem_cons.1 inAfter with same | further
        · exact same
        · exact absurd ((List.pairwise_cons.1 later).1 next further)
            (between second (by simp) (first second List.mem_cons_self))
      rw [same]
      exact isNear_iff.1 (List.isChain_append_cons_cons.1 near).2.1

/-- The changes from one to another make up a group: neighbours among them are near, and all others
are far from both ends. -/
structure IsCluster (script : List (Edit α)) (first last : Nat) : Prop where
  order : first ≤ last
  firstChange : ChangesAt script first
  lastChange : ChangesAt script last
  others : ∀ place, ChangesAt script place →
    place + 2 * context + 1 < first ∨ (first ≤ place ∧ place ≤ last) ∨
      last + 2 * context + 1 < place
  near : ∀ place next, first ≤ place → next ≤ last → Neighbours script place next →
    next - place - 1 ≤ 2 * context

/-- **A group of changes is a cluster.** -/
theorem cluster_of_mem {script : List (Edit α)} {group : List Nat}
    (member : group ∈ changeGroups script) : IsCluster script (ends group).1 (ends group).2 := by
  have nonempty : group ≠ [] := List.ne_nil_of_mem_splitBy member
  have ascending := ascending_of_mem member
  have changes : ∀ place ∈ group, ChangesAt script place := fun place inGroup =>
    mem_group_iff.1 ⟨group, member, inGroup⟩
  rw [ends_of_ne_nil nonempty]
  have others : ∀ place, ChangesAt script place →
      place + 2 * context + 1 < group.head nonempty ∨ place ∈ group ∨
        group.getLast nonempty + 2 * context + 1 < place := by
    intro place change
    obtain ⟨other, isGroup, inOther⟩ := mem_group_iff.2 change
    have far := pairwise_far script
    obtain ⟨before, after, split⟩ := List.append_of_mem member
    rw [split] at far isGroup
    obtain ⟨_, behind, across⟩ := List.pairwise_append.1 far
    rcases List.mem_append.1 isGroup with earlier | here
    · exact .inl ((across other earlier group List.mem_cons_self).2 place inOther _
        (List.head_mem nonempty))
    · rcases List.mem_cons.1 here with rfl | later
      · exact .inr (.inl inOther)
      · exact .inr (.inr (((List.pairwise_cons.1 behind).1 other later).2 _
          (List.getLast_mem nonempty) place inOther))
  have inside : ∀ place, group.head nonempty ≤ place → place ≤ group.getLast nonempty →
      ChangesAt script place → place ∈ group := by
    intro place onFrom upTo change
    rcases others place change with before | here | after
    · omega
    · exact here
    · omega
  constructor
  case order => exact (bounds_of_ascending ascending (List.head_mem nonempty) nonempty).2
  case firstChange => exact changes _ (List.head_mem nonempty)
  case lastChange => exact changes _ (List.getLast_mem nonempty)
  case others =>
    intro place change
    exact (others place change).imp_right (Or.imp_left fun here =>
      bounds_of_ascending ascending here nonempty)
  case near =>
    intro place next onFrom upTo neighbours
    have order := neighbours.order
    refine near_of_neighbours ascending (List.isChain_of_mem_splitBy member)
      (inside place onFrom (by omega) neighbours.change)
      (inside next (by omega) upTo neighbours.nextChange) order ?_
    exact fun other inGroup after before =>
      neighbours.between other after before (changes other inGroup)

/-! ## Kept lines -/

/-- The number of steps right before a place that keep their lines. -/
def keptBefore (script : List (Edit α)) (place : Nat) : Nat :=
  ((script.take place).reverse.takeWhile Edit.isKeep).length

/-- The number of steps from a place on that keep their lines. -/
def keptFrom (script : List (Edit α)) (place : Nat) : Nat :=
  ((script.drop place).takeWhile Edit.isKeep).length

theorem keptBefore_le (script : List (Edit α)) (place : Nat) : keptBefore script place ≤ place := by
  have all := (List.takeWhile_sublist Edit.isKeep (l := (script.take place).reverse)).length_le
  rw [List.length_reverse, List.length_take] at all
  exact all.trans (Nat.min_le_left _ _)

theorem keptFrom_le (script : List (Edit α)) (place : Nat) :
    keptFrom script place ≤ script.length - place := by
  have all := (List.takeWhile_sublist Edit.isKeep (l := script.drop place)).length_le
  rwa [List.length_drop] at all

/-- No change in a piece that ends at a place. -/
theorem le_keptBefore {script : List (Edit α)} {start place : Nat} (order : start ≤ place)
    (inside : place ≤ script.length) (unchanged : Unchanged (piece script start place)) :
    place - start ≤ keptBefore script place := by
  rw [keptBefore, ← take_append_piece script order, List.reverse_append,
    List.takeWhile_append_of_pos fun edit member => unchanged edit (List.mem_reverse.1 member),
    List.length_append, List.length_reverse, length_piece inside]
  exact Nat.le_add_right _ _

/-- No change in a piece that starts at a place. -/
theorem le_keptFrom {script : List (Edit α)} {place stop : Nat} (order : place ≤ stop)
    (inside : stop ≤ script.length) (unchanged : Unchanged (piece script place stop)) :
    stop - place ≤ keptFrom script place := by
  rw [keptFrom, ← piece_append_drop script order, List.takeWhile_append_of_pos unchanged,
    List.length_append, length_piece inside]
  exact Nat.le_add_right _ _

/-- A piece keeps at least as many lines as an unchanged piece inside it has. -/
theorem le_keepCount {script : List (Edit α)} {start stop first last : Nat} (onFrom : first ≤ start)
    (upTo : stop ≤ last) (inside : stop ≤ script.length)
    (unchanged : Unchanged (piece script start stop)) :
    stop - start ≤ keepCount (piece script first last) := by
  have sublist : (piece script start stop).Sublist (piece script first last) :=
    ((List.take_sublist_take_left upTo).drop start).trans (List.drop_sublist_drop_left _ onFrom)
  have all : keepCount (piece script start stop) = stop - start := by
    rw [keepCount, List.countP_eq_length.2 unchanged, length_piece inside]
  rw [← all]
  exact sublist.countP_le

/-! ## Hunks -/

/-- A hunk covers the places from its start up to its stop. -/
def Hunk.Covers (hunk : Hunk) (place : Nat) : Prop :=
  hunk.start ≤ place ∧ place < hunk.stop

/-- The changes that a hunk covers. -/
def Hunk.changes (script : List (Edit α)) (hunk : Hunk) : Set Nat :=
  {place | hunk.Covers place ∧ ChangesAt script place}

/-- A hunk lies around its changes, with as much context on either side as the script has before
the next change, up to the limit; and neighbours among its changes are near. -/
structure Encloses (script : List (Edit α)) (hunk : Hunk) (first last : Nat) : Prop where
  first_isLeast : IsLeast (hunk.changes script) first
  last_isGreatest : IsGreatest (hunk.changes script) last
  lead : first - hunk.start = min context (keptBefore script first)
  trail : hunk.stop - (last + 1) = min context (keptFrom script (last + 1))
  near : ∀ place next, hunk.Covers place → hunk.Covers next → Neighbours script place next →
    next - place - 1 ≤ 2 * context

/-- Hunks that lie in a script as they should: inside of it, in order with a step between one and
the next, each change in exactly one of them, each around its changes, and the changes of two of
them with more than twice the context of kept lines in between. -/
structure WellGrouped (script : List (Edit α)) (hunks : List Hunk) : Prop where
  bounds : ∀ hunk ∈ hunks, hunk.start < hunk.stop ∧ hunk.stop ≤ script.length
  ordered : hunks.Pairwise fun earlier later => earlier.stop < later.start
  unique : ∀ place, ChangesAt script place → ∃! hunk, hunk ∈ hunks ∧ hunk.Covers place
  encloses : ∀ hunk ∈ hunks, ∃ first last, Encloses script hunk first last
  apart : hunks.Pairwise fun earlier later => ∀ place ∈ earlier.changes script,
    ∀ next ∈ later.changes script, 2 * context < keepCount (piece script (place + 1) next)

section Cluster

variable {script : List (Edit α)} {first last : Nat}

/-- The hunk of a cluster covers no change but those of the cluster. -/
theorem IsCluster.covers_iff (cluster : IsCluster script first last) {place : Nat}
    (change : ChangesAt script place) :
    (hunkOf script.length first last).Covers place ↔ first ≤ place ∧ place ≤ last := by
  have inside := change.lt_length
  have final := cluster.lastChange.lt_length
  simp only [Hunk.Covers, hunkOf]
  rcases cluster.others place change with before | here | after <;> omega

theorem IsCluster.unchanged_before (cluster : IsCluster script first last) :
    Unchanged (piece script (first - context) first) := by
  refine unchanged_slice fun place onFrom before change => ?_
  have := cluster.order
  rcases cluster.others place change with earlier | here | later <;> omega

theorem IsCluster.unchanged_behind (cluster : IsCluster script first last) {stop : Nat}
    (upTo : stop ≤ last + 2 * context + 2) : Unchanged (piece script (last + 1) stop) := by
  refine unchanged_slice fun place behind before change => ?_
  have := cluster.order
  rcases cluster.others place change with earlier | here | later <;> omega

/-- **The hunk of a cluster lies around it.** -/
theorem IsCluster.encloses (cluster : IsCluster script first last) :
    Encloses script (hunkOf script.length first last) first last := by
  have order := cluster.order
  have inside := cluster.firstChange.lt_length
  have final := cluster.lastChange.lt_length
  constructor
  case first_isLeast =>
    refine ⟨⟨(cluster.covers_iff cluster.firstChange).2 ⟨Nat.le_refl _, order⟩,
      cluster.firstChange⟩, ?_⟩
    rintro place ⟨covered, change⟩
    exact ((cluster.covers_iff change).1 covered).1
  case last_isGreatest =>
    refine ⟨⟨(cluster.covers_iff cluster.lastChange).2 ⟨order, Nat.le_refl _⟩,
      cluster.lastChange⟩, ?_⟩
    rintro place ⟨covered, change⟩
    exact ((cluster.covers_iff change).1 covered).2
  case lead =>
    have least := le_keptBefore (Nat.sub_le first context) (Nat.le_of_lt inside)
      cluster.unchanged_before
    have most := keptBefore_le script first
    simp only [hunkOf]
    omega
  case trail =>
    have least : min (last + context + 1) script.length - (last + 1) ≤
        keptFrom script (last + 1) :=
      le_keptFrom (by omega) (Nat.min_le_right _ _) (cluster.unchanged_behind (by omega))
    have most := keptFrom_le script (last + 1)
    simp only [hunkOf]
    omega
  case near =>
    intro place next covered nextCovered neighbours
    exact cluster.near place next ((cluster.covers_iff neighbours.change).1 covered).1
      ((cluster.covers_iff neighbours.nextChange).1 nextCovered).2 neighbours

end Cluster

/-! ## The hunks of a script -/

/-- The ends of any two groups of changes are far apart. -/
theorem pairwise_ends (script : List (Edit α)) :
    (changeGroups script).Pairwise fun earlier later =>
      (ends earlier).2 + 2 * context + 1 < (ends later).1 := by
  refine (pairwise_far script).imp_of_mem fun {earlier later} isEarlier isLater far => ?_
  rw [ends_of_ne_nil (List.ne_nil_of_mem_splitBy isEarlier), ends_of_ne_nil far.1]
  exact far.2 _ (List.getLast_mem _) _ (List.head_mem _)

theorem exists_cluster_of_mem {script : List (Edit α)} {hunk : Hunk}
    (member : hunk ∈ hunks script) :
    ∃ first last, IsCluster script first last ∧ hunk = hunkOf script.length first last := by
  rw [hunks_eq_map] at member
  obtain ⟨group, isGroup, rfl⟩ := List.mem_map.1 member
  exact ⟨_, _, cluster_of_mem isGroup, rfl⟩

theorem bounds_of_mem_hunks {script : List (Edit α)} {hunk : Hunk}
    (member : hunk ∈ hunks script) : hunk.start < hunk.stop ∧ hunk.stop ≤ script.length := by
  obtain ⟨first, last, cluster, rfl⟩ := exists_cluster_of_mem member
  have order := cluster.order
  have inside := cluster.lastChange.lt_length
  simp only [hunkOf]
  omega

/-- **A step lies between one hunk and the next.** -/
theorem pairwise_hunks (script : List (Edit α)) :
    (hunks script).Pairwise fun earlier later => earlier.stop < later.start := by
  rw [hunks_eq_map]
  refine List.pairwise_map.2 ((pairwise_ends script).imp fun apart => ?_)
  simp only [hunkOf]
  omega

/-- **A change lies in exactly one hunk.** -/
theorem existsUnique_hunk {script : List (Edit α)} {place : Nat}
    (change : ChangesAt script place) :
    ∃! hunk, hunk ∈ hunks script ∧ hunk.Covers place := by
  obtain ⟨group, isGroup, inGroup⟩ := mem_group_iff.2 change
  have within := bounds_of_ascending (ascending_of_mem isGroup) inGroup
    (List.ne_nil_of_mem_splitBy isGroup)
  have covered := ((cluster_of_mem isGroup).covers_iff change).2
    (by rw [ends_of_ne_nil]; exact within)
  have member : hunkOf script.length (ends group).1 (ends group).2 ∈ hunks script := by
    rw [hunks_eq_map]
    exact List.mem_map_of_mem isGroup
  refine ⟨_, ⟨member, covered⟩, fun other ⟨isHunk, otherCovered⟩ => ?_⟩
  have disjoint : (hunks script).Pairwise fun first second =>
      ¬ (first.Covers place ∧ second.Covers place) := by
    refine (pairwise_hunks script).imp fun {first second} before both => ?_
    have := both.1.2
    have := both.2.1
    omega
  have : Std.Symm fun first second : Hunk => ¬ (first.Covers place ∧ second.Covers place) :=
    ⟨fun _ _ apart both => apart both.symm⟩
  by_contra different
  exact disjoint.forall isHunk member different ⟨otherCovered, covered⟩

/-- **Between changes of different hunks lie more than twice the context of kept lines**, as the
context behind the earlier hunk and that before the later one do not meet. -/
theorem pairwise_changes (script : List (Edit α)) :
    (hunks script).Pairwise fun earlier later => ∀ place ∈ earlier.changes script,
      ∀ next ∈ later.changes script,
        2 * context < keepCount (piece script (place + 1) next) := by
  rw [hunks_eq_map]
  refine List.pairwise_map.2 ((pairwise_ends script).imp_of_mem ?_)
  rintro earlier later isEarlier isLater apart place ⟨covered, change⟩ next ⟨nextCovered, nextChange⟩
  have cluster := cluster_of_mem isEarlier
  have upTo := ((cluster.covers_iff change).1 covered).2
  have onFrom := (((cluster_of_mem isLater).covers_iff nextChange).1 nextCovered).1
  have inside := nextChange.lt_length
  have kept : (ends earlier).2 + 2 * context + 2 - ((ends earlier).2 + 1) ≤
      keepCount (piece script (place + 1) next) :=
    le_keepCount (by omega) (by omega) (by omega) (cluster.unchanged_behind (Nat.le_refl _))
  omega

/-- **The hunks of a script lie in it as they should.** -/
theorem wellGrouped_hunks (script : List (Edit α)) : WellGrouped script (hunks script) where
  bounds _ := bounds_of_mem_hunks
  ordered := pairwise_hunks script
  unique _ := existsUnique_hunk
  encloses := by
    intro hunk member
    obtain ⟨first, last, cluster, rfl⟩ := exists_cluster_of_mem member
    exact ⟨first, last, cluster.encloses⟩
  apart := pairwise_changes script

end Uplift.Patch
