import Mathlib.Data.List.Sort
import Mathlib.Data.String.Basic
import Uplift.Proofs.FileTree.Names

/-!
# Walks through file trees

A walk through a well-formed tree meets everything in it whose directories are all entered
(`mem_walk_iff`), and nothing twice (`nodup_walk`).  Sorted by their places, the files it meets come
in strictly ascending order (`pairwise_filePlaces`).
-/

set_option autoImplicit false

namespace Uplift.FileTree

variable {enter : String → Bool}

/-! ## What a walk meets -/

/-- Every directory on the way to what was found is entered, and so is this itself if it is a
directory. -/
def Entered (enter : String → Bool) (names : Place) (found : FileTree) : Prop :=
  ∀ name ∈ if found.isDirectory then names else names.dropLast, enter name = true

theorem entered_nil (found : FileTree) : Entered enter [] found := by
  intro name member
  rw [List.dropLast_nil, ite_self] at member
  cases member

/-- The first directory on the way is what leads to the rest. -/
theorem entered_cons_iff {name : String} {rest : Place} {child found : FileTree}
    (there : child.get? rest = some found) :
    Entered enter (name :: rest) found ↔
      (child.isDirectory = true → enter name = true) ∧ Entered enter rest found := by
  cases rest with
  | nil =>
      cases there
      cases directory : child.isDirectory <;> simp [Entered, directory]
  | cons next rest =>
      have directory : child.isDirectory = true := by
        cases child with
        | directory entries => rfl
        | file content executable => cases there
      cases isDirectory : found.isDirectory <;> simp [Entered, isDirectory, directory]

theorem Entries.get?_of_mem {entries : Entries} (distinct : (entries.map Prod.fst).Nodup)
    {name : String} {tree : FileTree} (member : (name, tree) ∈ entries) :
    Entries.get? entries name = some tree := by
  induction entries with
  | nil => cases member
  | cons entry rest ih =>
      obtain ⟨other, here⟩ := entry
      obtain ⟨fresh, later⟩ := List.nodup_cons.1 distinct
      rw [Entries.get?]
      rcases List.mem_cons.1 member with same | member
      · cases same
        exact if_pos rfl
      · rw [if_neg, ih later member]
        rintro rfl
        exact fresh (List.mem_map.2 ⟨_, member, rfl⟩)

/-- What a walk meets at and below an entry, when it is known what it meets below. -/
theorem mem_walkEntry_iff {top place : Place} {name : String} {tree found : FileTree}
    (below : (place, found) ∈ walk enter (top ++ [name]) tree ↔
      ∃ names, names ≠ [] ∧ place = top ++ [name] ++ names ∧ tree.get? names = some found ∧
        Entered enter names found) :
    (place, found) ∈ (if tree.isDirectory && !enter name then []
        else (top ++ [name], tree) :: walk enter (top ++ [name]) tree) ↔
      ∃ rest, place = top ++ name :: rest ∧ tree.get? rest = some found ∧
        Entered enter (name :: rest) found := by
  split
  next refused =>
    refine ⟨fun member => absurd member List.not_mem_nil, ?_⟩
    rintro ⟨rest, _, there, entered⟩
    have := ((entered_cons_iff there).1 entered).1
    simp_all
  next admitted =>
    have admitted : tree.isDirectory = true → enter name = true := by simpa using admitted
    rw [List.mem_cons, below, Prod.mk.injEq]
    constructor
    · rintro (⟨rfl, rfl⟩ | ⟨names, _, rfl, there, entered⟩)
      · exact ⟨[], rfl, rfl, (entered_cons_iff rfl).2 ⟨admitted, entered_nil _⟩⟩
      · exact ⟨names, by simp, there, (entered_cons_iff there).2 ⟨admitted, entered⟩⟩
    · rintro ⟨rest, rfl, there, entered⟩
      cases rest with
      | nil =>
          cases there
          exact .inl ⟨rfl, rfl⟩
      | cons next rest =>
          exact .inr ⟨next :: rest, by simp, by simp, there,
            ((entered_cons_iff there).1 entered).2⟩

mutual

/-- **A walk meets what can be reached through entered directories.** -/
theorem mem_walk_iff {top place : Place} {found : FileTree} :
    ∀ {tree : FileTree}, tree.WellFormed →
      ((place, found) ∈ walk enter top tree ↔
        ∃ names, names ≠ [] ∧ place = top ++ names ∧ tree.get? names = some found ∧
          Entered enter names found)
  | .file content executable, _ => by
      rw [walk]
      refine ⟨fun member => absurd member List.not_mem_nil, ?_⟩
      rintro ⟨names, nonempty, _, there, _⟩
      cases names with
      | nil => exact absurd rfl nonempty
      | cons name rest => cases there
  | .directory entries, wellFormed => by
      obtain ⟨distinct, each⟩ := wellFormed_directory_iff.1 wellFormed
      rw [walk, mem_walkEntries_iff fun entry member => (each entry member).2]
      constructor
      · rintro ⟨name, child, rest, member, equal, there, entered⟩
        refine ⟨name :: rest, by simp, equal, ?_, entered⟩
        rw [get?, child?, Entries.get?_of_mem distinct member]
        exact there
      · rintro ⟨names, nonempty, equal, there, entered⟩
        cases names with
        | nil => exact absurd rfl nonempty
        | cons name rest =>
            obtain ⟨child, here, below⟩ := Option.bind_eq_some_iff.1 there
            exact ⟨name, child, rest, Entries.mem_of_get? here, equal, below, entered⟩

theorem mem_walkEntries_iff {top place : Place} {found : FileTree} :
    ∀ {entries : Entries}, (∀ entry ∈ entries, entry.2.WellFormed) →
      ((place, found) ∈ walkEntries enter top entries ↔
        ∃ name child rest, (name, child) ∈ entries ∧ place = top ++ name :: rest ∧
          child.get? rest = some found ∧ Entered enter (name :: rest) found)
  | [], _ => by
      rw [walkEntries]
      refine ⟨fun member => absurd member List.not_mem_nil, ?_⟩
      rintro ⟨name, child, rest, member, _⟩
      exact absurd member List.not_mem_nil
  | (name, tree) :: others, wellFormed => by
      obtain ⟨here, later⟩ := List.forall_mem_cons.1 wellFormed
      rw [walkEntries, List.mem_append, mem_walkEntry_iff (mem_walk_iff here),
        mem_walkEntries_iff later]
      constructor
      · rintro (⟨rest, found⟩ | ⟨other, child, rest, member, found⟩)
        · exact ⟨name, tree, rest, List.mem_cons_self, found⟩
        · exact ⟨other, child, rest, List.mem_cons_of_mem _ member, found⟩
      · rintro ⟨other, child, rest, member, found⟩
        rcases List.mem_cons.1 member with same | member
        · cases same
          exact .inl ⟨rest, found⟩
        · exact .inr ⟨other, child, rest, member, found⟩

end

mutual

/-- **A walk meets nothing twice.** -/
theorem nodup_walk {top : Place} :
    ∀ {tree : FileTree}, tree.WellFormed → ((walk enter top tree).map Prod.fst).Nodup
  | .file content executable, _ => by
      rw [walk]
      exact List.nodup_nil
  | .directory entries, wellFormed => by
      obtain ⟨distinct, each⟩ := wellFormed_directory_iff.1 wellFormed
      rw [walk]
      exact nodup_walkEntries distinct fun entry member => (each entry member).2

theorem nodup_walkEntries {top : Place} :
    ∀ {entries : Entries}, (entries.map Prod.fst).Nodup →
      (∀ entry ∈ entries, entry.2.WellFormed) →
        ((walkEntries enter top entries).map Prod.fst).Nodup
  | [], _, _ => by
      rw [walkEntries]
      exact List.nodup_nil
  | (name, tree) :: others, distinct, wellFormed => by
      obtain ⟨fresh, distinct⟩ := List.nodup_cons.1 distinct
      obtain ⟨here, later⟩ := List.forall_mem_cons.1 wellFormed
      have within : ∀ place ∈ (if tree.isDirectory && !enter name then []
          else (top ++ [name], tree) :: walk enter (top ++ [name]) tree).map Prod.fst,
          ∃ rest, place = top ++ name :: rest := by
        intro place member
        obtain ⟨⟨_, found⟩, met, rfl⟩ := List.mem_map.1 member
        obtain ⟨rest, equal, _⟩ := (mem_walkEntry_iff (mem_walk_iff here)).1 met
        exact ⟨rest, equal⟩
      rw [walkEntries, List.map_append, List.nodup_append]
      refine ⟨?_, nodup_walkEntries distinct later, ?_⟩
      · split
        · exact List.nodup_nil
        · refine List.nodup_cons.2 ⟨fun member => ?_, nodup_walk here⟩
          obtain ⟨⟨_, found⟩, member, same⟩ := List.mem_map.1 member
          obtain ⟨names, nonempty, rfl, _⟩ := (mem_walk_iff here).1 member
          exact nonempty (List.append_right_eq_self.1 same)
      · rintro place first _ second rfl
        obtain ⟨rest, rfl⟩ := within place first
        obtain ⟨⟨_, found⟩, member, same⟩ := List.mem_map.1 second
        obtain ⟨other, child, rest', among, rfl, _⟩ := (mem_walkEntries_iff later).1 member
        obtain ⟨rfl, _⟩ := List.cons.inj (List.append_cancel_left same)
        exact fresh (List.mem_map.2 ⟨_, among, rfl⟩)

end

/-! ## The order of places -/

theorem comparePlaces_eq : comparePlaces = List.compareLex compare := by
  funext first second
  induction first generalizing second with
  | nil => cases second <;> rfl
  | cons name first ih =>
      cases second with
      | nil => rfl
      | cons other second => rw [comparePlaces, List.compareLex_cons_cons, ih]

/-- A sorted walk is one in which places ascend. -/
theorem pairwise_sortedWalk {tree : FileTree} (wellFormed : tree.WellFormed) :
    (tree.sortedWalk enter).Pairwise fun first second =>
      comparePlaces first.1 second.1 = .lt := by
  have sorted : (tree.sortedWalk enter).Pairwise fun first second =>
      (comparePlaces first.1 second.1 != .gt) = true := by
    have isLE : ∀ order : Ordering, (order != .gt) = order.isLE := by
      intro order
      cases order <;> rfl
    refine List.pairwise_mergeSort ?_ ?_ _
    · intro first second third early late
      rw [isLE, comparePlaces_eq] at *
      exact Std.TransCmp.isLE_trans early late
    · intro first second
      have swapped : List.compareLex compare first.1 second.1 =
          (List.compareLex compare second.1 first.1).swap := Std.OrientedCmp.eq_swap
      rw [isLE, isLE, comparePlaces_eq, swapped]
      cases List.compareLex compare second.1 first.1 <;> rfl
  have distinct : (tree.sortedWalk enter).Pairwise fun first second => first.1 ≠ second.1 := by
    refine List.pairwise_map.1 ?_
    exact ((List.mergeSort_perm _ _).map Prod.fst).nodup_iff.2 (nodup_walk wellFormed)
  refine (sorted.and distinct).imp fun {first second} both => ?_
  obtain ⟨upTo, different⟩ := both
  cases order : comparePlaces first.1 second.1 with
  | lt => rfl
  | eq =>
      rw [comparePlaces_eq] at order
      exact absurd (Std.LawfulEqCmp.eq_of_compare order) different
  | gt =>
      rw [order] at upTo
      cases upTo

/-! ## Files -/

/-- The places of the files that a walk meets, in order; a file is met where it is. -/
def filePlaces (enter : String → Bool) (tree : FileTree) : List Place :=
  if tree.isFile then [[]]
  else ((tree.sortedWalk enter).filter fun entry => entry.2.isFile).map Prod.fst

/-- **The files that a walk meets** are those with only entered directories above them. -/
theorem mem_filePlaces_iff {tree : FileTree} (wellFormed : tree.WellFormed) {names : Place} :
    names ∈ filePlaces enter tree ↔
      (∃ content executable, tree.get? names = some (.file content executable)) ∧
        ∀ name ∈ names.dropLast, enter name = true := by
  cases tree with
  | file content executable =>
      cases names with
      | nil => simp [filePlaces, isFile, get?]
      | cons name rest => simp [filePlaces, isFile, get?, child?]
  | directory entries =>
      rw [filePlaces, isFile, if_neg Bool.false_ne_true, List.mem_map]
      constructor
      · rintro ⟨⟨_, found⟩, member, rfl⟩
        obtain ⟨met, isFile⟩ := List.mem_filter.1 member
        obtain ⟨names, _, rfl, there, entered⟩ :=
          (mem_walk_iff wellFormed).1 (List.mem_mergeSort.1 met)
        cases found with
        | directory entries => cases isFile
        | file content executable => exact ⟨⟨content, executable, there⟩, entered⟩
      · rintro ⟨⟨content, executable, there⟩, entered⟩
        refine ⟨(names, .file content executable), List.mem_filter.2 ⟨?_, rfl⟩, rfl⟩
        refine List.mem_mergeSort.2 ((mem_walk_iff wellFormed).2 ⟨names, ?_, rfl, there, entered⟩)
        rintro rfl
        cases there

/-- The places of the files come in strictly ascending order. -/
theorem pairwise_filePlaces {tree : FileTree} (wellFormed : tree.WellFormed) :
    (filePlaces enter tree).Pairwise fun first second => comparePlaces first second = .lt := by
  rw [filePlaces]
  split
  next => exact List.pairwise_singleton _ _
  next => exact List.pairwise_map.2 ((pairwise_sortedWalk wellFormed).filter _)

end Uplift.FileTree
