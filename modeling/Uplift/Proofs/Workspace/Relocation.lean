import Uplift.Proofs.FileTree.Faults
import Uplift.Proofs.Workspace.Layout
import Uplift.Workspace.Convert

/-!
# Moving the entries of a package

The entries of a package are moved in two phases, out of the root into the staging directory and
from there into the member; after a failure they are moved back.  However far a phase gets, the tree
is laid out by the homes of the entries, and the relocations say these homes
(`moveAll_layout`, `rollBack_layout`).

The staging directory is removed when no entry is at home there.  It is then empty, so that removing
it with everything in it is no different from removing it as an empty directory
(`Layout.removeAll_staging`).
-/

set_option autoImplicit false

namespace Uplift.Workspace

open FileTree (Place Removed)

/-- The relocation of an entry that is at its home. -/
def relocationAt (paths : Home → Path) (home : String → Home) (name : String) : Relocation :=
  ⟨name, (paths (home name)).joinText name⟩

/-- The phases in which entries leave the root and arrive in the member. -/
inductive Phase : Home → Home → Prop where
  | out : Phase .root .staging
  | into : Phase .staging .member

theorem Phase.mayMove {site : Site} {home : String → Home} {source target : Home}
    (phase : Phase source target)
    (between : ∀ name ∈ site.names, home name = source ∨ home name = target) {name : String}
    (here : home name = source) : MayMove site home name target := by
  cases phase with
  | out =>
      refine .out here fun other among => ?_
      rcases between other among with at_ | at_ <;> simp [at_]
  | into =>
      refine .into here fun other among => ?_
      rcases between other among with at_ | at_ <;> simp [at_]

section

variable {site : Site} {paths : Home → Path} {before : FileTree} {home : String → Home}
  {written : Bool} {disk later : Disk}

/-- The path of an entry at a home. -/
theorem spells_slot (spells : ∀ at_, (paths at_).Spells (site.place at_)) (at_ : Home)
    {name : String} (member : name ∈ site.names) :
    ((paths at_).joinText name).Spells (site.slot at_ name) :=
  (spells at_).joinText (site.entryNames name member).1 (site.entryNames name member).2

/-- **Moving one entry** either fails and changes nothing or gives it another home. -/
theorem rename_layout (spells : ∀ at_, (paths at_).Spells (site.place at_))
    (layout : Layout site before home written disk.tree) {name : String} {target : Home}
    (member : name ∈ site.names) (may : MayMove site home name target)
    {result : Except FileError Unit}
    (done : disk.rename ((paths (home name)).joinText name) ((paths target).joinText name) =
      (result, later)) :
    (∃ error, result = .error error) ∧ Layout site before home written later.tree ∨
      result = .ok () ∧ Layout site before (Function.update home name target) written later.tree := by
  obtain ⟨failed, same⟩ | ⟨ok, renamed⟩ := Disk.tree_of_step done
  · exact .inl ⟨failed, by rwa [same]⟩
  · obtain ⟨notAbove, notBelow⟩ := may.not_prefix member
    obtain ⟨_, moved⟩ := FileTree.moved_of_rename (spells_slot spells _ member)
      (spells_slot spells _ member) notAbove notBelow renamed
    exact .inr ⟨ok, layout.moved member may moved⟩

/-- Relocations of other entries do not notice that one gets another home. -/
theorem map_relocationAt_update {names : List String} {name : String} (apart : name ∉ names)
    (target : Home) :
    names.map (relocationAt paths (Function.update home name target)) =
      names.map (relocationAt paths home) := by
  refine List.map_congr_left fun other member => ?_
  have different : other ≠ name := fun same => apart (same ▸ member)
  rw [relocationAt, relocationAt, Function.update_of_ne different]

/-- **However far a phase gets**, each entry is at its home, and the relocations say so. -/
theorem moveAll_layout (spells : ∀ at_, (paths at_).Spells (site.place at_))
    {source target : Home} (phase : Phase source target)
    (layout : Layout site before home written disk.tree)
    (between : ∀ name ∈ site.names, home name = source ∨ home name = target)
    {names : List String} (distinct : names.Nodup)
    (toMove : ∀ name ∈ names, name ∈ site.names ∧ home name = source)
    {result : Except FileError Unit} {entries : List Relocation}
    (done : moveAll (paths target) disk (names.map (relocationAt paths home)) =
      (result, entries, later)) :
    ∃ home', Layout site before home' written later.tree ∧
      entries = names.map (relocationAt paths home') ∧
      (∀ name ∈ site.names, home' name = source ∨ home' name = target) ∧
      (∀ name ∉ names, home' name = home name) ∧
      (result = .ok () → ∀ name ∈ names, home' name = target) := by
  induction names generalizing disk home result entries with
  | nil =>
      cases done
      exact ⟨home, layout, rfl, between, fun _ _ => rfl, by simp⟩
  | cons name names ih =>
      obtain ⟨apart, distinct⟩ := List.nodup_cons.1 distinct
      obtain ⟨member, here⟩ := toMove name List.mem_cons_self
      have may := phase.mayMove between here
      rw [List.map_cons, moveAll] at done
      cases renamed : disk.rename (relocationAt paths home name).current
          ((paths target).joinText (relocationAt paths home name).name) with
      | mk first after =>
          rw [renamed] at done
          obtain ⟨⟨error, rfl⟩, kept⟩ | ⟨rfl, moved⟩ :=
            rename_layout spells layout member may renamed
          · cases done
            exact ⟨home, kept, rfl, between, fun _ _ => rfl, nofun⟩
          · cases further : moveAll (paths target) after (names.map (relocationAt paths home)) with
            | mk rest remaining =>
                obtain ⟨moved', final⟩ := remaining
                simp only [further] at done
                cases done
                rw [← map_relocationAt_update apart target] at further
                have between' : ∀ other ∈ site.names,
                    Function.update home name target other = source ∨
                      Function.update home name target other = target := by
                  intro other among
                  by_cases same : other = name
                  · exact .inr (same ▸ Function.update_self ..)
                  · rw [Function.update_of_ne same]
                    exact between other among
                have toMove' : ∀ other ∈ names, other ∈ site.names ∧
                    Function.update home name target other = source := by
                  intro other among
                  have different : other ≠ name := fun same => apart (same ▸ among)
                  rw [Function.update_of_ne different]
                  exact toMove other (List.mem_cons_of_mem _ among)
                obtain ⟨home', layout', rfl, within, kept, all⟩ :=
                  ih moved between' distinct toMove' further
                have arrived : home' name = target := by
                  rw [kept name apart, Function.update_self]
                refine ⟨home', layout', ?_, within, fun other notMoved => ?_, fun ok => ?_⟩
                · rw [List.map_cons, relocationAt, relocationAt, arrived]
                · rw [List.mem_cons, not_or] at notMoved
                  rw [kept other notMoved.2, Function.update_of_ne notMoved.1]
                · intro other among
                  rcases List.mem_cons.1 among with rfl | later
                  · exact arrived
                  · exact all ok other later

/-- Moving changes no names. -/
theorem names_moveAll {destination : Path} {entries moved : List Relocation}
    {result : Except FileError Unit}
    (done : moveAll destination disk entries = (result, moved, later)) :
    moved.map Relocation.name = entries.map Relocation.name := by
  induction entries generalizing disk moved result with
  | nil =>
      cases done
      rfl
  | cons entry entries ih =>
      rw [moveAll] at done
      split at done
      · cases done
        rfl
      next after _ =>
        cases further : moveAll destination after entries with
        | mk rest remaining =>
            rw [further] at done
            cases done
            rw [List.map_cons, List.map_cons, ih further]

/-- An entry is at the root exactly if its path is the one it has there. -/
theorem same_origin_iff (spells : ∀ at_, (paths at_).Spells (site.place at_))
    (at_ : Home) {name : String} (member : name ∈ site.names) :
    ((paths at_).joinText name).same ((paths .root).joinText name) = true ↔ at_ = .root := by
  rw [(spells_slot spells _ member).same_iff (spells_slot spells .root member)]
  constructor
  · intro same
    have lengths := congrArg List.length same
    cases at_ <;> simp_all [Site.slot, Site.place, Site.below]
  · rintro rfl
    rfl

/-- Moving the first entry back leaves it at some home, and goes on with the others. -/
theorem rollBack_cons (spells : ∀ at_, (paths at_).Spells (site.place at_))
    (clear : site.top ∉ site.names) (layout : Layout site before home written disk.tree)
    {name : String} {rest : List Relocation} (member : name ∈ site.names) {restored : Bool}
    (done : rollBack (paths .root) disk (relocationAt paths home name :: rest) =
      (restored, later)) :
    ∃ at_ after others, Layout site before (Function.update home name at_) written after.tree ∧
      rollBack (paths .root) after rest = (others, later) ∧
      (restored = true → at_ = .root ∧ others = true) := by
  have origin := same_origin_iff spells (home name) member
  have stays : Function.update home name (home name) = home := Function.update_eq_self name home
  rw [rollBack] at done
  by_cases same : (relocationAt paths home name).current.same
      ((paths .root).joinText (relocationAt paths home name).name) = true
  · rw [if_pos same] at done
    exact ⟨home name, disk, restored, by rwa [stays], done, fun ok => ⟨origin.1 same, ok⟩⟩
  · have left : home name ≠ .root := fun here => same (origin.2 here)
    rw [if_neg same] at done
    split at done
    next after renamed =>
      obtain ⟨⟨_, failed⟩, _⟩ | ⟨_, moved⟩ :=
        rename_layout spells layout member (.back left clear) renamed
      · cases failed
      · exact ⟨.root, after, restored, moved, done, fun ok => ⟨rfl, ok⟩⟩
    next error after renamed =>
      obtain ⟨_, kept⟩ | ⟨ok, _⟩ :=
        rename_layout spells layout member (.back left clear) renamed
      · obtain ⟨rfl, rfl⟩ := Prod.mk.inj done
        exact ⟨home name, after, _, by rwa [stays], rfl, nofun⟩
      · cases ok

/-- **However far moving back gets**, each entry is at its home; if all could be moved back, that is
the root. -/
theorem rollBack_layout (spells : ∀ at_, (paths at_).Spells (site.place at_))
    (clear : site.top ∉ site.names) (layout : Layout site before home written disk.tree)
    {names : List String} (distinct : names.Nodup) (toMove : ∀ name ∈ names, name ∈ site.names)
    {restored : Bool}
    (done : rollBack (paths .root) disk (names.map (relocationAt paths home)) =
      (restored, later)) :
    ∃ home', Layout site before home' written later.tree ∧
      (∀ name ∉ names, home' name = home name) ∧
      (restored = true → ∀ name ∈ names, home' name = .root) := by
  induction names generalizing disk home restored with
  | nil =>
      cases done
      exact ⟨home, layout, fun _ _ => rfl, by simp⟩
  | cons name names ih =>
      obtain ⟨apart, distinct⟩ := List.nodup_cons.1 distinct
      rw [List.map_cons] at done
      obtain ⟨at_, after, others, layout', further, first⟩ :=
        rollBack_cons spells clear layout (toMove name List.mem_cons_self) done
      rw [← map_relocationAt_update apart at_] at further
      obtain ⟨home', final, kept, all⟩ := ih layout' distinct
        (fun other among => toMove other (List.mem_cons_of_mem _ among)) further
      refine ⟨home', final, fun other notMoved => ?_, fun ok other among => ?_⟩
      · rw [List.mem_cons, not_or] at notMoved
        rw [kept other notMoved.2, Function.update_of_ne notMoved.1]
      · obtain ⟨atRoot, allOthers⟩ := first ok
        rcases List.mem_cons.1 among with rfl | later
        · rw [kept other apart, Function.update_self, atRoot]
        · exact all allOthers other later

end

end Uplift.Workspace
