import Uplift.Manifest
import Uplift.Proofs.FileTree.Names

/-!
# Where the entries of a package are during a conversion

During a conversion each entry that moves has one home: the root, the staging directory or the
directory of the member.  `Layout` says what the tree looks like, given the homes: every entry is
at its home with everything in it, nothing else is in the staging directory or in the member, and
all other places are as before, apart from directories on the way to the member.

Each step of a conversion keeps the layout, with the homes it leads to: the staging directory is
made (`layout_of_madeDirectory`), an entry is moved between homes (`Layout.moved`), a directory is
made on the way to the member (`Layout.grown`), and the manifest of the root is written
(`Layout.manifest_written`).

An entry may be taken back to the root only if the member's path does not start with the name of an
entry that moves.  On the way out this does not matter: entries leave the root before anything is
made on the way to the member.
-/

set_option autoImplicit false

namespace Uplift.Workspace

open FileTree (Place IsEntryName MadeDirectory Moved Updated)

/-- The directories between which a conversion moves entries. -/
inductive Home where
  | root
  | staging
  | member
  deriving DecidableEq, Repr

/-- Where a conversion takes place, and the names of the entries that it moves. -/
structure Site where
  /-- The place of the root. -/
  root : Place
  /-- The name of the staging directory. -/
  staging : String
  /-- The first name of the member's path, seen from the root. -/
  top : String
  /-- The further names of the member's path. -/
  further : List String
  /-- The entries that move. -/
  names : List String
  distinct : names.Nodup
  entryNames : ∀ name ∈ names, IsEntryName name
  staging_not_mem : staging ∉ names
  staging_ne_top : staging ≠ top

namespace Site

variable (site : Site)

/-- A home, seen from the root. -/
def below : Home → List String
  | .root => []
  | .staging => [site.staging]
  | .member => site.top :: site.further

/-- The place of a home. -/
def place (home : Home) : Place :=
  site.root ++ site.below home

/-- The place of an entry at a home. -/
def slot (home : Home) (name : String) : Place :=
  site.place home ++ [name]

theorem place_root : site.place .root = site.root :=
  List.append_nil _

theorem ne_staging_of_mem {name : String} (member : name ∈ site.names) : name ≠ site.staging :=
  fun same => site.staging_not_mem (same ▸ member)

theorem slot_append (home : Home) (name : String) (rest : List String) :
    site.slot home name ++ rest = site.root ++ (site.below home ++ name :: rest) := by
  simp [slot, place]

/-- Entries at different homes, or with different names, are apart, unless one is at the root and
the other in a member below it. -/
theorem not_prefix_slot {home other : Home} {name name' : String} (member : name ∈ site.names)
    (member' : name' ∈ site.names) (different : home = other → name ≠ name')
    (outside : home = .root → other = .member → name ≠ site.top)
    (outside' : other = .root → home = .member → name' ≠ site.top) (rest : List String) :
    ¬ site.slot home name <+: site.slot other name' ++ rest := by
  rw [← List.append_nil (site.slot home name), slot_append, slot_append,
    List.prefix_append_right_inj]
  have here := site.ne_staging_of_mem member
  have there := site.ne_staging_of_mem member'
  have fresh := site.staging_ne_top
  cases home <;> cases other <;>
    simp_all [below, List.cons_prefix_cons, eq_comm]

/-- No entry at a home is above the staging directory. -/
theorem not_prefix_staging (home : Home) {name : String} (member : name ∈ site.names) :
    ¬ site.slot home name <+: site.place .staging := by
  rw [← List.append_nil (site.slot home name), slot_append, place, List.prefix_append_right_inj]
  have here := site.ne_staging_of_mem member
  cases home <;> simp_all [below, List.cons_prefix_cons]

/-- The staging directory is not above what is on the way to the member. -/
theorem not_staging_prefix {place : Place} (onWay : place <+: site.place .member) :
    ¬ site.place .staging <+: place := by
  intro above
  have both := above.trans onWay
  rw [Site.place, Site.place, List.prefix_append_right_inj] at both
  exact site.staging_ne_top (List.cons_prefix_cons.1 both).1

/-- Only its own slot is above what an entry in the staging directory holds. -/
theorem prefix_staging_iff {home : Home} {name other : String} {rest : List String}
    (member : name ∈ site.names)
    (above : site.slot home name <+: site.place .staging ++ other :: rest) :
    home = .staging ∧ name = other := by
  rw [← List.append_nil (site.slot home name), slot_append, place, List.append_assoc,
    List.prefix_append_right_inj] at above
  have here := site.ne_staging_of_mem member
  have fresh := site.staging_ne_top
  cases home <;> simp_all [below, List.cons_prefix_cons, eq_comm]

/-- Only its own slot is above what an entry in the member holds, or one at the root under the
first name of the member's path. -/
theorem prefix_member_iff {home : Home} {name other : String} {rest : List String}
    (above : site.slot home name <+: site.place .member ++ other :: rest) :
    home = .member ∧ name = other ∨ home = .root ∧ name = site.top := by
  rw [← List.append_nil (site.slot home name), slot_append, place, List.append_assoc,
    List.prefix_append_right_inj] at above
  have fresh := site.staging_ne_top
  cases home <;> simp_all [below, List.cons_prefix_cons]

/-- Only its own slot at the root is above an entry there. -/
theorem slot_root_prefix_iff {name other : String} {rest : List String} :
    site.slot .root name <+: site.root ++ other :: rest ↔ name = other := by
  rw [slot, place_root, List.prefix_append_right_inj, List.cons_prefix_cons]
  exact and_iff_left List.nil_prefix

/-- What is above an entry at the root. -/
theorem prefix_root_iff {home : Home} {name other : String} {rest : List String}
    (member : other ∈ site.names)
    (above : site.slot home name <+: site.root ++ other :: rest) :
    home = .root ∧ name = other ∨
      home = .member ∧ site.place .member <+: site.root ++ other :: rest := by
  have there := site.ne_staging_of_mem member
  cases home with
  | root => exact .inl ⟨rfl, site.slot_root_prefix_iff.1 above⟩
  | staging =>
      rw [slot, place, List.append_assoc, List.prefix_append_right_inj] at above
      simp_all [below, List.cons_prefix_cons]
  | member => exact .inr ⟨rfl, (List.prefix_append _ _).trans above⟩

end Site

/-! ## Layouts -/

/-- What the tree looks like when each entry that moves is at its home.  `written` says whether the
new manifest of the root may be there already. -/
structure Layout (site : Site) (before : FileTree) (home : String → Home) (written : Bool)
    (now : FileTree) : Prop where
  /-- Every entry is at its home, with everything in it. -/
  at_home : ∀ name ∈ site.names, ∀ rest,
    now.entryAt? (site.slot (home name) name ++ rest) =
      before.entryAt? (site.slot .root name ++ rest)
  staging : now.entryAt? (site.place .staging) = some .directory ∨
    now.entryAt? (site.place .staging) = none
  /-- Nothing is in the staging directory but entries at home there. -/
  in_staging : ∀ name rest, now.entryAt? (site.place .staging ++ name :: rest) ≠ none →
    name ∈ site.names ∧ home name = .staging
  /-- Nothing is in the member but entries at home there. -/
  in_member : ∀ name rest, now.entryAt? (site.place .member ++ name :: rest) ≠ none →
    name ∈ site.names ∧ home name = .member
  /-- Where an entry has left the root, there is nothing but the way to the member, the member and
  the new manifest. -/
  left_root : ∀ name ∈ site.names, home name ≠ .root → ∀ rest,
    now.entryAt? (site.root ++ name :: rest) ≠ none →
      site.root ++ name :: rest <+: site.place .member ∧
          now.entryAt? (site.root ++ name :: rest) = some .directory ∨
        site.place .member <+: site.root ++ name :: rest ∨
        written = true ∧ name = manifestFile ∧ rest = []
  /-- Everything else is as before, apart from directories on the way to the member. -/
  elsewhere : ∀ place, ¬ site.place .staging <+: place →
    (site.place .member <+: place → place = site.place .member) →
    (∀ name ∈ site.names, ¬ site.slot .root name <+: place) →
      now.entryAt? place = before.entryAt? place ∨
        before.entryAt? place = none ∧ now.entryAt? place = some .directory ∧
          place <+: site.place .member

/-- The layout when the staging directory has been made. -/
theorem layout_of_madeDirectory {site : Site} {before now : FileTree}
    (absent : before.entryAt? (site.place .member) = none)
    (made : MadeDirectory before (site.place .staging) now) :
    Layout site before (fun _ => .root) false now := by
  have elsewhere : ∀ place, place ≠ site.place .staging →
      now.entryAt? place = before.entryAt? place := by
    intro place apart
    rw [made.view, Function.update_of_ne apart]
  have apartMember : ∀ rest, site.place .member ++ rest ≠ site.place .staging := by
    intro rest same
    rw [Site.place, Site.place, List.append_assoc, List.append_cancel_left_eq] at same
    exact site.staging_ne_top (List.cons.inj same).1.symm
  refine ⟨fun name member rest => ?_, ?_, fun name rest there => ?_, fun name rest there => ?_,
    fun _ _ left => absurd rfl left, fun place apart _ _ => ?_⟩
  · refine elsewhere _ fun same => ?_
    exact site.not_prefix_staging .root member (same ▸ List.prefix_append _ _)
  · exact .inl (by rw [made.view, Function.update_self])
  · refine absurd ?_ there
    rw [elsewhere _ (by simp), FileTree.entryAt?_below]
    simp [made.absent]
  · refine absurd ?_ there
    rw [elsewhere _ (apartMember _), FileTree.entryAt?_below]
    simp [absent]
  · exact .inl (elsewhere place fun same => apart (same ▸ List.prefix_rfl))

/-- When an entry may be moved from its home to another. -/
inductive MayMove (site : Site) (home : String → Home) (name : String) : Home → Prop where
  /-- Out of the root, while nothing is in the member. -/
  | out : home name = .root → (∀ other ∈ site.names, home other ≠ .member) →
      MayMove site home name .staging
  /-- Into the member, when nothing is left at the root. -/
  | into : home name = .staging → (∀ other ∈ site.names, home other ≠ .root) →
      MayMove site home name .member
  /-- Back to the root, if nothing that moves is on the way to the member. -/
  | back : home name ≠ .root → site.top ∉ site.names → MayMove site home name .root

namespace MayMove

variable {site : Site} {home : String → Home} {name : String} {target : Home}

theorem ne_home (may : MayMove site home name target) : home name ≠ target := by
  cases may with
  | out here _ => simp [here]
  | into here _ => simp [here]
  | back here _ => exact here

/-- The two slots of a move are apart from each other. -/
theorem not_prefix (may : MayMove site home name target) (member : name ∈ site.names) :
    ¬ site.slot (home name) name <+: site.slot target name ∧
      ¬ site.slot target name <+: site.slot (home name) name := by
  have apart := may.ne_home
  constructor
  · rw [← List.append_nil (site.slot target name)]
    refine site.not_prefix_slot member member (fun same => absurd same apart) ?_ ?_ _
    · rintro isRoot rfl
      cases may with
      | into here _ => simp [here] at isRoot
    · rintro rfl _ rfl
      cases may with
      | back _ clear => exact clear member
  · rw [← List.append_nil (site.slot (home name) name)]
    refine site.not_prefix_slot member member (fun same => absurd same.symm apart) ?_ ?_ _
    · rintro rfl _ rfl
      cases may with
      | back _ clear => exact clear member
    · rintro isRoot rfl
      cases may with
      | into here _ => simp [here] at isRoot

/-- Neither slot of a move is above another entry at its home. -/
theorem not_prefix_other (may : MayMove site home name target) (member : name ∈ site.names)
    {other : String} (among : other ∈ site.names) (different : other ≠ name) (rest : List String) :
    ¬ site.slot (home name) name <+: site.slot (home other) other ++ rest ∧
      ¬ site.slot target name <+: site.slot (home other) other ++ rest := by
  constructor
  · refine site.not_prefix_slot member among (fun _ => different.symm) ?_ ?_ rest
    · intro isRoot isMember
      cases may with
      | out _ none => exact absurd isMember (none other among)
      | into here _ => simp [here] at isRoot
      | back left _ => exact absurd isRoot left
    · rintro isRoot isMember rfl
      cases may with
      | out here _ => simp [here] at isMember
      | into here _ => simp [here] at isMember
      | back _ clear => exact clear among
  · refine site.not_prefix_slot member among (fun _ => different.symm) ?_ ?_ rest
    · rintro rfl _ rfl
      cases may with
      | back _ clear => exact clear member
    · rintro isRoot rfl rfl
      cases may with
      | into _ none => exact none site.top among isRoot

end MayMove

namespace Layout

variable {site : Site} {before now later : FileTree} {home : String → Home} {written : Bool}

/-- **Moving an entry to another home** gives the layout with that home. -/
theorem moved (layout : Layout site before home written now) {name : String} {target : Home}
    (member : name ∈ site.names) (may : MayMove site home name target)
    (moved : Moved now (site.slot (home name) name) (site.slot target name) later) :
    Layout site before (Function.update home name target) written later := by
  have kept : ∀ place, later.entryAt? place ≠ none → ¬ site.slot target name <+: place →
      later.entryAt? place = now.entryAt? place ∧ ¬ site.slot (home name) name <+: place := by
    intro place there apart
    have notOld : ¬ site.slot (home name) name <+: place := by
      rintro ⟨rest, rfl⟩
      exact there (moved.gone rest)
    exact ⟨moved.elsewhere place notOld apart, notOld⟩
  have newHome : ∀ other, other ≠ name → Function.update home name target other = home other :=
    fun other different => Function.update_of_ne different target home
  have stays : ∀ other rest,
      ¬ site.slot (home name) name <+: site.place (home other) ++ other :: rest →
        Function.update home name target other = home other := by
    intro other rest notOld
    refine newHome other ?_
    rintro rfl
    exact notOld (by simp [Site.slot])
  refine ⟨fun other among rest => ?_, ?_, fun other rest there => ?_, fun other rest there => ?_,
    fun other among left rest there => ?_, fun place notStaging notMember notRoot => ?_⟩
  · by_cases same : other = name
    · subst same
      rw [Function.update_self, moved.arrived, layout.at_home other among]
    · obtain ⟨notOld, notNew⟩ := may.not_prefix_other member among same rest
      rw [newHome other same, moved.elsewhere _ notOld notNew, layout.at_home other among]
  · rw [moved.elsewhere _ (site.not_prefix_staging _ member) (site.not_prefix_staging _ member)]
    exact layout.staging
  · by_cases new : site.slot target name <+: site.place .staging ++ other :: rest
    · obtain ⟨rfl, rfl⟩ := site.prefix_staging_iff member new
      exact ⟨member, Function.update_self ..⟩
    · obtain ⟨same, notOld⟩ := kept _ there new
      rw [same] at there
      obtain ⟨among, atStaging⟩ := layout.in_staging other rest there
      exact ⟨among, (stays other rest (by rwa [atStaging])).trans atStaging⟩
  · by_cases new : site.slot target name <+: site.place .member ++ other :: rest
    · rcases site.prefix_member_iff new with ⟨rfl, rfl⟩ | ⟨rfl, rfl⟩
      · exact ⟨member, Function.update_self ..⟩
      · cases may with
        | back _ clear => exact absurd member clear
    · obtain ⟨same, notOld⟩ := kept _ there new
      rw [same] at there
      obtain ⟨among, atMember⟩ := layout.in_member other rest there
      exact ⟨among, (stays other rest (by rwa [atMember])).trans atMember⟩
  · by_cases new : site.slot target name <+: site.root ++ other :: rest
    · rcases site.prefix_root_iff among new with ⟨rfl, rfl⟩ | ⟨_, inside⟩
      · exact absurd (Function.update_self ..) left
      · exact .inr (.inl inside)
    · obtain ⟨same, notOld⟩ := kept _ there new
      rw [same] at there ⊢
      refine layout.left_root other among (fun atRoot => left ?_) rest there
      exact (stays other rest (by rwa [atRoot, Site.place_root])).trans atRoot
  · have apart : ∀ at_, ¬ site.slot at_ name <+: place := by
      intro at_ above
      cases at_ with
      | root => exact notRoot name member above
      | staging => exact notStaging ((List.prefix_append _ _).trans above)
      | member =>
          have same := notMember ((List.prefix_append _ _).trans above)
          rw [same] at above
          have lengths := above.length_le
          rw [Site.slot, List.length_append, List.length_singleton] at lengths
          omega
    rw [moved.elsewhere _ (apart _) (apart _)]
    exact layout.elsewhere place notStaging notMember notRoot

/-- **A directory made on the way to the member** keeps the layout, if no entry that is still at the
root is on that way. -/
theorem grown (layout : Layout site before home written now) {place : Place}
    (clear : site.top ∈ site.names → ∀ name ∈ site.names, home name ≠ .root)
    (onWay : place <+: site.place .member) (made : MadeDirectory now place later) :
    Layout site before home written later := by
  have elsewhere : ∀ other, other ≠ place → later.entryAt? other = now.entryAt? other := by
    intro other apart
    rw [made.view, Function.update_of_ne apart]
  have here : later.entryAt? place = some .directory := by
    rw [made.view, Function.update_self]
  have notStaging : ¬ site.place .staging <+: place := site.not_staging_prefix onWay
  have notInside : ∀ name rest, site.place .member ++ name :: rest ≠ place := by
    rintro name rest rfl
    have lengths := onWay.length_le
    rw [List.length_append, List.length_cons] at lengths
    omega
  refine ⟨fun name member rest => ?_, ?_, fun name rest there => ?_, fun name rest there => ?_,
    fun name member left rest there => ?_, fun other apart inside outside => ?_⟩
  · rw [elsewhere, layout.at_home name member]
    rintro rfl
    cases atHome : home name with
    | root =>
        rw [atHome, Site.slot_append, Site.place, List.prefix_append_right_inj] at onWay
        have first : name = site.top := (List.cons_prefix_cons.1 onWay).1
        exact clear (first ▸ member) name member atHome
    | staging =>
        refine notStaging ?_
        rw [atHome, Site.slot, List.append_assoc]
        exact List.prefix_append _ _
    | member =>
        refine notInside name rest ?_
        rw [atHome, Site.slot]
        simp
  · rw [elsewhere _ fun same => notStaging (same ▸ List.prefix_rfl)]
    exact layout.staging
  · rw [elsewhere _ fun same => notStaging (same ▸ List.prefix_append _ _)] at there
    exact layout.in_staging name rest there
  · rw [elsewhere _ (notInside name rest)] at there
    exact layout.in_member name rest there
  · by_cases same : site.root ++ name :: rest = place
    · rw [same]
      exact .inl ⟨onWay, here⟩
    · rw [elsewhere _ same] at there ⊢
      exact layout.left_root name member left rest there
  · by_cases same : other = place
    · subst same
      refine .inr ⟨?_, here, onWay⟩
      obtain same | ⟨none, _⟩ := layout.elsewhere other apart inside outside
      · rw [← same, made.absent]
      · exact none
    · rw [elsewhere _ same]
      exact layout.elsewhere other apart inside outside

/-- **Writing the manifest of the root** keeps the layout, when the old one has left the root. -/
theorem manifest_written (layout : Layout site before home written now)
    (member : manifestFile ∈ site.names) (left : home manifestFile ≠ .root)
    {value : Option FileTree.Entry}
    (updated : Updated now (site.slot .root manifestFile) value later) :
    Layout site before home true later := by
  have long : ∀ at_ name rest, at_ ≠ .root →
      site.place at_ ++ name :: rest ≠ site.slot .root manifestFile := by
    intro at_ name rest notRoot same
    have lengths := congrArg List.length same
    cases at_ <;> simp_all [Site.slot, Site.place, Site.below]
  refine ⟨fun name among rest => ?_, ?_, fun name rest there => ?_, fun name rest there => ?_,
    fun name among gone rest there => ?_, fun place apart inside outside => ?_⟩
  · rw [updated.elsewhere, layout.at_home name among]
    rw [Site.slot, List.append_assoc, List.singleton_append]
    by_cases atRoot : home name = .root
    · rw [atRoot, Site.slot]
      intro same
      have names := (List.append_cancel_left same)
      have first : name = manifestFile := (List.cons.inj names).1
      exact left (first ▸ atRoot)
    · exact long _ name rest atRoot
  · rw [updated.elsewhere fun same =>
      site.not_prefix_staging .root member (same ▸ List.prefix_rfl)]
    exact layout.staging
  · rw [updated.elsewhere (long .staging name rest (by simp))] at there
    exact layout.in_staging name rest there
  · rw [updated.elsewhere (long .member name rest (by simp))] at there
    exact layout.in_member name rest there
  · by_cases same : site.root ++ name :: rest = site.slot .root manifestFile
    · rw [Site.slot, Site.place_root] at same
      have names := List.cons.inj (List.append_cancel_left same)
      exact .inr (.inr ⟨rfl, names⟩)
    · rw [updated.elsewhere same] at there ⊢
      obtain onWay | inside | ⟨_, manifest⟩ := layout.left_root name among gone rest there
      · exact .inl onWay
      · exact .inr (.inl inside)
      · exact .inr (.inr ⟨rfl, manifest⟩)
  · rw [updated.elsewhere]
    · exact layout.elsewhere place apart inside outside
    · rintro rfl
      exact outside manifestFile member List.prefix_rfl

/-- **Taking away an empty directory**, the staging directory or the member, keeps the layout; the
member only if no entry that moves is on the way to it. -/
theorem shrunk (layout : Layout site before home written now) {place : Place}
    (empty : place = site.place .staging ∨ place = site.place .member ∧
      before.entryAt? place = none ∧ site.top ∉ site.names)
    (view : later.entryAt? = Function.update now.entryAt? place none) :
    Layout site before home written later := by
  have elsewhere : ∀ other, other ≠ place → later.entryAt? other = now.entryAt? other := by
    intro other apart
    rw [view, Function.update_of_ne apart]
  have fewer : ∀ other, later.entryAt? other ≠ none →
      later.entryAt? other = now.entryAt? other := by
    intro other there
    refine elsewhere other ?_
    rintro rfl
    rw [view, Function.update_self] at there
    exact there rfl
  refine ⟨fun name member rest => ?_, ?_, fun name rest there => ?_, fun name rest there => ?_,
    fun name member left rest there => ?_, fun other apart inside outside => ?_⟩
  · rw [elsewhere, layout.at_home name member]
    intro same
    rcases empty with rfl | ⟨rfl, _, clear⟩
    · exact site.not_prefix_staging _ member (same ▸ List.prefix_append _ _)
    · rw [Site.slot_append, Site.place, List.append_cancel_left_eq] at same
      cases at_ : home name with
      | root =>
          rw [at_] at same
          have first : name = site.top := (List.cons.inj same).1
          exact clear (first ▸ member)
      | staging =>
          rw [at_] at same
          exact site.staging_ne_top (List.cons.inj same).1
      | member =>
          rw [at_] at same
          simp at same
  · by_cases same : site.place .staging = place
    · exact .inr (by rw [view, same, Function.update_self])
    · rw [elsewhere _ same]
      exact layout.staging
  · rw [fewer _ there] at there
    exact layout.in_staging name rest there
  · rw [fewer _ there] at there
    exact layout.in_member name rest there
  · have same := fewer _ there
    rw [same] at there ⊢
    exact layout.left_root name member left rest there
  · by_cases same : other = place
    · subst same
      rcases empty with rfl | ⟨_, absent, _⟩
      · exact absurd List.prefix_rfl apart
      · exact .inl (by rw [view, Function.update_self, absent])
    · rw [elsewhere _ same]
      exact layout.elsewhere other apart inside outside

/-- Nothing is in the staging directory once no entry is at home there. -/
theorem staging_empty (layout : Layout site before home written now)
    (left : ∀ name ∈ site.names, home name ≠ .staging) (name : String) :
    now.entryAt? (site.place .staging ++ [name]) = none := by
  by_contra there
  obtain ⟨member, here⟩ := layout.in_staging name [] there
  exact left name member here

end Layout

end Uplift.Workspace
