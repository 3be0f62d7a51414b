import Uplift.Proofs.Manifest
import Uplift.Proofs.Path.Display
import Uplift.Proofs.Workspace.Relocation

/-!
# The course of a conversion

A conversion is prepared by planning it, making its staging directory and listing the entries that
move (`Prepared`).  That fixes a site and a layout in which everything is at the root (`Ready`).
Carrying the conversion out leads to another layout, however far it gets, and if it succeeds,
everything is at home in the member and the new manifest is at the root (`Ready.carryOut`).
-/

set_option autoImplicit false

namespace Uplift.Workspace

open FileTree (Place)

/-- A token as the system chooses it: it makes a name of its own, at which the path of the member
does not start. -/
structure FreshToken (root : Path) (memberDir token : String) : Prop where
  plain : '/' ∉ token.toList
  apart : ∀ member, Path.within? root memberDir = some member →
    ¬ root.names ++ [stagingStart ++ token] <+: member.names

/-- A conversion that is ready to move entries. -/
structure Prepared (disk : Disk) (root : Path) (memberDir token : String) (plan : ConversionPlan)
    (staged : Disk) (names : List String) : Prop where
  planned : planConversion disk.tree root memberDir token = .ok plan
  staging : disk.makeDirectory plan.staging = (.ok (), staged)
  listed : entriesToMove staged.tree root plan.memberTop = .ok names

/-- The path of a home. -/
def ConversionPlan.path (plan : ConversionPlan) : Home → Path
  | .root => plan.root
  | .staging => plan.staging
  | .member => plan.member

/-! ## Planning -/

/-- What a plan rests on. -/
structure PlannedFor (tree : FileTree) (root : Path) (memberDir token : String)
    (plan : ConversionPlan) : Prop where
  root_eq : plan.root = root
  staging_eq : plan.staging = root.joinText (stagingStart ++ token)
  within : Path.within? root memberDir = some plan.member
  absent : tree.has plan.member = false
  memberText_eq : plan.memberText = root.display plan.member
  loaded : Manifest.load tree (root.joinText manifestFile) = .ok plan.package
  single : plan.package.workspacePatterns? = none

theorem plannedFor_of_planConversion {tree : FileTree} {root : Path} {memberDir token : String}
    {plan : ConversionPlan} (planned : planConversion tree root memberDir token = .ok plan) :
    PlannedFor tree root memberDir token plan := by
  obtain ⟨package, loaded, rest⟩ := Results.bind_eq_ok_iff.1 planned
  split at rest
  · cases rest
  next single =>
    split at rest
    · cases rest
    next member within =>
      split at rest
      · cases rest
      next absent =>
        cases rest
        exact ⟨rfl, rfl, within, by simpa using absent, rfl, loaded, by simpa using single⟩

theorem isEntryName_staging {token : String} (plain : '/' ∉ token.toList) :
    FileTree.IsEntryName (stagingStart ++ token) := by
  refine ⟨isName_of_length ?_, ?_⟩
  · rw [String.length_append]
    have long : 2 < stagingStart.length := by decide
    omega
  · rw [String.toList_append, List.mem_append, not_or]
    exact ⟨by decide, plain⟩

/-- Staging directories do not move. -/
theorem moves_staging (memberTop token : String) :
    moves memberTop (stagingStart ++ token) = false := by
  have starts : Text.startsWith (stagingStart ++ token) stagingStart = true := by
    rw [Text.startsWith, String.toList_append,
      (Text.stripPrefix?_eq_some_iff stagingStart.toList _ token.toList).2 rfl]
    rfl
  rw [moves, starts]
  simp

/-- A member that is below the root and not there. -/
theorem absent_of_plannedFor {tree : FileTree} {root : Path} {memberDir token : String}
    {plan : ConversionPlan} (planned : PlannedFor tree root memberDir token plan)
    {place added : Place} (nonempty : added ≠ [])
    (plainest : plan.member = ⟨"" :: (place ++ added)⟩)
    (spelled : plan.member.Spells (place ++ added)) :
    tree.entryAt? (place ++ added) = none := by
  rcases List.eq_nil_or_concat added with rfl | ⟨above, last, rfl⟩
  · exact absurd rfl nonempty
  · rw [List.concat_eq_append, ← List.append_assoc] at *
    refine FileTree.entryAt?_of_not_has spelled ?_ planned.absent
    rw [plainest, List.getLast?_cons]
    simp

/-! ## The start -/

/-- The start of a conversion at a site: everything is at the root. -/
structure Ready (disk staged : Disk) (root : Path) (memberDir token : String)
    (plan : ConversionPlan) (site : Site) : Prop where
  planned : PlannedFor disk.tree root memberDir token plan
  site_root : site.root = root.names
  site_staging : site.staging = stagingStart ++ token
  site_member : site.place .member = plan.member.names
  spells : ∀ at_, (plan.path at_).Spells (site.place at_)
  layout : Layout site disk.tree (fun _ => .root) false staged.tree
  staging_absent : disk.tree.entryAt? (site.place .staging) = none
  member_absent : disk.tree.entryAt? (site.place .member) = none
  mem_names : ∀ name, name ∈ site.names ↔
    disk.tree.entryAt? (site.root ++ [name]) ≠ none ∧ moves plan.memberTop name = true
  manifest : ∃ content executable,
    disk.tree.entryAt? (site.root ++ [manifestFile]) = some (.file content executable)
  /-- The names below the root are given by the text for the member. -/
  given : ∀ name ∈ site.below .member, .normal name ∈ (Path.ofText memberDir).components
  /-- Tidy names are shown as they are. -/
  shown : AreTidy (site.below .member) →
    plan.memberText = String.intercalate "/" (site.below .member)

/-- **A prepared conversion is ready**, with everything at the root. -/
theorem Prepared.ready {disk staged : Disk} {root : Path} {memberDir token : String}
    {plan : ConversionPlan} {names : List String}
    (prepared : Prepared disk root memberDir token plan staged names)
    (wellFormed : disk.tree.WellFormed) (spells : root.Spells root.names)
    (fresh : FreshToken root memberDir token) :
    ∃ site : Site, site.names = names ∧ Ready disk staged root memberDir token plan site := by
  have planned := plannedFor_of_planConversion prepared.planned
  obtain ⟨added, nonempty, plainest, spelled, given⟩ :=
    Path.within?_eq_some spells.components_normalize planned.within
  obtain ⟨top, further, rfl⟩ := List.exists_cons_of_ne_nil nonempty
  have stagingName := isEntryName_staging fresh.plain
  have spelledStaging : plan.staging.Spells (root.names ++ [stagingStart ++ token]) := by
    rw [planned.staging_eq]
    exact spells.joinText stagingName.1 stagingName.2
  have notTop : stagingStart ++ token ≠ top := by
    rintro rfl
    refine fresh.apart _ planned.within ?_
    rw [spelled.names]
    simp
  obtain ⟨⟨_, failed⟩, _⟩ | ⟨_, made⟩ := Disk.tree_of_step prepared.staging
  · cases failed
  have madeDirectory := FileTree.madeDirectory_of_makeDirectory spelledStaging made
  obtain ⟨listing, listed, sorted⟩ := Results.bind_eq_ok_iff.1 prepared.listed
  cases sorted
  obtain ⟨entries, _, _, mem_listing⟩ := FileTree.list_of_spells spells listed
  have mem_names : ∀ name,
      name ∈ (listing.filter (moves plan.memberTop)).mergeSort (fun a b => !decide (b < a)) ↔
        disk.tree.entryAt? (root.names ++ [name]) ≠ none ∧ moves plan.memberTop name = true := by
    intro name
    rw [List.mem_mergeSort, List.mem_filter, mem_listing]
    refine and_congr_left fun moving => ?_
    have different : name ≠ stagingStart ++ token := by
      rintro rfl
      rw [moves_staging] at moving
      cases moving
    rw [madeDirectory.view, Function.update_of_ne (by simpa using different)]
  have distinct : listing.Nodup :=
    FileTree.nodup_list_of_makeDirectory wellFormed spells spelledStaging made listed
  let site : Site :=
    { root := root.names
      staging := stagingStart ++ token
      top := top
      further := further
      names := (listing.filter (moves plan.memberTop)).mergeSort (fun a b => !decide (b < a))
      distinct := (List.mergeSort_perm _ _).nodup_iff.2 (distinct.filter _)
      entryNames := fun name member => wellFormed.isEntryName ((mem_names name).1 member).1
      staging_not_mem := fun member => by
        have moving := ((mem_names _).1 member).2
        rw [moves_staging] at moving
        cases moving
      staging_ne_top := notTop }
  have absent := absent_of_plannedFor planned nonempty plainest spelled
  refine ⟨site, rfl, planned, rfl, rfl, spelled.names.symm, fun at_ => ?_,
    layout_of_madeDirectory absent madeDirectory, madeDirectory.absent, absent, mem_names, ?_,
    given, fun tidyName => ?_⟩
  · cases at_ with
    | root =>
        rw [Site.place_root, ConversionPlan.path, planned.root_eq]
        exact spells
    | staging => exact spelledStaging
    | member => exact spelled
  · obtain ⟨content, executable, _, file, _⟩ := (Manifest.load_iff spells).1 planned.loaded
    exact ⟨content, executable, file⟩
  · rw [planned.memberText_eq]
    exact Path.display_below spells spelled (congrArg Path.pieces plainest) nonempty
      (fun name member => Path.not_mem_of_component (given name member)) tidyName

/-! ## The names of the member -/

section Names

variable {disk staged : Disk} {root : Path} {memberDir token : String} {plan : ConversionPlan}
  {site : Site}

/-- The names of the member's path are names of entries. -/
theorem Ready.entryNames (ready : Ready disk staged root memberDir token plan site) {name : String}
    (member : name ∈ site.below .member) : FileTree.IsEntryName name :=
  ⟨(ready.spells .member).isName (List.mem_append_right _ member),
    Path.not_mem_of_component (ready.given name member)⟩

/-- The member's path as it is shown starts as the path does, if its names are tidy. -/
theorem Ready.memberTop (ready : Ready disk staged root memberDir token plan site)
    (tidy : AreTidy (site.below .member)) : plan.memberTop = site.top := by
  rw [ConversionPlan.memberTop, ready.shown tidy,
    Path.splitOn_slashed (by simp [Site.below]) fun name member => (ready.entryNames member).2]
  exact String.ofList_toList

/-- If the text for the member has tidy names only, so has its path. -/
theorem Ready.tidy (ready : Ready disk staged root memberDir token plan site)
    (tidyName : ∀ name, .normal name ∈ (Path.ofText memberDir).components → IsTidyName name) :
    AreTidy (site.below .member) :=
  areTidy_of_forall fun name member => tidyName name (ready.given name member)

/-- With tidy names, no entry that moves is on the way to the member. -/
theorem Ready.clear (ready : Ready disk staged root memberDir token plan site)
    (tidy : AreTidy (site.below .member)) : site.top ∉ site.names := by
  intro member
  have moving := ((ready.mem_names _).1 member).2
  rw [ready.memberTop tidy, moves] at moving
  simp at moving

end Names

/-! ## Carrying out -/

section CarryingOut

variable {disk staged now later : Disk} {root : Path} {memberDir token : String}
  {plan : ConversionPlan} {site : Site} {home : String → Home} {written : Bool}
  {result : Except FileError Unit}

theorem Ready.relocations (ready : Ready disk staged root memberDir token plan site) :
    (site.names.map fun name => (⟨name, root.joinText name⟩ : Relocation)) =
      site.names.map (relocationAt plan.path fun _ => .root) := by
  refine List.map_congr_left fun name _ => ?_
  rw [relocationAt, ConversionPlan.path, ready.planned.root_eq]

/-- Making the member keeps the layout, when everything has left the root. -/
theorem Ready.makeDirectories (ready : Ready disk staged root memberDir token plan site)
    (layout : Layout site disk.tree home written now.tree)
    (left : ∀ name ∈ site.names, home name ≠ .root)
    (done : now.makeDirectories plan.member = (result, later)) :
    Layout site disk.tree home written later.tree :=
  Disk.makeDirectories_induction (ready.spells .member)
    (fun _ _ _ onWay made layout => layout.grown (fun _ => left) onWay made) layout done

/-- What does not move from the root stays as it was, but for directories on the way to the
member. -/
theorem Ready.stays (ready : Ready disk staged root memberDir token plan site)
    (layout : Layout site disk.tree home written now.tree) {name : String}
    (there : disk.tree.entryAt? (site.root ++ [name]) ≠ none) (notMoved : name ∉ site.names)
    {rest : List String}
    (outside : site.place .member <+: site.root ++ name :: rest →
      site.root ++ name :: rest = site.place .member) :
    now.tree.entryAt? (site.root ++ name :: rest) =
        disk.tree.entryAt? (site.root ++ name :: rest) ∨
      disk.tree.entryAt? (site.root ++ name :: rest) = none ∧
        site.root ++ name :: rest <+: site.place .member := by
  refine (layout.elsewhere _ (fun above => ?_) outside fun other among above => ?_).imp_right
    fun grown => ⟨grown.1, grown.2.2⟩
  · rw [Site.place, List.prefix_append_right_inj] at above
    have same : site.staging = name := (List.cons_prefix_cons.1 above).1
    exact there (same ▸ ready.staging_absent)
  · exact notMoved (site.slot_root_prefix_iff.1 above ▸ among)

/-- If the member could be made, the manifest is among the entries that move: otherwise the member's
path would lead through it. -/
theorem Ready.manifest_mem (ready : Ready disk staged root memberDir token plan site)
    (shown : manifestFile ∉ site.names → site.top = manifestFile)
    (layout : Layout site disk.tree home written now.tree)
    (directory : now.tree.entryAt? (site.place .member) = some .directory) :
    manifestFile ∈ site.names := by
  by_contra stays
  have top := shown stays
  obtain ⟨content, executable, file⟩ := ready.manifest
  have onWay : site.root ++ [manifestFile] <+: site.place .member := by
    rw [← top, Site.place, Site.below]
    simp
  have isDirectory := FileTree.directory_of_prefix onWay directory
  obtain same | ⟨absent, _⟩ := ready.stays layout (by simp [file]) stays
    fun below => onWay.eq_of_length_le below.length_le
  · rw [isDirectory, file] at same
    cases same
  · rw [file] at absent
    cases absent

/-- The member is there once the manifest has arrived in it. -/
theorem Ready.member_directory (ready : Ready disk staged root memberDir token plan site)
    (layout : Layout site disk.tree home written now.tree) (member : manifestFile ∈ site.names)
    (arrived : home manifestFile = .member) :
    now.tree.entryAt? (site.place .member) = some .directory := by
  have there := layout.at_home manifestFile member []
  obtain ⟨content, executable, file⟩ := ready.manifest
  rw [List.append_nil, List.append_nil, arrived, Site.slot, Site.slot, Site.place_root, file]
    at there
  have isThere : now.tree.entryAt? (site.place .member ++ [manifestFile]) ≠ none := by
    rw [there]
    exact Option.some_ne_none _
  exact FileTree.entryAt?_above isThere

/-- Writing the manifest keeps the layout, when everything is in the member. -/
theorem Ready.writeText (ready : Ready disk staged root memberDir token plan site)
    (layout : Layout site disk.tree home false now.tree) (member : manifestFile ∈ site.names)
    (arrived : ∀ name ∈ site.names, home name = .member) {text : String}
    (done : now.writeText plan.rootManifest text = (result, later)) :
    ∃ written, Layout site disk.tree home written later.tree ∧
      (result = .ok () → later.tree.entryAt? (site.slot .root manifestFile) =
        some (.file (Text.encode text) false)) := by
  have spelled : plan.rootManifest.Spells (site.slot .root manifestFile) :=
    spells_slot ready.spells .root member
  have left : home manifestFile ≠ .root := by simp [arrived manifestFile member]
  have rewritten : ∀ content, now.tree.writeBytes plan.rootManifest content = .ok later.tree →
      Layout site disk.tree home true later.tree := by
    intro content wrote
    obtain ⟨_, updated, _⟩ := FileTree.updated_of_writeBytes spelled wrote
    exact layout.manifest_written member left updated
  obtain ⟨⟨error, rfl⟩, same | ⟨content, wrote⟩⟩ | ⟨rfl, wrote⟩ := Disk.tree_of_writeText done
  · exact ⟨false, by rwa [same], nofun⟩
  · exact ⟨true, rewritten content wrote, nofun⟩
  · obtain ⟨executable, updated, fresh⟩ := FileTree.updated_of_writeBytes spelled wrote
    refine ⟨true, rewritten _ wrote, fun _ => ?_⟩
    rw [updated.here, fresh]
    by_contra there
    rw [Site.slot, Site.place_root] at there
    have flat := updated.flat
    rw [Site.slot, Site.place_root] at flat
    obtain ⟨_, directory⟩ | inMember | ⟨no, _⟩ :=
      layout.left_root manifestFile member left [] there
    · exact flat directory
    · have same : site.place .member = site.root ++ [manifestFile] := by
        refine inMember.eq_of_length_le ?_
        simp [Site.place, Site.below]
      refine flat ?_
      rw [← same]
      exact ready.member_directory layout member (arrived manifestFile member)
    · cases no

/-- Carrying out changes no names. -/
theorem names_carryOut {entries moved : List Relocation}
    (done : Workspace.carryOut plan now entries = (result, moved, later)) :
    moved.map Relocation.name = entries.map Relocation.name := by
  rw [Workspace.carryOut] at done
  split at done
  next moving =>
    cases done
    exact names_moveAll moving
  next moving =>
    split at done
    · cases done
      exact names_moveAll moving
    · split at done
      next moving' =>
        cases done
        exact (names_moveAll moving').trans (names_moveAll moving)
      next moving' =>
        cases done
        exact (names_moveAll moving').trans (names_moveAll moving)

/-- **However far a conversion is carried out**, each entry is at its home, and the relocations say
so; if it is carried out to the end, everything is at home in the member, and the new manifest is at
the root. -/
theorem Ready.carryOut (ready : Ready disk staged root memberDir token plan site)
    (shown : manifestFile ∉ site.names → site.top = manifestFile) {entries : List Relocation}
    (done : carryOut plan staged (site.names.map (relocationAt plan.path fun _ => .root)) =
      (result, entries, later)) :
    ∃ home written, Layout site disk.tree home written later.tree ∧
      entries = site.names.map (relocationAt plan.path home) ∧
      (result = .ok () → manifestFile ∈ site.names ∧ (∀ name ∈ site.names, home name = .member) ∧
        later.tree.entryAt? (site.slot .root manifestFile) =
          some (.file (Text.encode (workspaceManifest plan.package plan.memberText).render)
            false)) := by
  rw [Workspace.carryOut] at done
  split at done
  next error moved after moving =>
    cases done
    obtain ⟨home, layout, rfl, _⟩ := moveAll_layout ready.spells .out ready.layout
      (fun _ _ => .inl rfl) site.distinct (fun _ member => ⟨member, rfl⟩) moving
    exact ⟨home, false, layout, rfl, nofun⟩
  next moved after moving =>
    obtain ⟨home, layout, rfl, between, _, all⟩ := moveAll_layout ready.spells .out ready.layout
      (fun _ _ => .inl rfl) site.distinct (fun _ member => ⟨member, rfl⟩) moving
    have atStaging := all rfl
    have left : ∀ name ∈ site.names, home name ≠ .root := by
      intro name member
      simp [atStaging name member]
    split at done
    next error made making =>
      cases done
      exact ⟨home, false, ready.makeDirectories layout left making, rfl, nofun⟩
    next made making =>
      have layout := ready.makeDirectories layout left making
      have directory := Disk.directory_of_makeDirectories (ready.spells .member) making
      have member := ready.manifest_mem shown layout directory
      have atMember : ∀ name ∈ site.names, home name = .staging ∨ home name = .member :=
        fun name member => .inl (atStaging name member)
      split at done
      next error moved' after' moving' =>
        cases done
        obtain ⟨home', layout', rfl, _⟩ := moveAll_layout ready.spells .into layout atMember
          site.distinct (fun name member => ⟨member, atStaging name member⟩) moving'
        exact ⟨home', false, layout', rfl, nofun⟩
      next moved' after' moving' =>
        obtain ⟨home', layout', rfl, _, _, all'⟩ := moveAll_layout ready.spells .into layout
          atMember site.distinct (fun name member => ⟨member, atStaging name member⟩) moving'
        have arrived := all' rfl
        cases writing : after'.writeText plan.rootManifest
            (workspaceManifest plan.package plan.memberText).render with
        | mk wrote final =>
            simp only [writing] at done
            cases done
            obtain ⟨written, layout'', content⟩ :=
              ready.writeText layout' member arrived writing
            exact ⟨home', written, layout'', rfl, fun ok => ⟨member, arrived, content ok⟩⟩

end CarryingOut

/-! ## The whole course -/

/-- The ways in which a conversion can end. -/
inductive Course (disk : Disk) (root : Path) (memberDir token : String) :
    Except Failure Conversion → Disk → Prop where
  | unplanned {failure : Failure} :
      planConversion disk.tree root memberDir token = .error failure →
      Course disk root memberDir token (.error failure) disk
  | unstaged {plan : ConversionPlan} {error : FileError} {later : Disk} :
      planConversion disk.tree root memberDir token = .ok plan →
      disk.makeDirectory plan.staging = (.error error, later) →
      Course disk root memberDir token (.error (.other error.message)) later
  | unlisted {plan : ConversionPlan} {error : FileError} {staged : Disk} :
      planConversion disk.tree root memberDir token = .ok plan →
      disk.makeDirectory plan.staging = (.ok (), staged) →
      entriesToMove staged.tree root plan.memberTop = .error error →
      Course disk root memberDir token (.error (.other error.message))
        (staged.removeAll plan.staging).2
  | finished {plan : ConversionPlan} {names : List String} {entries : List Relocation}
      {staged now later : Disk} :
      Prepared disk root memberDir token plan staged names →
      carryOut plan staged (names.map fun name => ⟨name, root.joinText name⟩) =
        (.ok (), entries, now) →
      now.removeAll plan.staging = (.ok (), later) →
      Course disk root memberDir token
        (.ok ⟨plan.member, entries.map Relocation.name,
          workspaceManifest plan.package plan.memberText⟩) later
  | unclosed {plan : ConversionPlan} {names : List String} {entries : List Relocation}
      {error : FileError} {staged now later : Disk} :
      Prepared disk root memberDir token plan staged names →
      carryOut plan staged (names.map fun name => ⟨name, root.joinText name⟩) =
        (.ok (), entries, now) →
      now.removeAll plan.staging = (.error error, later) →
      Course disk root memberDir token (.error (.other error.message)) later
  | recovered {plan : ConversionPlan} {names : List String} {entries : List Relocation}
      {error : FileError} {failure : Failure} {staged now later : Disk} :
      Prepared disk root memberDir token plan staged names →
      carryOut plan staged (names.map fun name => ⟨name, root.joinText name⟩) =
        (.error error, entries, now) →
      recover plan now entries error = (failure, later) →
      Course disk root memberDir token (.error failure) (removeMember plan later)

/-- Every conversion ends in one of these ways. -/
theorem course_of_convert {disk later : Disk} {root : Path} {memberDir token : String}
    {result : Except Failure Conversion}
    (done : convert disk root memberDir token = (result, later)) :
    Course disk root memberDir token result later := by
  rw [convert] at done
  split at done
  next failure unplanned =>
    cases done
    exact .unplanned unplanned
  next plan planned =>
    split at done
    next error after unstaged =>
      cases done
      exact .unstaged planned unstaged
    next staged staging =>
      split at done
      next error unlisted =>
        cases done
        exact .unlisted planned staging unlisted
      next names listed =>
        have prepared : Prepared disk root memberDir token plan staged names :=
          ⟨planned, staging, listed⟩
        split at done
        next entries now carried =>
          split at done
          next error after unclosed =>
            cases done
            exact .unclosed prepared carried unclosed
          next after closed =>
            cases done
            exact .finished prepared carried closed
        next error entries now carried =>
          cases done
          exact .recovered prepared carried rfl

/-! ## What a conversion leaves -/

/-- The first name of a path as a root shows it. -/
def shownTop (root member : Path) : String :=
  String.ofList ((Text.splitOn '/' (root.display member).toList).headD [])

/-- What a tree has become when a package has been converted: its entries are in the member, and
nothing is lost, doubled or left over. -/
structure Converted (before : FileTree) (root staging member : Place) (moved : List String)
    (manifest : String) (later : FileTree) : Prop where
  /-- The manifest of the package is among what moves. -/
  package : manifestFile ∈ moved
  /-- Everything that moves is in the member, with everything in it. -/
  arrived : ∀ name ∈ moved, ∀ rest,
    later.entryAt? (member ++ name :: rest) = before.entryAt? (root ++ name :: rest)
  /-- Nothing else is in the member. -/
  others : ∀ name ∉ moved, ∀ rest, later.entryAt? (member ++ name :: rest) = none
  /-- The new manifest is at the root. -/
  manifest : later.entryAt? (root ++ [manifestFile]) =
    some (.file (Text.encode manifest) false)
  /-- Nothing that moves is left at the root, where only the new manifest and the member may take
  its place. -/
  left : ∀ name ∈ moved, ∀ rest, name :: rest ≠ [manifestFile] →
    ¬ root ++ name :: rest <+: member → ¬ member <+: root ++ name :: rest →
      later.entryAt? (root ++ name :: rest) = none
  /-- On the way to the member there are directories. -/
  way : ∀ place, place <+: member → later.entryAt? place = some .directory
  /-- What is on the way to the member and does not move was a directory or was not there. -/
  wayBefore : ∀ place, place <+: member → (∀ name ∈ moved, ¬ root ++ [name] <+: place) →
    before.entryAt? place = none ∨ before.entryAt? place = some .directory
  /-- Everything else is as it was. -/
  kept : ∀ place, ¬ place <+: member → ¬ member <+: place →
    (∀ name ∈ moved, ¬ root ++ [name] <+: place) → later.entryAt? place = before.entryAt? place
  /-- The staging directory is gone. -/
  staging : before.entryAt? staging = none ∧ later.entryAt? staging = none

section Converted

variable {disk staged now later : Disk} {root : Path} {memberDir token : String}
  {plan : ConversionPlan} {site : Site} {home : String → Home} {written : Bool}

/-- With everything at home in the member, and the staging directory gone, the tree is converted. -/
theorem Ready.converted (ready : Ready disk staged root memberDir token plan site)
    (layout : Layout site disk.tree home written later.tree) (member : manifestFile ∈ site.names)
    (arrived : ∀ name ∈ site.names, home name = .member) {text : String}
    (manifest : later.tree.entryAt? (site.slot .root manifestFile) =
      some (.file (Text.encode text) false))
    (gone : later.tree.entryAt? (site.place .staging) = none) :
    Converted disk.tree site.root (site.place .staging) (site.place .member) site.names text
      later.tree := by
  have directory := ready.member_directory layout member (arrived manifestFile member)
  have slot_root : ∀ name, site.slot .root name = site.root ++ [name] := by
    intro name
    rw [Site.slot, Site.place_root]
  have left : ∀ name ∈ site.names, home name ≠ .root := by
    intro name among
    simp [arrived name among]
  have elsewhere : ∀ place, ¬ site.place .staging <+: place →
      (site.place .member <+: place → place = site.place .member) →
      (∀ name ∈ site.names, ¬ site.root ++ [name] <+: place) →
        later.tree.entryAt? place = disk.tree.entryAt? place ∨
          disk.tree.entryAt? place = none ∧ later.tree.entryAt? place = some .directory ∧
            place <+: site.place .member := by
    intro place notStaging notInside notMoved
    refine layout.elsewhere place notStaging notInside fun name among => ?_
    rw [slot_root]
    exact notMoved name among
  refine
    { package := member
      arrived := fun name among rest => ?_
      others := fun name notMoved rest => ?_
      manifest := by rwa [slot_root] at manifest
      left := fun name among rest notManifest notAbove notBelow => ?_
      way := fun place onWay => FileTree.directory_of_prefix onWay directory
      wayBefore := fun place onWay notMoved => ?_
      kept := fun place notAbove notBelow notMoved => ?_
      staging := ⟨ready.staging_absent, gone⟩ }
  · have there := layout.at_home name among rest
    rwa [arrived name among, slot_root, Site.slot, List.append_assoc, List.append_assoc,
      List.singleton_append] at there
  · by_contra there
    exact notMoved (layout.in_member name rest there).1
  · by_contra there
    obtain ⟨above, _⟩ | below | ⟨_, same, none⟩ :=
      layout.left_root name among (left name among) rest there
    · exact notAbove above
    · exact notBelow below
    · exact notManifest (by rw [same, none])
  · obtain same | ⟨absent, _⟩ := elsewhere place (site.not_staging_prefix onWay)
      (fun below => onWay.eq_of_length_le below.length_le) notMoved
    · exact .inr (same ▸ FileTree.directory_of_prefix onWay directory)
    · exact .inl absent
  · by_cases inStaging : site.place .staging <+: place
    · obtain ⟨rest, rfl⟩ := inStaging
      cases rest with
      | nil => rw [List.append_nil, gone, ready.staging_absent]
      | cons name rest =>
          rw [FileTree.entryAt?_below (by simp [gone]),
            FileTree.entryAt?_below (by simp [ready.staging_absent])]
    · obtain same | ⟨_, _, onWay⟩ := elsewhere place inStaging
        (fun below => absurd below notBelow) notMoved
      · exact same
      · exact absurd onWay notAbove

theorem Ready.memberTop_eq (ready : Ready disk staged root memberDir token plan site) :
    plan.memberTop = shownTop root plan.member := by
  rw [ConversionPlan.memberTop, ready.planned.memberText_eq, shownTop]

/-- The manifest moves unless it is what the member's path is shown to start with. -/
theorem Ready.manifest_mem_iff (ready : Ready disk staged root memberDir token plan site) :
    manifestFile ∈ site.names ↔ shownTop root plan.member ≠ manifestFile := by
  obtain ⟨content, executable, file⟩ := ready.manifest
  have notKept : keptAtRoot.contains manifestFile = false := by decide
  have notStaging : Text.startsWith manifestFile stagingStart = false := by decide
  rw [ready.mem_names, file, moves, notKept, notStaging, ready.memberTop_eq]
  constructor
  · rintro ⟨_, moving⟩ same
    simp [same] at moving
  · intro different
    exact ⟨Option.some_ne_none _, by simp [Ne.symm different]⟩

/-- With tidy names, the manifest stays only if the member's path starts with it. -/
theorem Ready.top_eq_manifest (ready : Ready disk staged root memberDir token plan site)
    (tidy : AreTidy (site.below .member)) (stays : manifestFile ∉ site.names) :
    site.top = manifestFile := by
  rw [ready.manifest_mem_iff, not_not] at stays
  rw [← ready.memberTop tidy, ready.memberTop_eq, stays]

/-- A conversion that succeeds was ready, and converts the package, if the manifest can stay only
where the member's path starts with it. -/
theorem ready_of_convert {conversion : Conversion} (wellFormed : disk.tree.WellFormed)
    (spells : root.Spells root.names) (fresh : FreshToken root memberDir token)
    (done : convert disk root memberDir token = (.ok conversion, later)) :
    ∃ staged plan site, Ready disk staged root memberDir token plan site ∧
      conversion =
        ⟨plan.member, site.names, workspaceManifest plan.package plan.memberText⟩ ∧
      ((manifestFile ∉ site.names → site.top = manifestFile) →
        Converted disk.tree root.names (root.names ++ [stagingStart ++ token]) plan.member.names
          site.names (workspaceManifest plan.package plan.memberText).render later.tree) := by
  cases course_of_convert done with
  | @finished plan names entries staged now _ prepared carried closed =>
      obtain ⟨site, rfl, ready⟩ := prepared.ready wellFormed spells fresh
      rw [ready.relocations] at carried
      have moved : entries.map Relocation.name = site.names := by
        rw [names_carryOut carried, List.map_map]
        exact List.map_id _
      refine ⟨staged, plan, site, ready, by rw [moved], fun shown => ?_⟩
      obtain ⟨home, written, layout, _, complete⟩ := ready.carryOut shown carried
      obtain ⟨member, arrived, manifest⟩ := complete rfl
      have inside : site.place .staging ≠ [] := by simp [Site.place, Site.below]
      have empty := layout.staging_empty fun name among => by simp [arrived name among]
      obtain ⟨⟨_, failed⟩, _⟩ | ⟨_, view⟩ :=
        Disk.view_of_removeAll (ready.spells .staging) inside empty closed
      · cases failed
      · have kept : later.tree.entryAt? (site.slot .root manifestFile) =
            now.tree.entryAt? (site.slot .root manifestFile) := by
          rw [view, Function.update_of_ne]
          intro same
          exact site.not_prefix_staging .root member (same ▸ List.prefix_rfl)
        have converted := ready.converted (layout.shrunk (.inl rfl) view) member arrived
          (kept.trans manifest) (by rw [view, Function.update_self])
        rw [ready.site_member, Site.place, Site.below, ready.site_root, ready.site_staging]
          at converted
        exact converted

end Converted

/-- **A conversion that succeeds moves the package into the member and destroys nothing**, exactly
if the root does not show the member's path as one that starts with the manifest. -/
theorem converted_of_convert {disk later : Disk} {root : Path} {memberDir token : String}
    {conversion : Conversion} (wellFormed : disk.tree.WellFormed)
    (absolute : root.isAbsolute = true) (normalized : root.normalize.same root = true)
    (fresh : FreshToken root memberDir token)
    (done : convert disk root memberDir token = (.ok conversion, later)) :
    Path.within? root memberDir = some conversion.member ∧
      (Converted disk.tree root.names (root.names ++ [stagingStart ++ token])
          conversion.member.names conversion.moved conversion.rootManifest.render later.tree ↔
        shownTop root conversion.member ≠ manifestFile) := by
  have spells := Path.spells_names absolute normalized
  obtain ⟨_, plan, site, ready, rfl, converted⟩ := ready_of_convert wellFormed spells fresh done
  refine ⟨ready.planned.within, ?_⟩
  rw [← ready.manifest_mem_iff]
  exact ⟨Converted.package, fun member => converted fun stays => absurd member stays⟩

/-! ## A package with an installed one -/

/-- A package in a directory of the disk: a manifest and the packages installed for it. -/
def installedPackage : FileTree :=
  .directory [("w", .directory [
    ("package.json", .file (Text.encode "\x7b\"name\": \"solo\"\x7d") false),
    ("node_modules", .directory [("main.js", .file (Text.encode "run()") true)])])]

theorem within_packages :
    Path.within? ⟨["", "w"]⟩ "packages/app" = some ⟨["", "w", "packages", "app"]⟩ := by
  decide +kernel

theorem freshToken_packages : FreshToken ⟨["", "w"]⟩ "packages/app" "x" where
  plain := by decide
  apart member found := by
    cases within_packages.symm.trans found
    decide

theorem converted_of_convert_installedPackage :
    installedPackage.WellFormed ∧ FreshToken ⟨["", "w"]⟩ "packages/app" "x" ∧
    ∃ conversion later,
      convert ⟨installedPackage, []⟩ ⟨["", "w"]⟩ "packages/app" "x" = (.ok conversion, later) ∧
      conversion.moved = ["package.json"] ∧
      Converted installedPackage ["w"] ["w", ".migrasaurus-staging-x"] ["w", "packages", "app"]
        conversion.moved conversion.rootManifest.render later.tree := by
  have wellFormed : installedPackage.WellFormed := by decide +kernel
  have moved : (convert ⟨installedPackage, []⟩ ⟨["", "w"]⟩ "packages/app" "x").1.toOption.map
      Conversion.moved = some ["package.json"] := by
    decide +kernel
  refine ⟨wellFormed, freshToken_packages, ?_⟩
  cases done : convert ⟨installedPackage, []⟩ ⟨["", "w"]⟩ "packages/app" "x" with
  | mk result later =>
      rw [done] at moved
      cases result with
      | error failure => cases moved
      | ok conversion =>
          obtain ⟨within, results⟩ :=
            converted_of_convert wellFormed rfl (by decide) freshToken_packages done
          have member : conversion.member = ⟨["", "w", "packages", "app"]⟩ :=
            Option.some.inj (within.symm.trans within_packages)
          rw [member] at results
          exact ⟨conversion, later, rfl, Option.some.inj moved, results.2 (by decide +kernel)⟩

/-- **A conversion can destroy the manifest**: with a backslash in its name, the member is shown as
if it were below the manifest, which therefore stays and is written over. -/
theorem manifest_destroyed :
    let run := convert ⟨installedPackage, []⟩ ⟨["", "w"]⟩ "package.json\\app" "x"
    run.1.toOption.map Conversion.moved = some [] ∧
      (run.2.tree.get? ["w", "package.json\\app", "package.json"]).isNone = true ∧
      run.2.tree.readText ⟨["", "w", "package.json"]⟩ ≠
        installedPackage.readText ⟨["", "w", "package.json"]⟩ := by
  decide +kernel

end Uplift.Workspace
