import Uplift.Proofs.Workspace.Conversion

/-!
# A conversion that fails loses nothing

Every step of a conversion may fail, and so may every step of the recovery after it.  Whatever
happens, if a conversion fails, everything that was at the root is still there, in the staging
directory or in the member, with everything in it.  The staging directory is removed only when it is
empty: a conversion that could only remove empty directories does the same.  And if everything could
be moved back, the tree is as it was, apart from empty directories (`convert_failed`).
-/

set_option autoImplicit false

namespace Uplift.Workspace

open FileTree (Place)

/-! ## What is left after a failure -/

/-- The directories in which the entries of a root may be after a conversion. -/
def homePlaces (root : Path) (memberDir token : String) : List Place :=
  root.names :: (root.names ++ [stagingStart ++ token]) ::
    (Path.within? root memberDir).toList.map Path.names

/-- An entry of a root is in a directory, with everything that was in it. -/
structure FoundIn (before : FileTree) (root : Place) (later : FileTree) (dir : Place)
    (member : Option Path) (name : String) : Prop where
  intact : ∀ rest, before.entryAt? (root ++ name :: rest) ≠ none →
    later.entryAt? (dir ++ name :: rest) = before.entryAt? (root ++ name :: rest)
  /-- Nothing more is in it, unless the member is. -/
  nothingMore : (∀ path ∈ member, ¬ dir ++ [name] <+: path.names) → ∀ rest,
    later.entryAt? (dir ++ name :: rest) = before.entryAt? (root ++ name :: rest)

/-- A tree is as it was, apart from directories that are the staging directory or on the way to the
member. -/
def Restored (before : FileTree) (staging : Place) (member : Option Path) (later : FileTree) :
    Prop :=
  ∀ place, later.entryAt? place = before.entryAt? place ∨
    before.entryAt? place = none ∧ later.entryAt? place = some .directory ∧
      (place = staging ∨ ∃ path ∈ member, place <+: path.names)

/-- Whether a conversion fails while it moves entries, makes the member or writes the manifest, and
then moves every entry back. -/
def rolledBack (disk : Disk) (root : Path) (memberDir token : String) : Bool :=
  match planConversion disk.tree root memberDir token with
  | .error _ => false
  | .ok plan =>
    match disk.makeDirectory plan.staging with
    | (.error _, _) => false
    | (.ok (), disk) =>
      match entriesToMove disk.tree root plan.memberTop with
      | .error _ => false
      | .ok names =>
        match carryOut plan disk (names.map fun name => ⟨name, root.joinText name⟩) with
        | (.ok (), _, _) => false
        | (.error _, entries, disk) => (rollBack root disk entries).1

/-- What becomes of a prepared conversion says whether it is rolled back. -/
theorem Prepared.rolledBack_eq {disk staged now : Disk} {root : Path} {memberDir token : String}
    {plan : ConversionPlan} {names : List String} {result : Except FileError Unit}
    {entries : List Relocation} (prepared : Prepared disk root memberDir token plan staged names)
    (carried : carryOut plan staged (names.map fun name => ⟨name, root.joinText name⟩) =
      (result, entries, now)) :
    rolledBack disk root memberDir token =
      match result with
      | .ok () => false
      | .error _ => (rollBack root now entries).1 := by
  rw [rolledBack, prepared.planned]
  simp only [prepared.staging, prepared.listed, carried]
  cases result <;> rfl

theorem foundIn_root (tree : FileTree) (root : Place) (member : Option Path) (name : String) :
    FoundIn tree root tree root member name :=
  ⟨fun _ _ => rfl, fun _ _ => rfl⟩

section Layouts

variable {disk staged now later : Disk} {root : Path} {memberDir token : String}
  {plan : ConversionPlan} {site : Site} {home : String → Home} {written : Bool}

theorem Ready.place_mem_homePlaces (ready : Ready disk staged root memberDir token plan site)
    (at_ : Home) : site.place at_ ∈ homePlaces root memberDir token := by
  have member := ready.site_member
  have within := ready.planned.within
  cases at_ with
  | root => simp [homePlaces, Site.place_root, ready.site_root]
  | staging => simp [homePlaces, Site.place, Site.below, ready.site_root, ready.site_staging]
  | member => simp [homePlaces, member, within]

/-- In every layout, each entry of the root is found in one of the directories. -/
theorem Ready.foundIn (ready : Ready disk staged root memberDir token plan site)
    (layout : Layout site disk.tree home written later.tree) {name : String}
    (there : disk.tree.entryAt? (root.names ++ [name]) ≠ none) :
    ∃ dir ∈ homePlaces root memberDir token,
      FoundIn disk.tree root.names later.tree dir (Path.within? root memberDir) name := by
  rw [← ready.site_root] at there ⊢
  by_cases moves : name ∈ site.names
  · have same : ∀ rest, later.tree.entryAt? (site.place (home name) ++ name :: rest) =
        disk.tree.entryAt? (site.root ++ name :: rest) := by
      intro rest
      have found := layout.at_home name moves rest
      rwa [Site.slot, Site.slot, Site.place_root, List.append_assoc, List.append_assoc,
        List.singleton_append] at found
    exact ⟨_, ready.place_mem_homePlaces (home name), fun rest _ => same rest,
      fun _ rest => same rest⟩
  · refine ⟨site.root, ?_, fun rest present => ?_, fun notOnWay rest => ?_⟩
    · rw [← Site.place_root]
      exact ready.place_mem_homePlaces .root
    · have notBelow : ¬ site.place .member <+: site.root ++ name :: rest := by
        rintro ⟨further, whole⟩
        rw [← whole] at present
        cases further with
        | nil =>
            rw [List.append_nil] at present
            exact present ready.member_absent
        | cons next further =>
            exact present (FileTree.entryAt?_below (by simp [ready.member_absent]) _ _)
      obtain same | ⟨absent, _⟩ := ready.stays layout there moves
        fun below => absurd below notBelow
      · exact same
      · exact absurd absent present
    · have apart : ¬ site.root ++ [name] <+: site.place .member := by
        rw [ready.site_member]
        exact notOnWay _ ready.planned.within
      have notBelow : ¬ site.place .member <+: site.root ++ name :: rest := by
        intro below
        refine apart ?_
        rw [Site.place, List.prefix_append_right_inj] at below ⊢
        rw [Site.below] at below ⊢
        rw [(List.cons_prefix_cons.1 below).1]
        simp
      obtain same | ⟨_, onWay⟩ := ready.stays layout there moves
        fun below => absurd below notBelow
      · exact same
      · refine absurd (List.IsPrefix.trans ?_ onWay) apart
        simp

/-- With everything back at the root, the tree is as it was. -/
theorem Ready.restored (ready : Ready disk staged root memberDir token plan site)
    (layout : Layout site disk.tree home written later.tree)
    (back : ∀ name ∈ site.names, home name = .root) :
    Restored disk.tree (site.place .staging) (Path.within? root memberDir) later.tree := by
  intro place
  have nothingBelow : ∀ at_, (disk.tree.entryAt? (site.place at_) = none) →
      ∀ name rest, disk.tree.entryAt? (site.place at_ ++ name :: rest) = none := by
    intro at_ absent name rest
    exact FileTree.entryAt?_below (by simp [absent]) name rest
  by_cases inStaging : site.place .staging <+: place
  · obtain ⟨rest, rfl⟩ := inStaging
    cases rest with
    | nil =>
        rw [List.append_nil, ready.staging_absent]
        rcases layout.staging with here | gone
        · exact .inr ⟨rfl, here, .inl rfl⟩
        · exact .inl gone
    | cons name rest =>
        left
        rw [nothingBelow .staging ready.staging_absent]
        by_contra there
        obtain ⟨member, atStaging⟩ := layout.in_staging name rest there
        simp [back name member] at atStaging
  · by_cases inMember : site.place .member <+: place ∧ place ≠ site.place .member
    · obtain ⟨⟨rest, rfl⟩, different⟩ := inMember
      cases rest with
      | nil => exact absurd (List.append_nil _) different
      | cons name rest =>
          left
          rw [nothingBelow .member ready.member_absent]
          by_contra there
          obtain ⟨member, atMember⟩ := layout.in_member name rest there
          simp [back name member] at atMember
    · by_cases moves : ∃ name ∈ site.names, site.slot .root name <+: place
      · obtain ⟨name, member, rest, rfl⟩ := moves
        have found := layout.at_home name member rest
        rw [back name member] at found
        exact .inl found
      · have notInside : site.place .member <+: place → place = site.place .member := by
          intro below
          by_contra different
          exact inMember ⟨below, different⟩
        obtain same | ⟨absent, here, onWay⟩ := layout.elsewhere place inStaging notInside
          fun name member above => moves ⟨name, member, above⟩
        · exact .inl same
        · refine .inr ⟨absent, here, .inr ⟨plan.member, ready.planned.within, ?_⟩⟩
          rwa [← ready.site_member]

/-! ## Recovery -/

/-- Removing the member, if it is empty, keeps the layout. -/
theorem Ready.removeMember (ready : Ready disk staged root memberDir token plan site)
    (clear : site.top ∉ site.names) (layout : Layout site disk.tree home written now.tree) :
    Layout site disk.tree home written (removeMember plan now).tree := by
  rw [Workspace.removeMember]
  split
  · have inside : site.place .member ≠ [] := by simp [Site.place, Site.below]
    cases removing : now.removeDirectory plan.member with
    | mk result after =>
        obtain same | view := Disk.view_of_removeDirectory (ready.spells .member) inside removing
        · rwa [same]
        · exact layout.shrunk (.inr ⟨rfl, ready.member_absent, clear⟩) view
  · exact layout

/-- Removing the staging directory keeps the layout, when no entry is at home there. -/
theorem Ready.removeStaging (ready : Ready disk staged root memberDir token plan site)
    (layout : Layout site disk.tree home written now.tree)
    (left : ∀ name ∈ site.names, home name ≠ .staging) :
    Layout site disk.tree home written (now.removeAll plan.staging).2.tree := by
  have inside : site.place .staging ≠ [] := by simp [Site.place, Site.below]
  cases removing : now.removeAll plan.staging with
  | mk result after =>
      obtain ⟨_, same⟩ | ⟨_, view⟩ := Disk.view_of_removeAll (ready.spells .staging) inside
        (layout.staging_empty left) removing
      · rwa [same]
      · exact layout.shrunk (.inl rfl) view

/-- Removing the staging directory, when no entry is at home there, is removing an empty one. -/
theorem Ready.removeDirectory_staging (ready : Ready disk staged root memberDir token plan site)
    (layout : Layout site disk.tree home written now.tree)
    (left : ∀ name ∈ site.names, home name ≠ .staging) :
    now.removeDirectory plan.staging = now.removeAll plan.staging :=
  Disk.removeDirectory_eq_removeAll (ready.spells .staging) layout.staging
    (layout.staging_empty left)

/-- **After a recovery** each entry is at its home; if everything could be moved back, that is the
root. -/
theorem Ready.recover (ready : Ready disk staged root memberDir token plan site)
    (clear : site.top ∉ site.names) (layout : Layout site disk.tree home written now.tree)
    {error : FileError} {failure : Failure}
    (done : recover plan now (site.names.map (relocationAt plan.path home)) error =
      (failure, later)) :
    ∃ home', Layout site disk.tree home' written later.tree ∧
      ((rollBack plan.root now (site.names.map (relocationAt plan.path home))).1 = true →
        ∀ name ∈ site.names, home' name = .root) := by
  rw [Workspace.recover] at done
  split at done
  next after restoring =>
    obtain ⟨home', layout', _, back⟩ := rollBack_layout ready.spells clear layout site.distinct
      (fun _ member => member) restoring
    have left : ∀ name ∈ site.names, home' name ≠ .staging := by
      intro name member
      simp [back rfl name member]
    cases done
    exact ⟨home', ready.removeStaging layout' left, fun _ => back rfl⟩
  next after restoring =>
    obtain ⟨home', layout', _, _⟩ := rollBack_layout ready.spells clear layout site.distinct
      (fun _ member => member) restoring
    cases done
    refine ⟨home', layout', fun restored => ?_⟩
    rw [restoring] at restored
    cases restored

end Layouts

/-- Once the staging directory is made, the entries can be listed. -/
theorem listed_of_staged {disk staged : Disk} {root : Path} {memberDir token : String}
    {plan : ConversionPlan} (spells : root.Spells root.names)
    (fresh : FreshToken root memberDir token)
    (planned : planConversion disk.tree root memberDir token = .ok plan)
    (staging : disk.makeDirectory plan.staging = (.ok (), staged)) :
    ∃ names, Prepared disk root memberDir token plan staged names := by
  have plannedFor := plannedFor_of_planConversion planned
  obtain ⟨content, executable, _, file, _⟩ := (Manifest.load_iff spells).1 plannedFor.loaded
  have manifest : disk.tree.entryAt? (root.names ++ [manifestFile]) ≠ none := by
    rw [file]
    exact Option.some_ne_none _
  have stagingName := isEntryName_staging fresh.plain
  obtain ⟨⟨_, failed⟩, _⟩ | ⟨_, made⟩ := Disk.tree_of_step staging
  · cases failed
  · rw [plannedFor.staging_eq] at made
    have view := (FileTree.madeDirectory_of_makeDirectory
      (spells.joinText stagingName.1 stagingName.2) made).view
    have directory : staged.tree.entryAt? root.names = some .directory := by
      rw [view, Function.update_of_ne (by simp)]
      exact FileTree.entryAt?_above manifest
    obtain ⟨names, listed⟩ := FileTree.list_of_directory spells directory
    cases result : entriesToMove staged.tree root plan.memberTop with
    | ok toMove => exact ⟨toMove, planned, staging, result⟩
    | error cause =>
        rw [entriesToMove, listed] at result
        cases result

/-! ## Removing empty directories only -/

/-- Recovery, with a way of removing the staging directory. -/
def recoverWith (remove : Disk → Path → Except FileError Unit × Disk) (plan : ConversionPlan)
    (disk : Disk) (entries : List Relocation) (error : FileError) : Failure × Disk :=
  match rollBack plan.root disk entries with
  | (true, disk) => (.other error.message, (remove disk plan.staging).2)
  | (false, disk) =>
    (.other (s!"{error.message}; entries that could not be restored were left in " ++
      plan.staging.text), disk)

/-- Conversion, with a way of removing the staging directory. -/
def convertWith (remove : Disk → Path → Except FileError Unit × Disk) (disk : Disk) (root : Path)
    (memberDir token : String) : Except Failure Conversion × Disk :=
  match planConversion disk.tree root memberDir token with
  | .error failure => (.error failure, disk)
  | .ok plan =>
    match disk.makeDirectory plan.staging with
    | (.error error, disk) => (.error (.other error.message), disk)
    | (.ok (), disk) =>
      match entriesToMove disk.tree root plan.memberTop with
      | .error error => (.error (.other error.message), (remove disk plan.staging).2)
      | .ok names =>
        match carryOut plan disk (names.map fun name => ⟨name, root.joinText name⟩) with
        | (.ok (), entries, disk) =>
          match remove disk plan.staging with
          | (.error error, disk) => (.error (.other error.message), disk)
          | (.ok (), disk) =>
            (.ok ⟨plan.member, entries.map Relocation.name,
              workspaceManifest plan.package plan.memberText⟩, disk)
        | (.error error, entries, disk) =>
          let (failure, disk) := recoverWith remove plan disk entries error
          (.error failure, removeMember plan disk)

/-- A conversion removes its staging directory with everything in it. -/
theorem convertWith_removeAll : convertWith Disk.removeAll = convert :=
  rfl

section Failures

variable {disk later : Disk} {root : Path} {memberDir token : String}

/-- A recovery removes the staging directory only when it is empty. -/
theorem Ready.recoverWith_removeDirectory {staged now : Disk} {plan : ConversionPlan} {site : Site}
    {home : String → Home} {written : Bool}
    (ready : Ready disk staged root memberDir token plan site) (clear : site.top ∉ site.names)
    (layout : Layout site disk.tree home written now.tree) (error : FileError) :
    recoverWith Disk.removeDirectory plan now (site.names.map (relocationAt plan.path home)) error =
      recoverWith Disk.removeAll plan now (site.names.map (relocationAt plan.path home)) error := by
  rw [recoverWith, recoverWith]
  cases restoring : rollBack plan.root now (site.names.map (relocationAt plan.path home)) with
  | mk restored after =>
      cases restored with
      | true =>
          obtain ⟨home', layout', _, back⟩ := rollBack_layout ready.spells clear layout
            site.distinct (fun _ member => member) restoring
          have left : ∀ name ∈ site.names, home' name ≠ .staging := by
            intro name member
            simp [back rfl name member]
          simp only [ready.removeDirectory_staging layout' left]
      | false => rfl

/-- **A conversion never removes a staging directory that holds something**: it would do the same if
it could only remove empty directories. -/
theorem convertWith_removeDirectory (wellFormed : disk.tree.WellFormed)
    (spells : root.Spells root.names) (fresh : FreshToken root memberDir token)
    (tidyName : ∀ name, .normal name ∈ (Path.ofText memberDir).components → IsTidyName name) :
    convertWith Disk.removeDirectory disk root memberDir token =
      convert disk root memberDir token := by
  rw [← convertWith_removeAll, convertWith, convertWith]
  cases planned : planConversion disk.tree root memberDir token with
  | error failure => rfl
  | ok plan =>
      dsimp only
      cases staging : disk.makeDirectory plan.staging with
      | mk made staged =>
          cases made with
          | error cause => rfl
          | ok =>
              obtain ⟨names, prepared⟩ := listed_of_staged spells fresh planned staging
              obtain ⟨site, rfl, ready⟩ := prepared.ready wellFormed spells fresh
              simp only [prepared.listed, ready.relocations]
              cases carried : carryOut plan staged
                  (site.names.map (relocationAt plan.path fun _ => .root)) with
              | mk result rest =>
                  obtain ⟨entries, now⟩ := rest
                  obtain ⟨home, written, layout, rfl, complete⟩ :=
                    ready.carryOut (ready.top_eq_manifest (ready.tidy tidyName)) carried
                  cases result with
                  | ok =>
                      obtain ⟨_, arrived, _⟩ := complete rfl
                      have left : ∀ name ∈ site.names, home name ≠ .staging := by
                        intro name member
                        simp [arrived name member]
                      simp only [ready.removeDirectory_staging layout left]
                  | error cause =>
                      have same :=
                        ready.recoverWith_removeDirectory (ready.clear (ready.tidy tidyName))
                          layout cause
                      simp only [same]

/-- What the tree is when a conversion has failed: it is as it was, or it has a layout, and if the
conversion was rolled back, with everything at the root. -/
theorem layout_of_convert_error {failure : Failure} (wellFormed : disk.tree.WellFormed)
    (spells : root.Spells root.names) (fresh : FreshToken root memberDir token)
    (tidyName : ∀ name, .normal name ∈ (Path.ofText memberDir).components → IsTidyName name)
    (failed : convert disk root memberDir token = (.error failure, later)) :
    later.tree = disk.tree ∨
      ∃ (plan : ConversionPlan) (staged : Disk) (site : Site) (home : String → Home)
        (written : Bool), Ready disk staged root memberDir token plan site ∧
          Layout site disk.tree home written later.tree ∧
          (rolledBack disk root memberDir token = true → ∀ name ∈ site.names, home name = .root) := by
  cases course_of_convert failed with
  | unplanned _ => exact .inl rfl
  | unstaged _ unstaged =>
      obtain ⟨_, same⟩ | ⟨ok, _⟩ := Disk.tree_of_step unstaged
      · exact .inl same
      · cases ok
  | unlisted planned staging unlisted =>
      obtain ⟨names, prepared⟩ := listed_of_staged spells fresh planned staging
      rw [prepared.listed] at unlisted
      cases unlisted
  | unclosed prepared carried unclosed =>
      right
      obtain ⟨site, rfl, ready⟩ := prepared.ready wellFormed spells fresh
      obtain ⟨_, same⟩ | ⟨ok, _⟩ := Disk.tree_of_step unclosed
      · have complete := carried
        rw [ready.relocations] at complete
        obtain ⟨home, written, layout, _⟩ :=
          ready.carryOut (ready.top_eq_manifest (ready.tidy tidyName)) complete
        refine ⟨_, _, site, home, written, ready, by rwa [same], fun rolledBack => ?_⟩
        rw [prepared.rolledBack_eq carried] at rolledBack
        cases rolledBack
      · cases ok
  | recovered prepared carried recovering =>
      right
      obtain ⟨site, rfl, ready⟩ := prepared.ready wellFormed spells fresh
      have complete := carried
      rw [ready.relocations] at complete
      obtain ⟨home, written, layout, rfl, _⟩ :=
        ready.carryOut (ready.top_eq_manifest (ready.tidy tidyName)) complete
      obtain ⟨home', layout', back⟩ :=
        ready.recover (ready.clear (ready.tidy tidyName)) layout recovering
      refine ⟨_, _, site, home', written, ready,
        ready.removeMember (ready.clear (ready.tidy tidyName)) layout', fun rolledBack => back ?_⟩
      rw [prepared.rolledBack_eq carried] at rolledBack
      rwa [ready.planned.root_eq]

/-- **A conversion that fails loses nothing**, whatever steps fail. -/
theorem convert_failed {failure : Failure} (wellFormed : disk.tree.WellFormed)
    (absolute : root.isAbsolute = true) (normalized : root.normalize.same root = true)
    (tidyName : ∀ name, .normal name ∈ (Path.ofText memberDir).components → IsTidyName name)
    (fresh : FreshToken root memberDir token)
    (failed : convert disk root memberDir token = (.error failure, later)) :
    (∀ name, disk.tree.entryAt? (root.names ++ [name]) ≠ none →
      ∃ dir ∈ homePlaces root memberDir token,
        FoundIn disk.tree root.names later.tree dir (Path.within? root memberDir) name) ∧
    convertWith Disk.removeDirectory disk root memberDir token =
      convert disk root memberDir token ∧
    (rolledBack disk root memberDir token = true →
      Restored disk.tree (root.names ++ [stagingStart ++ token]) (Path.within? root memberDir)
        later.tree) := by
  have spells := Path.spells_names absolute normalized
  refine ⟨fun name there => ?_, convertWith_removeDirectory wellFormed spells fresh tidyName,
    fun rolledBack => ?_⟩
  · obtain same | ⟨_, _, _, _, _, ready, layout, _⟩ :=
      layout_of_convert_error wellFormed spells fresh tidyName failed
    · rw [same]
      exact ⟨root.names, List.mem_cons_self, foundIn_root _ _ _ _⟩
    · exact ready.foundIn layout there
  · obtain same | ⟨_, _, site, _, _, ready, layout, back⟩ :=
      layout_of_convert_error wellFormed spells fresh tidyName failed
    · rw [same]
      exact fun _ => .inl rfl
    · have restored := ready.restored layout (back rolledBack)
      rwa [Site.place, Site.below, ready.site_root, ready.site_staging] at restored

end Failures

/-! ## A disk that is full -/

/-- A disk that fails when the manifest is written, with part of it left in the file. -/
def fullDisk : Disk where
  tree := installedPackage
  schedule := [none, none, none, none, none, none,
    some ⟨.other "No space left on device", some (Text.encode "part")⟩]

theorem convert_failed_fullDisk :
    fullDisk.tree.WellFormed ∧ FreshToken ⟨["", "w"]⟩ "packages/app" "x" ∧
    rolledBack fullDisk ⟨["", "w"]⟩ "packages/app" "x" = true ∧
    ∃ failure later,
      convert fullDisk ⟨["", "w"]⟩ "packages/app" "x" = (.error failure, later) ∧
      (∀ name, fullDisk.tree.entryAt? ["w", name] ≠ none →
        ∃ dir ∈ homePlaces ⟨["", "w"]⟩ "packages/app" "x",
          FoundIn fullDisk.tree ["w"] later.tree dir (Path.within? ⟨["", "w"]⟩ "packages/app")
            name) ∧
      Restored fullDisk.tree ["w", ".migrasaurus-staging-x"]
        (Path.within? ⟨["", "w"]⟩ "packages/app") later.tree := by
  have wellFormed : fullDisk.tree.WellFormed := by decide +kernel
  have tidyName : ∀ name, .normal name ∈ (Path.ofText "packages/app").components →
      IsTidyName name := by
    have components : (Path.ofText "packages/app").components =
        [.normal "packages", .normal "app"] := by decide +kernel
    intro name member
    rw [components] at member
    simp only [List.mem_cons, Path.Component.normal.injEq, List.not_mem_nil, or_false] at member
    rcases member with rfl | rfl <;> decide
  have back : rolledBack fullDisk ⟨["", "w"]⟩ "packages/app" "x" = true := by decide +kernel
  have failed : (convert fullDisk ⟨["", "w"]⟩ "packages/app" "x").1.isOk = false := by
    decide +kernel
  refine ⟨wellFormed, freshToken_packages, back, ?_⟩
  cases done : convert fullDisk ⟨["", "w"]⟩ "packages/app" "x" with
  | mk result later =>
      rw [done] at failed
      cases result with
      | ok conversion => cases failed
      | error failure =>
          obtain ⟨found, _, restored⟩ :=
            convert_failed wellFormed rfl (by decide) tidyName freshToken_packages done
          exact ⟨failure, later, rfl, found, restored back⟩

end Uplift.Workspace
