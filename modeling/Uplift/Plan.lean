import Uplift.Table
import Uplift.Version

/-!
# Upgrade plans

A plan says of every tracked package how its installed version compares with the latest published
one.  Whether an upgrade is breaking is decided by the authors' own flag if there is one, and
otherwise by the numbers: a higher major number, or a higher minor number while the installed
major number is zero.
-/

set_option autoImplicit false

namespace Uplift

/-- How an installed version compares with the latest one. -/
inductive Classification where
  | upToDate
  | nonBreaking
  | breaking
  deriving DecidableEq, Repr, Inhabited

namespace Classification

/-- Whether there is something to upgrade to. -/
def isUpgradable (classification : Classification) : Bool :=
  classification ≠ .upToDate

/-- The name of a class in reports. -/
def label : Classification → String
  | .upToDate => "upToDate"
  | .nonBreaking => "upgradableNonBreaking"
  | .breaking => "upgradableBreaking"

/-- The numbers alone make a step breaking. -/
def crossesBoundary (current latest : Version) : Bool :=
  current.major < latest.major || (current.major = 0 && current.minor < latest.minor)

/-- Compares two versions, an authors' flag taking precedence over the numbers. -/
def ofVersions (current latest : Version) (flag : Option Bool) : Classification :=
  if latest.upTo current then .upToDate
  else if flag.getD (crossesBoundary current latest) then .breaking
  else .nonBreaking

/-- Compares two version texts.  A text that is no version is never upgradable. -/
def ofTexts (current latest : String) (flag : Option Bool) : Classification :=
  match Version.parseLoose? current, Version.parseLoose? latest with
  | some current, some latest => ofVersions current latest flag
  | _, _ => .upToDate

end Classification

/-- What a plan says of one package. -/
structure PackageStatus where
  name : String
  current : String
  /-- None if the latest version could not be found out. -/
  latest : Option String
  classification : Classification
  /-- Whether the package has an upgrade, and a breaking one. -/
  breaking : Bool
  deriving DecidableEq, Repr, Inhabited

/-- Whether the package has an upgrade. -/
def PackageStatus.isUpgradable (status : PackageStatus) : Bool :=
  status.classification.isUpgradable

/-- How many packages are in each class; those without a known latest version are counted apart. -/
structure PlanCounts where
  upToDate : Nat
  nonBreaking : Nat
  breaking : Nat
  unresolved : Nat
  deriving DecidableEq, Repr, Inhabited

namespace PlanCounts

/-- The counts of no packages. -/
def zero : PlanCounts :=
  ⟨0, 0, 0, 0⟩

/-- The counts with one more package. -/
def add (counts : PlanCounts) (status : PackageStatus) : PlanCounts :=
  match status.latest, status.classification with
  | none, _ => { counts with unresolved := counts.unresolved + 1 }
  | some _, .upToDate => { counts with upToDate := counts.upToDate + 1 }
  | some _, .nonBreaking => { counts with nonBreaking := counts.nonBreaking + 1 }
  | some _, .breaking => { counts with breaking := counts.breaking + 1 }

end PlanCounts

/-- An upgrade plan: one status per package, by ascending name. -/
structure Plan where
  packages : List PackageStatus
  counts : PlanCounts
  deriving DecidableEq, Repr, Inhabited

namespace Plan

/-- The plan without packages. -/
def empty : Plan :=
  ⟨[], .zero⟩

/-- The status of one package. -/
def statusOf (latest : Table (Option String)) (flags : Table Bool) (name current : String) :
    PackageStatus :=
  let version := (latest.get? name).join
  let classification := match version with
    | none => .upToDate
    | some version => Classification.ofTexts current version (flags.get? name)
  { name, current, latest := version, classification, breaking := classification = .breaking }

/-- Adds a package at the end of a plan and counts it. -/
def add (plan : Plan) (status : PackageStatus) : Plan :=
  ⟨plan.packages ++ [status], plan.counts.add status⟩

/-- The plan for installed versions, given the latest versions and the authors' flags. -/
def compute (installed : Table String) (latest : Table (Option String)) (flags : Table Bool) :
    Plan :=
  installed.entries.foldl (fun plan entry => plan.add (statusOf latest flags entry.1 entry.2)) empty

/-- The only place at which a name can be, among `size` places from `start` on: the places are
halved as long as there are several. -/
def narrow (packages : List PackageStatus) (name : String) (start size : Nat) : Nat :=
  if size ≤ 1 then start
  else
    let middle := start + size / 2
    let isBefore := packages[middle]?.any fun status => name < status.name
    narrow packages name (if isBefore then start else middle) (size - size / 2)
termination_by size

/-- The status of a package by its name, found by halving. -/
def get? (plan : Plan) (name : String) : Option PackageStatus :=
  plan.packages[narrow plan.packages name 0 plan.packages.length]?.filter fun status =>
    status.name = name

/-- The packages with an upgrade. -/
def upgradable (plan : Plan) : List PackageStatus :=
  plan.packages.filter PackageStatus.isUpgradable

/-- The upgrades to carry out: all of them if breaking ones are allowed, otherwise the others. -/
def approved (plan : Plan) (allowBreaking : Bool) : Table String :=
  Table.ofList ((plan.upgradable.filter fun p => allowBreaking || !p.breaking).filterMap fun p =>
    p.latest.map fun latest => (p.name, latest))

/-- The breaking upgrades left out for lack of permission. -/
def heldBack (plan : Plan) (allowBreaking : Bool) : List String :=
  (plan.upgradable.filter fun p => p.breaking && !allowBreaking).map PackageStatus.name

end Plan

/-! ## Summary text -/

/-- The counts, one per line. -/
def PlanCounts.render (counts : PlanCounts) : String :=
  "Upgrade Summary:\n" ++ s!"  Up to date: {counts.upToDate}\n" ++
    s!"  Non-breaking: {counts.nonBreaking}\n" ++ s!"  Breaking: {counts.breaking}\n" ++
    s!"  Unresolved: {counts.unresolved}\n"

/-- A package's line: its name, its version and what can be done. -/
def PackageStatus.render (status : PackageStatus) : String :=
  let outlook := match status.latest, status.classification with
    | none, _ => "unresolved"
    | some _, .upToDate => "up to date"
    | some latest, .nonBreaking => "→ " ++ latest
    | some latest, .breaking => "→ " ++ latest ++ " (breaking)"
  s!"{status.name} {status.current} {outlook}\n"

/-- A line per package, then the counts. -/
def Plan.render (plan : Plan) : String :=
  String.join (plan.packages.map PackageStatus.render) ++ "\n" ++ plan.counts.render

end Uplift
