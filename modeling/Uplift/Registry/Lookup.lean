import Uplift.Failure
import Uplift.Table

/-!
# Looking up latest versions

A registry answers for one package at a time, after some delay or never, with a version or a
failure.  A lookup waits for each answer up to a limit, and all answers are awaited at the same
time; a package without a version in time has no latest version, and stops no other.
-/

set_option autoImplicit false

namespace Uplift.Registry

/-- What a registry does when it is asked for a package. -/
structure Reply where
  /-- After how many milliseconds it answers; none if it never does. -/
  delay : Option Nat
  /-- The latest version, or why there is none. -/
  result : Except Failure String

/-- A reply without delay. -/
def Reply.atOnce (result : Except Failure String) : Reply :=
  ⟨some 0, result⟩

/-- A registry, by its reply for each package. -/
abbrev Client := String → Reply

/-- A registry that cannot be reached. -/
def unreachable : Client :=
  fun package => .atOnce (.error (.network s!"no answer for {package}"))

/-- The version that a reply gives within a number of milliseconds. -/
def Reply.within (reply : Reply) (limit : Nat) : Option String :=
  if reply.delay.any (· ≤ limit) then reply.result.toOption else none

/-- The latest versions of some packages. -/
def latestVersions (client : Client) (packages : List String) (limit : Nat) :
    Table (Option String) :=
  Table.ofList (packages.map fun package => (package, (client package).within limit))

end Uplift.Registry
