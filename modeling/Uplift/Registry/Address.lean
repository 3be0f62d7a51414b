import Uplift.Failure
import Uplift.Url.Reader

/-!
# Addresses of a registry

A registry is reached at a base address.  What it says of the latest version of a package is found
at the name of the package and `latest`, relative to the base.  Before that the slashes of the name
are escaped, and nothing else of it.
-/

set_option autoImplicit false

namespace Uplift.Registry

/-- An address, or the failure that it is none. -/
def orFailure (result : Except UrlError Url) : Except Failure Url :=
  result.mapError fun error => .url error.message

/-- The base address that a text gives, with a slash at its end. -/
def baseAddress (text : String) : Except Failure Url :=
  orFailure (Url.parse (if Text.endsWith text "/" then text else text ++ "/"))

/-- A package name with its slashes escaped. -/
def encodedName (package : String) : String :=
  String.ofList (package.toList.flatMap fun c => if c = '/' then ['%', '2', 'F'] else [c])

/-- The address of the latest version of a package. -/
def latestAddress (base : Url) (package : String) : Except Failure Url :=
  orFailure (base.join (encodedName package ++ "/latest"))

end Uplift.Registry
