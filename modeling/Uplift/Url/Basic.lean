import Uplift.Url.Host

/-!
# Addresses

An address has a scheme and, apart from addresses that are not divided, a host and segments.  The
schemes of the web are treated apart: their addresses always have a host and at least one segment,
a backslash divides segments as a slash does, and hosts are interpreted.
-/

set_option autoImplicit false

namespace Uplift

/-- What follows the host of an address. -/
inductive Url.Route where
  /-- Segments, each after a slash. -/
  | segments (names : List String)
  /-- A text that is not divided; such an address has no host. -/
  | undivided (text : String)
  deriving DecidableEq, Repr

/-- An address.  All texts in it are escaped where they have to be. -/
structure Url where
  scheme : String
  user : String := ""
  password : String := ""
  /-- None if there is no place for a host. -/
  host : Option Url.Host := none
  /-- The number after the host, if it is not the usual one of the scheme. -/
  portNumber : Option Nat := none
  route : Url.Route
  query : Option String := none
  fragment : Option String := none
  deriving DecidableEq, Repr

namespace Url

/-! ## Schemes -/

/-- The kinds of schemes. -/
inductive SchemeKind where
  /-- Files, which are web addresses that may lack a host. -/
  | file
  | web
  | other
  deriving DecidableEq, Repr

/-- The web schemes, with their usual numbers. -/
def webSchemes : List (String × Nat) :=
  [("http", 80), ("https", 443), ("ws", 80), ("wss", 443), ("ftp", 21)]

/-- The kind of a scheme. -/
def SchemeKind.of (scheme : String) : SchemeKind :=
  if scheme = "file" then .file
  else if webSchemes.any fun entry => entry.1 = scheme then .web
  else .other

/-- The usual number of a scheme. -/
def usualNumber? (scheme : String) : Option Nat :=
  (webSchemes.find? fun entry => entry.1 = scheme).map Prod.snd

/-- Whether a character divides segments. -/
def SchemeKind.divides (kind : SchemeKind) (c : Char) : Bool :=
  c = '/' || (c = '\\' && kind ≠ .other)

/-! ## Text -/

/-- The user and the password before a host. -/
def userText (url : Url) : String :=
  let password := if url.password = "" then "" else ":" ++ url.password
  if url.user = "" ∧ url.password = "" then "" else url.user ++ password ++ "@"

/-- The host with all that belongs to it.  Without a host, segments that start with two slashes are
kept from looking like one. -/
def authorityText (url : Url) : String :=
  match url.host with
  | some host =>
    let number := match url.portNumber with
      | some n => s!":{n}"
      | none => ""
    "//" ++ url.userText ++ host.text ++ number
  | none =>
    match url.route with
    | .segments ("" :: _ :: _) => "/."
    | _ => ""

/-- The text of a route. -/
def Route.text : Route → String
  | .segments names => String.join (names.map fun name => "/" ++ name)
  | .undivided text => text

/-- The text of an address. -/
def text (url : Url) : String :=
  let optional (mark : String) (part : Option String) := (part.map fun text => mark ++ text).getD ""
  url.scheme ++ ":" ++ url.authorityText ++ url.route.text ++ optional "?" url.query ++
    optional "#" url.fragment

end Url

end Uplift
