import Uplift.Proofs.Url.Relative
import Uplift.Registry.Address

/-!
# Addresses on a registry

The address of a package is one of its registry if it has the scheme and the host of the base, and
the name of the package and `latest` after the segments of the base (`StaysOn`).  A package has such
an address if its name is a plain piece of a text, and no other package has one
(`latestAddress_staysOn_iff`): only the slashes of a name are escaped before it is read, so a name
can also start with a scheme, hold a query or name the segment above.
-/

set_option autoImplicit false

namespace Uplift.Registry

open Url

/-! ## Segments of packages -/

/-- The segment of a package: its name, with slashes escaped and what a segment cannot hold. -/
def packageSegment (package : String) : String :=
  String.ofList (escape (fun c => reservedInSegment c || c = '/') package.toList)

/-- Escaping the slashes first makes no difference. -/
theorem packageSegment_eq (package : String) :
    packageSegment package =
      String.ofList (escape reservedInSegment (encodedName package).toList) := by
  rw [packageSegment, encodedName, String.toList_ofList, escape, escape, List.flatMap_assoc]
  congr 1
  refine List.flatMap_congr fun c _ => ?_
  by_cases slash : c = '/'
  · subst slash
    rw [if_pos (by simp), if_pos rfl, Text.toList_encode_singleton]
    decide
  · simp [slash]

/-- A segment of a package holds no slash and nothing else that a segment cannot hold. -/
theorem packageSegment_unreserved (package : String) :
    ∀ c ∈ (packageSegment package).toList, reservedInSegment c = false ∧ c ≠ '/' := by
  intro c member
  rw [packageSegment, String.toList_ofList] at member
  rcases mem_escape member with ⟨_, unreserved⟩ | rfl | alphanum
  · rw [Bool.or_eq_false_iff, decide_eq_false_iff_not] at unreserved
    exact unreserved
  · decide
  · refine ⟨reservedInSegment_of_isAlphanum alphanum, ?_⟩
    rintro rfl
    cases alphanum

/-- The name of a package without percent signs can be read from its segment. -/
theorem unescape_packageSegment {package : String} (percent : '%' ∉ package.toList) :
    unescape (packageSegment package).toList = (Text.encode package).toList := by
  rw [packageSegment, String.toList_ofList, unescape_escape fun member => absurd member percent,
    String.ofList_toList]

theorem isEnding_latest : IsEnding "latest".toList :=
  ⟨by decide, by simp [isOuter, isSlash], by decide⟩

/-! ## Base addresses -/

theorem orFailure_eq_ok_iff {result : Except UrlError Url} {url : Url} :
    orFailure result = .ok url ↔ result = .ok url := by
  cases result with
  | error error => exact ⟨nofun, nofun⟩
  | ok found => simp [orFailure, Except.mapError]

/-- A base address is a directory. -/
theorem isDirectory_of_baseAddress {text : String} {base : Url}
    (accepted : baseAddress text = .ok base) (divided : ∃ names, base.route = .segments names)
    (query : base.query = none) (fragment : base.fragment = none) : IsDirectory base := by
  rw [baseAddress, orFailure_eq_ok_iff] at accepted
  obtain ⟨front, whole⟩ : ∃ front,
      (if Text.endsWith text "/" then text else text ++ "/") = String.ofList (front ++ ['/']) := by
    split
    next ends =>
      obtain ⟨front, found⟩ := Option.isSome_iff_exists.1 ends
      rw [Text.stripSuffix?_eq_some_iff] at found
      exact ⟨front, by rw [← String.toList_inj, String.toList_ofList, found]; rfl⟩
    next => exact ⟨text.toList, by rw [← String.toList_inj]; simp⟩
  rw [whole] at accepted
  exact isDirectory_of_parse accepted divided query fragment

/-! ## Addresses of packages -/

/-- The address that a package should have on a registry: where the base is, and after its segments
the segment of the package and `latest`, and nothing else. -/
structure StaysOn (base : Url) (package : String) (url : Url) : Prop where
  scheme : url.scheme = base.scheme
  host : url.host = base.host
  portNumber : url.portNumber = base.portNumber
  route : ∃ path, (base.route = .segments (path ++ [""]) ∨ base.route = .segments [] ∧ path = []) ∧
    url.route = .segments (path ++ [packageSegment package, "latest"])
  query : url.query = none
  fragment : url.fragment = none

theorem StaysOn.route_eq {base url : Url} {package : String} (stays : StaysOn base package url) :
    url.route =
      .segments (base.segments.dropLast ++ [packageSegment package, "latest"]) := by
  obtain ⟨path, before | ⟨before, rfl⟩, route⟩ := stays.route
  · rw [route, segments, before, List.dropLast_concat]
  · rw [route, segments, before]
    rfl

theorem staysOn_withRoute {base : Url} (directory : IsDirectory base) (package : String) :
    StaysOn base package (base.withRoute
      (.segments (base.segments.dropLast ++ [packageSegment package, "latest"]))) := by
  refine ⟨rfl, rfl, rfl, ⟨base.segments.dropLast, ?_, rfl⟩, rfl, rfl⟩
  rcases directory with route | ⟨front, route, _⟩
  · exact .inr ⟨route, by rw [segments, route]; rfl⟩
  · refine .inl ?_
    rw [segments, route, List.dropLast_concat]

theorem latestAddress_eq_ok_iff {base url : Url} {package : String} :
    latestAddress base package = .ok url ↔
      base.join (String.ofList ((encodedName package).toList ++ '/' :: "latest".toList)) =
        .ok url := by
  have written : encodedName package ++ "/latest" =
      String.ofList ((encodedName package).toList ++ '/' :: "latest".toList) := by
    rw [← String.toList_inj]
    simp
  rw [latestAddress, orFailure_eq_ok_iff, written]

/-- **Which packages have an address on their registry.**  The address of a package is on the
registry if and only if the name, with its slashes escaped, is a plain piece; a package with such a
name has an address. -/
theorem latestAddress_staysOn_iff {text : String} {base : Url}
    (accepted : baseAddress text = .ok base) (divided : ∃ names, base.route = .segments names)
    (query : base.query = none) (fragment : base.fragment = none) (package : String) :
    (∀ url, latestAddress base package = .ok url →
      (StaysOn base package url ↔
        IsPlain (SchemeKind.of base.scheme) (encodedName package).toList)) ∧
    (IsPlain (SchemeKind.of base.scheme) (encodedName package).toList →
      ∃ url, latestAddress base package = .ok url ∧ url.user = base.user ∧
        url.password = base.password) ∧
    (∀ c ∈ (packageSegment package).toList, reservedInSegment c = false ∧ c ≠ '/') ∧
    ('%' ∉ package.toList →
      unescape (packageSegment package).toList = (Text.encode package).toList) := by
  have directory := isDirectory_of_baseAddress accepted divided query fragment
  have latest : String.ofList (escape reservedInSegment "latest".toList) = "latest" := by
    rw [escape_eq_self (by simp [reservedInSegment, reservedInFragment, isControl]), String.ofList_toList]
  have read : IsPlain (SchemeKind.of base.scheme) (encodedName package).toList →
      latestAddress base package = .ok (base.withRoute
        (.segments (base.segments.dropLast ++ [packageSegment package, "latest"]))) := by
    intro plain
    rw [latestAddress_eq_ok_iff, join_of_isPlain directory plain isEnding_latest, routeBeside,
      latest, packageSegment_eq]
  refine ⟨fun url found => ⟨fun stays => ?_, fun plain => ?_⟩, fun plain => ⟨_, read plain, rfl, rfl⟩,
    packageSegment_unreserved package, unescape_packageSegment⟩
  · refine isPlain_of_join directory isEnding_latest (latestAddress_eq_ok_iff.1 found) stays.query
      stays.fragment ?_
    rw [routeBeside, latest, ← packageSegment_eq, stays.route_eq]
  · rw [read plain] at found
    cases found
    exact staysOn_withRoute directory package

/-- The base address of a registry below the root of its host. -/
def nestedBase : Url :=
  { scheme := "https", host := some (.name "registry.example.com"), route := .segments ["npm", ""] }

/-- A scoped name stays on the registry. -/
theorem staysOn_scopedName :
    baseAddress "https://registry.example.com/npm" = .ok nestedBase ∧
      ∃ url, latestAddress nestedBase "@acme/core" = .ok url ∧
        StaysOn nestedBase "@acme/core" url := by
  have accepted : baseAddress "https://registry.example.com/npm" = .ok nestedBase := by
    decide +kernel
  have plain : IsPlain (SchemeKind.of nestedBase.scheme) (encodedName "@acme/core").toList :=
    ⟨⟨'@', by decide, by decide, by decide⟩,
      by simp [encodedName, isLineMark, SchemeKind.divides], by decide, by decide, nofun⟩
  obtain ⟨on, some, _⟩ := latestAddress_staysOn_iff accepted ⟨_, rfl⟩ rfl rfl "@acme/core"
  obtain ⟨url, found, _⟩ := some plain
  exact ⟨accepted, url, found, (on url found).2 plain⟩

/-- A name that starts with a scheme leads to another host, one with a question mark has a query, and
two dots lead out of the segments of the base. -/
theorem exists_not_staysOn :
    baseAddress "https://registry.example.com/npm" = .ok nestedBase ∧
      (∃ url, latestAddress nestedBase "http:evil.example" = .ok url ∧
        url.host = some (.name "evil.example") ∧
        ¬ StaysOn nestedBase "http:evil.example" url) ∧
      (∃ url, latestAddress nestedBase "a?b" = .ok url ∧ url.query = some "b/latest" ∧
        ¬ StaysOn nestedBase "a?b" url) ∧
      ∃ url, latestAddress nestedBase ".." = .ok url ∧ url.route = .segments ["latest"] ∧
        ¬ StaysOn nestedBase ".." url := by
  refine ⟨by decide +kernel, ?scheme, ?query, ?dots⟩
  case scheme =>
    refine ⟨{ scheme := "http", host := some (.name "evil.example"), route := .segments ["latest"] },
      by decide +kernel, rfl, fun stays => ?_⟩
    exact absurd stays.host (by decide)
  case query =>
    refine ⟨{ nestedBase with route := .segments ["npm", "a"], query := some "b/latest" },
      by decide +kernel, rfl, fun stays => ?_⟩
    cases stays.query
  case dots =>
    refine ⟨nestedBase.withRoute (.segments ["latest"]), by decide +kernel, rfl, fun stays => ?_⟩
    have route := stays.route_eq
    rw [Url.withRoute, Route.segments.injEq] at route
    exact absurd (congrArg List.length route) (by decide)

end Uplift.Registry
