import Uplift.Migration.Library
import Uplift.Plan

/-!
# Migration guides

A guide has a section for every package that can be upgraded, with the documents between its
installed version and the latest one.
-/

set_option autoImplicit false

namespace Uplift.Migration

/-- What a change moves from and to. -/
def Change.renderRoute (change : Change) : String :=
  match change.origin, change.destination with
  | some origin, some destination => s!" `{origin}` → `{destination}`"
  | some origin, none => s!" `{origin}`"
  | none, some destination => s!" `{destination}`"
  | none, none => ""

/-- A change on one line. -/
def Change.render (change : Change) : String :=
  let optional (text : Option String) (shown : String → String) := (text.map shown).getD ""
  s!"**{change.kind.text}**" ++ change.renderRoute ++
    optional change.symbol (fun symbol => s!" export `{symbol}`") ++
    optional change.path (fun path => s!" in `{path}`") ++
    optional change.detail (fun detail => s!": {detail}") ++
    (if change.codemod.isSome then " (codemod available)" else "")

/-- The mark of a breaking step. -/
def breakingMark (breaking : Bool) : String :=
  if breaking then " (breaking)" else ""

/-- The part of a guide for one document. -/
def Document.render (document : Document) : String :=
  let header := document.header
  let changes := header.changes.map fun change => s!"- {change.render}\n"
  s!"\n### {header.version}" ++ breakingMark header.breaking ++ "\n" ++
    (if header.changes.isEmpty then "" else "\n" ++ String.join changes) ++
    (if document.body.isEmpty then "" else s!"\n{document.body}\n")

/-- The section of a guide for one package. -/
def guideSection (tree : FileTree) (library : Option Path) (status : PackageStatus)
    (latest : String) : String :=
  let documents := match library with
    | some dir => readDocuments tree dir status.name status.current latest
    | none => []
  s!"\n## {status.name} {status.current} → {latest}" ++ breakingMark status.breaking ++ "\n" ++
    (if documents.isEmpty then "\nNo migration notes available.\n"
      else String.join (documents.map Document.render))

/-- The guide for a plan. -/
def guide (tree : FileTree) (library : Option Path) (plan : Plan) : String :=
  let sections := plan.upgradable.filterMap fun status =>
    status.latest.map (guideSection tree library status)
  "# Migration Guide\n" ++
    (if sections.isEmpty then "\nAll packages are up to date.\n" else String.join sections)

end Uplift.Migration
