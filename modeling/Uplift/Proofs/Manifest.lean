import Uplift.Manifest
import Uplift.Proofs.FileTree.Names

/-!
# Manifests in files

Whether a manifest can be loaded from a directory depends on the file alone, and not on how the path
of the directory is written (`load_iff`).
-/

set_option autoImplicit false

namespace Uplift

open FileTree (Place)

theorem isEntryName_manifestFile : FileTree.IsEntryName manifestFile := by
  decide

/-- The path of the manifest in a directory. -/
theorem Path.Spells.manifest {path : Path} {place : Place} (spells : path.Spells place) :
    (path.joinText manifestFile).Spells (place ++ [manifestFile]) :=
  spells.joinText isEntryName_manifestFile.1 isEntryName_manifestFile.2

/-- A manifest is in the directory whose path it extends. -/
theorem Path.Spells.parent_manifest {path : Path} {place : Place} (spells : path.Spells place) :
    ∃ parent, (path.joinText manifestFile).parent? = some parent ∧ parent.Spells place := by
  have pieces := Path.pieces_joinText isEntryName_manifestFile.2 path
  obtain ⟨above, body⟩ : ∃ above, (path.joinText manifestFile).body = above ++ [manifestFile] := by
    rw [Path.body_of_pieces pieces isEntryName_manifestFile.1]
    split
    · exact ⟨_, rfl⟩
    · exact ⟨_, rfl⟩
  refine ⟨_, Path.parent?_of_body body, ?_⟩
  have spelled := spells.manifest.parent? (Path.parent?_of_body body)
  rwa [List.dropLast_concat] at spelled

namespace Manifest

/-- What a text spells does not depend on the name given to it in messages. -/
theorem parse_eq_ok_congr {display content : String} {manifest : Manifest}
    (parsed : parse display content = .ok manifest) (other : String) :
    parse other content = .ok manifest := by
  rw [parse] at parsed ⊢
  split at parsed
  · cases parsed
  next document _ =>
    cases document with
    | object fields =>
        rw [ofValue] at parsed ⊢
        split at parsed
        · cases parsed
        · exact parsed
    | _ => cases parsed

/-- A place holds a file that spells a manifest. -/
def IsAt (manifest : Manifest) (tree : FileTree) (place : Place) : Prop :=
  ∃ content executable text, tree.entryAt? place = some (.file content executable) ∧
    Text.decode? content = some text ∧ ∀ display, parse display text = .ok manifest

/-- A place holds one manifest. -/
theorem IsAt.unique {manifest other : Manifest} {tree : FileTree} {place : Place}
    (first : manifest.IsAt tree place) (second : other.IsAt tree place) : manifest = other := by
  obtain ⟨content, executable, text, file, decoded, parsed⟩ := first
  obtain ⟨content', executable', text', file', decoded', reparsed⟩ := second
  cases file.symm.trans file'
  cases decoded.symm.trans decoded'
  cases (parsed "").symm.trans (reparsed "")
  rfl

/-- A place that holds the same as another holds the same manifest. -/
theorem IsAt.of_entryAt? {manifest : Manifest} {tree other : FileTree} {place place' : Place}
    (isAt : manifest.IsAt tree place) (same : other.entryAt? place' = tree.entryAt? place) :
    manifest.IsAt other place' := by
  obtain ⟨content, executable, text, file, decoded, parsed⟩ := isAt
  exact ⟨content, executable, text, same.trans file, decoded, parsed⟩

/-- **A manifest is loaded from a directory exactly if it is in its file.** -/
theorem load_iff {tree : FileTree} {path : Path} {place : Place} (spells : path.Spells place)
    {manifest : Manifest} :
    load tree (path.joinText manifestFile) = .ok manifest ↔
      manifest.IsAt tree (place ++ [manifestFile]) := by
  have ends : (path.joinText manifestFile).pieces.getLast? = some manifestFile := by
    rw [Path.pieces_joinText isEntryName_manifestFile.2, List.getLast?_concat]
  constructor
  · intro loaded
    rw [load] at loaded
    split at loaded
    · cases loaded
    next text read =>
      obtain ⟨content, executable, file, decoded⟩ :=
        (FileTree.readText_iff_of_spells spells.manifest ends).1 read
      exact ⟨content, executable, text, file, decoded, parse_eq_ok_congr loaded⟩
  · rintro ⟨content, executable, text, file, decoded, parsed⟩
    have read := (FileTree.readText_iff_of_spells spells.manifest ends).2
      ⟨content, executable, file, decoded⟩
    rw [load, read]
    exact parsed _

end Manifest

end Uplift
