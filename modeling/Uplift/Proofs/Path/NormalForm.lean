import Uplift.Proofs.Path.Containment
import Uplift.Proofs.Path.Display

/-!
# The normal form of a path

Carrying out the dots of a path leaves the root, or a number of steps up if the path does not start
there, and names after it (`exists_components_normalize`).  So a normal form has no single dot, and
double dots only where nothing is left to take back.

The paths that are their own normal form are exactly those spelled in the plainest way from a start
and names (`normalize_eq_self_iff`).  Every normal form is one of them, so normalizing twice is
normalizing once, and if no name has a slash the text of a normal form reads back as the same path
(`ofText_text_normalize`).

A relative path leads from a directory to the same place as from the directory's normal form
(`normalize_join_normalize`).
-/

set_option autoImplicit false

namespace Uplift.Path

/-! ## What a normal form consists of -/

theorem components_climb (path : Path) (steps : Nat) :
    (path.start.climb steps).components =
      if path.isAbsolute then [.root] else List.replicate steps .parent := by
  rw [start]
  split
  next => rfl
  next => rw [Start.climb, Start.components, Nat.zero_add]

/-- **A path resolves to where it starts, some steps up unless that is the root, and names.** -/
theorem exists_components_normalize (path : Path) :
    ∃ (steps : Nat) (names : List String), (∀ name ∈ names, IsName name) ∧
      path.normalize.components =
        (if path.isAbsolute then [.root] else List.replicate steps .parent) ++
          names.map .normal := by
  obtain ⟨steps, names, resolved, isName⟩ := foldl_push_pieces path.pieces path.start
    fun _ member => absurd member List.not_mem_nil
  refine ⟨steps, names, isName, ?_⟩
  rw [normalize_eq, stack_eq, resolved, reverse_stackFrom,
    components_ofComponents_resolvedFrom _ isName, resolvedFrom, components_climb]

theorem current_notMem_normalize (path : Path) : .current ∉ path.normalize.components := by
  obtain ⟨steps, names, _, components⟩ := exists_components_normalize path
  rw [components]
  split <;> simp

/-! ## Paths in normal form -/

/-- The plainest spelling of a start and names after it. -/
def IsNormalForm (path : Path) : Prop :=
  ∃ start names, (∀ name ∈ names, IsName name) ∧ path = ofComponents (resolvedFrom start names)

theorem isNormalForm_normalize (path : Path) : path.normalize.IsNormalForm := by
  obtain ⟨start, names, resolved, _, isName⟩ := exists_resolved path
  exact ⟨start, names, isName, by rw [normalize_eq, resolved, reverse_stackFrom]⟩

/-- **Exactly the paths in normal form stay as they are.** -/
theorem normalize_eq_self_iff (path : Path) : path.normalize = path ↔ path.IsNormalForm := by
  constructor
  · intro same
    rw [← same]
    exact isNormalForm_normalize path
  · rintro ⟨start, names, isName, rfl⟩
    rw [normalize_eq, stack, components_ofComponents_resolvedFrom start isName,
      foldl_push_resolvedFrom, reverse_stackFrom]

theorem normalize_normalize (path : Path) : path.normalize.normalize = path.normalize :=
  (normalize_eq_self_iff _).2 (isNormalForm_normalize path)

/-! ## The text of a normal form -/

/-- Putting a component on a stack adds it, takes one away or does nothing. -/
theorem mem_push {component added : Component} {stack : List Component}
    (member : component ∈ push stack added) : component = added ∨ component ∈ stack := by
  unfold push at member
  split at member
  next => exact .inr member
  next =>
    split at member
    next => exact .inr (List.mem_cons_of_mem _ member)
    next => exact .inr member
    next => exact List.mem_cons.1 member
  next => exact List.mem_cons.1 member

/-- What is on the stack was there before or has been put on it. -/
theorem mem_foldl_push {component : Component} {components stack : List Component}
    (member : component ∈ components.foldl push stack) :
    component ∈ components ∨ component ∈ stack := by
  induction components generalizing stack with
  | nil => exact .inr member
  | cons first rest ih =>
      rcases ih member with later | here
      · exact .inl (List.mem_cons_of_mem _ later)
      · rcases mem_push here with rfl | before
        · exact .inl List.mem_cons_self
        · exact .inr before

/-- The pieces of the plainest path with given components. -/
theorem mem_pieces_ofComponents {components : List Component} {piece : String}
    (member : piece ∈ (ofComponents components).pieces) :
    piece = "" ∨ ∃ component ∈ components, piece = component.piece := by
  unfold ofComponents at member
  split at member
  next => exact .inl (by simpa [empty] using member)
  next => exact .inl (by simpa using member)
  next =>
    obtain ⟨component, among, rfl⟩ := List.mem_map.1 member
    exact .inr ⟨component, among, rfl⟩

theorem pieces_ofComponents_ne_nil (components : List Component) :
    (ofComponents components).pieces ≠ [] := by
  unfold ofComponents
  split
  next => simp [empty]
  next => simp
  next other _ => simpa using other

theorem ofText_text {path : Path} (nonempty : path.pieces ≠ [])
    (plain : ∀ piece ∈ path.pieces, '/' ∉ piece.toList) : ofText path.text = path := by
  rw [ofText, text, splitOn_slashed nonempty plain]
  simp [Function.comp_def]

/-- **A normal form is what its text spells**, if no piece of the path has a slash, as none of a
text has. -/
theorem ofText_text_normalize {path : Path} (plain : ∀ piece ∈ path.pieces, '/' ∉ piece.toList) :
    ofText path.normalize.text = path.normalize := by
  refine ofText_text (pieces_ofComponents_ne_nil _) fun piece member => ?_
  rcases mem_pieces_ofComponents member with rfl | ⟨component, among, rfl⟩
  · simp
  · have given := (mem_foldl_push (List.mem_reverse.1 among)).resolve_right List.not_mem_nil
    cases component with
    | normal name => exact plain name (mem_pieces_of_mem_components given)
    | _ => simp [Component.piece]

/-! ## The canonical form -/

/-- **Normalizing gives a canonical form.**  The components of a normal form are the root, or some
steps up if the path is relative, and names after that; in particular there is no single dot.
Exactly the paths in this form stay as they are, so that normalizing again changes nothing.  Going
on by a relative path leads to the same normal form from a path and from its normal form. -/
theorem normalize_canonical (path : Path) :
    .current ∉ path.normalize.components ∧
    (∃ (steps : Nat) (names : List String), (∀ name ∈ names, IsName name) ∧
      path.normalize.components =
        (if path.isAbsolute then [.root] else List.replicate steps .parent) ++
          names.map .normal) ∧
    path.normalize.normalize = path.normalize ∧
    (path.normalize = path ↔ path.IsNormalForm) ∧
    ((∀ piece ∈ path.pieces, '/' ∉ piece.toList) →
      ofText path.normalize.text = path.normalize) ∧
    ∀ next : String, (ofText next).isAbsolute = false →
      (path.joinText next).normalize = (path.normalize.joinText next).normalize := by
  refine ⟨current_notMem_normalize path, exists_components_normalize path,
    normalize_normalize path, normalize_eq_self_iff path, ofText_text_normalize, ?_⟩
  intro next relative
  exact (normalize_join_normalize path relative (pieces_ofText_ne_nil next)).symm

/-- A path that climbs above its start, continued by one that climbs further. -/
theorem normalize_canonical_climbing :
    (∀ piece ∈ (ofText "x/./../../y").pieces, '/' ∉ piece.toList) ∧
      (ofText "../../z//").isAbsolute = false ∧
      ofText (ofText "x/./../../y").normalize.text = (ofText "x/./../../y").normalize ∧
      ((ofText "x/./../../y").joinText "../../z//").normalize =
        ((ofText "x/./../../y").normalize.joinText "../../z//").normalize := by
  have plain : ∀ piece ∈ (ofText "x/./../../y").pieces, '/' ∉ piece.toList := by decide +kernel
  have relative : (ofText "../../z//").isAbsolute = false := by decide +kernel
  obtain ⟨_, _, _, _, spelled, absorbed⟩ := normalize_canonical (ofText "x/./../../y")
  exact ⟨plain, relative, spelled plain, absorbed _ relative⟩

end Uplift.Path
