import Mathlib.Data.List.Basic
import Uplift.Proofs.Path.Spelling

/-!
# What a text may lead to below a root

Resolving a path ends in a *start*, the root or a number of steps up, and names after it
(`exists_resolved`).  Going on from there by a relative text adds and takes back names, and where no
name is left it climbs: only a path that does not start at the root can (`foldl_push_pieces`).  That
the root was resolved first makes no difference to where a text leads (`normalize_join_normalize`).

A text is accepted below a root exactly if it is relative and the components of where it leads are
those of the resolved root and more.  If the resolved root starts at the top or has a name, what is
more are names, so what is accepted lies strictly below the root.  A resolved root that is nothing
but steps up has no end that could be missed: a text that climbs further still starts with the
root's components, and is accepted although it leads out (`ClimbsOut`).
-/

set_option autoImplicit false

namespace Uplift.Path

/-! ## Resolved paths -/

/-- How a resolved path starts: at the root, or with a number of steps up. -/
inductive Start where
  | root
  | climbing (steps : Nat)

namespace Start

/-- A start as components. -/
def components : Start → List Component
  | .root => [.root]
  | .climbing steps => List.replicate steps .parent

/-- A start some steps further up.  Above the root there is nothing. -/
def climb : Start → Nat → Start
  | .root, _ => .root
  | .climbing steps, more => .climbing (steps + more)

theorem climb_zero (start : Start) : start.climb 0 = start := by
  cases start <;> rfl

theorem climb_climb (start : Start) (first second : Nat) :
    (start.climb first).climb second = start.climb (first + second) := by
  cases start with
  | root => rfl
  | climbing steps => exact congrArg climbing (Nat.add_assoc steps first second)

end Start

/-- The stack of a start and the names after it, the last name on top. -/
def stackFrom (start : Start) (names : List String) : List Component :=
  (names.map Component.normal).reverse ++ start.components

/-- The components of a start and the names after it. -/
def resolvedFrom (start : Start) (names : List String) : List Component :=
  start.components ++ names.map .normal

theorem reverse_stackFrom (start : Start) (names : List String) :
    (stackFrom start names).reverse = resolvedFrom start names := by
  cases start <;> simp [stackFrom, resolvedFrom, Start.components]

theorem push_stackFrom_normal (start : Start) (names : List String) (name : String) :
    push (stackFrom start names) (.normal name) = stackFrom start (names ++ [name]) := by
  simp [push, stackFrom]

/-- A step up takes back the last name. -/
theorem push_stackFrom_parent (start : Start) (names : List String) (name : String) :
    push (stackFrom start (names ++ [name])) .parent = stackFrom start names := by
  simp [push, stackFrom]

/-- A step up from where no name is left. -/
theorem push_stackFrom_parent_nil (start : Start) :
    push (stackFrom start []) .parent = stackFrom (start.climb 1) [] := by
  cases start with
  | root => rfl
  | climbing steps =>
      have grown : stackFrom ((Start.climbing steps).climb 1) [] =
          .parent :: List.replicate steps .parent := List.replicate_succ
      rw [grown]
      cases steps <;> rfl

/-- **Going on by pieces** adds and takes back names, and climbs where none is left. -/
theorem foldl_push_pieces (pieces : List String) (start : Start) {names : List String}
    (isName : ∀ name ∈ names, IsName name) :
    ∃ steps later, (pieces.filterMap innerComponent?).foldl push (stackFrom start names) =
        stackFrom (start.climb steps) later ∧ ∀ name ∈ later, IsName name := by
  induction pieces generalizing start names with
  | nil => exact ⟨0, names, by rw [start.climb_zero]; rfl, isName⟩
  | cons piece rest ih =>
      obtain ⟨_, none⟩ | ⟨_, up⟩ | ⟨isPiece, inner⟩ := innerComponent?_cases piece
      · rw [List.filterMap_cons_none none]
        exact ih start isName
      · rw [List.filterMap_cons_some up, List.foldl_cons]
        rcases List.eq_nil_or_concat names with rfl | ⟨above, last, rfl⟩
        · rw [push_stackFrom_parent_nil]
          obtain ⟨steps, later, resolved, named⟩ := ih (start.climb 1) isName
          exact ⟨1 + steps, later, by rw [resolved, start.climb_climb], named⟩
        · rw [List.concat_eq_append] at *
          rw [push_stackFrom_parent]
          exact ih start fun name member => isName name (List.mem_append_left _ member)
      · rw [List.filterMap_cons_some inner, List.foldl_cons, push_stackFrom_normal]
        refine ih start fun name member => ?_
        rcases List.mem_append.1 member with before | here
        · exact isName name before
        · rwa [List.mem_singleton.1 here]

/-- The components of a start with names after it resolve to themselves. -/
theorem foldl_push_resolvedFrom (start : Start) (names : List String) :
    (resolvedFrom start names).foldl push [] = stackFrom start names := by
  have started : start.components.foldl push [] = stackFrom start [] := by
    cases start with
    | root => rfl
    | climbing steps =>
        induction steps with
        | zero => rfl
        | succ steps ih =>
            rw [Start.components] at ih ⊢
            rw [List.replicate_succ', List.foldl_append, ih]
            exact push_stackFrom_parent_nil (.climbing steps)
  have named : ∀ before, (names.map Component.normal).foldl push (stackFrom start before) =
      stackFrom start (before ++ names) := by
    induction names with
    | nil => simp
    | cons name rest ih =>
        intro before
        rw [List.map_cons, List.foldl_cons, push_stackFrom_normal, ih, List.append_assoc]
        rfl
  rw [resolvedFrom, List.foldl_append, started, named, List.nil_append]

/-- The components that a relative path may have after its dots are carried out. -/
def IsStep (component : Component) : Prop :=
  component = .parent ∨ ∃ name, component = .normal name ∧ IsName name

theorem IsStep.of_piece {component : Component} (isStep : IsStep component) :
    innerComponent? component.piece = some component ∧
      leadingComponent? component.piece = some component := by
  obtain rfl | ⟨name, rfl, isName⟩ := isStep
  · exact ⟨rfl, rfl⟩
  · exact ⟨innerComponent?_of_isName isName, leadingComponent?_of_isName isName⟩

theorem components_ofComponents_steps {steps : List Component}
    (isStep : ∀ component ∈ steps, IsStep component) :
    (ofComponents steps).components = steps := by
  cases steps with
  | nil => rfl
  | cons first rest =>
      obtain ⟨_, leading⟩ := (isStep first List.mem_cons_self).of_piece
      have inner : (rest.map Component.piece).filterMap innerComponent? = rest := by
        rw [List.filterMap_map]
        refine (List.filterMap_eq_map_iff_forall_eq_some.2 fun component member => ?_).trans
          (List.map_id rest)
        exact (isStep component (List.mem_cons_of_mem _ member)).of_piece.1
      have plain : ofComponents (first :: rest) = ⟨first.piece :: rest.map Component.piece⟩ := by
        rw [ofComponents]
        · rfl
        · rintro ⟨⟩
        · rintro ⟨⟩
          cases leading
      have notEmpty : first.piece ≠ "" := by
        intro empty
        rw [empty] at leading
        cases leading
      rw [plain, components]
      cases rest with
      | nil => simp [leading]
      | cons second rest =>
          rw [List.map_cons] at inner ⊢
          split
          next none => cases none
          next single => cases single
          next absolute => exact absurd (List.cons.inj absolute).1 notEmpty
          next relative =>
            obtain ⟨rfl, rfl⟩ := List.cons.inj relative
            rw [leading, inner]
            rfl

/-- A start with names after it is what its plainest path consists of. -/
theorem components_ofComponents_resolvedFrom (start : Start) {names : List String}
    (isName : ∀ name ∈ names, IsName name) :
    (ofComponents (resolvedFrom start names)).components = resolvedFrom start names := by
  cases start with
  | root => exact components_ofComponents isName
  | climbing steps =>
      refine components_ofComponents_steps fun component member => ?_
      rcases List.mem_append.1 member with up | named
      · exact .inl (List.eq_of_mem_replicate up)
      · obtain ⟨name, given, rfl⟩ := List.mem_map.1 named
        exact .inr ⟨name, rfl, isName name given⟩

/-! ## The stack of a path -/

/-- The stack that a path leaves, the last component on top. -/
def stack (path : Path) : List Component :=
  path.components.foldl push []

/-- Where the stack of a path starts. -/
def start (path : Path) : Start :=
  if path.isAbsolute then .root else .climbing 0

theorem normalize_eq (path : Path) : path.normalize = ofComponents path.stack.reverse :=
  rfl

/-- A single dot at the start of a path does not show on the stack. -/
theorem foldl_push_leading (piece : String) :
    (leadingComponent? piece).toList.foldl push [] =
      (innerComponent? piece).toList.foldl push [] := by
  by_cases dot : piece = "."
  · subst dot
    rfl
  · by_cases empty : piece = ""
    · subst empty
      rfl
    · simp [leadingComponent?, innerComponent?, dot, empty]

/-- The stack is made of the pieces, on top of the root if the path starts there. -/
theorem stack_eq (path : Path) :
    path.stack =
      (path.pieces.filterMap innerComponent?).foldl push (stackFrom path.start []) := by
  rw [stack, start]
  by_cases absolute : path.isAbsolute = true
  · obtain ⟨first, rest, pieces⟩ := isAbsolute_iff.1 absolute
    rw [components_absolute pieces, if_pos absolute, pieces]
    rfl
  · rw [if_neg absolute]
    cases pieces : path.pieces with
    | nil => rw [components, pieces]; rfl
    | cons first rest =>
        rw [components_relative pieces (Bool.eq_false_iff.2 absolute), List.foldl_append,
          foldl_push_leading]
        cases inner : innerComponent? first with
        | none => rw [List.filterMap_cons_none inner]; rfl
        | some component => rw [List.filterMap_cons_some inner]; rfl

/-- **A path resolves to a start and names after it.** -/
theorem exists_resolved (path : Path) :
    ∃ start names, path.stack = stackFrom start names ∧
      path.normalize.components = resolvedFrom start names ∧ ∀ name ∈ names, IsName name := by
  obtain ⟨steps, names, resolved, isName⟩ := foldl_push_pieces path.pieces path.start
    fun _ member => absurd member List.not_mem_nil
  refine ⟨path.start.climb steps, names, (stack_eq path).trans resolved, ?_, isName⟩
  rw [normalize_eq, stack_eq, resolved, reverse_stackFrom,
    components_ofComponents_resolvedFrom _ isName]

/-- Resolving a path again changes nothing on the stack. -/
theorem stack_normalize (path : Path) : path.normalize.stack = path.stack := by
  obtain ⟨start, names, resolved, components, _⟩ := exists_resolved path
  rw [resolved, stack, components, foldl_push_resolvedFrom]

/-! ## Going on -/

theorem isAbsolute_join {path next : Path} (relative : next.isAbsolute = false)
    (some_piece : next.pieces ≠ []) : (path.join next).isAbsolute = path.isAbsolute := by
  rw [Bool.eq_iff_iff]
  constructor
  · intro absolute
    obtain ⟨first, rest, joined⟩ := isAbsolute_iff.1 absolute
    rw [join, relative] at joined
    change openEnd path.pieces ++ next.pieces = "" :: first :: rest at joined
    rw [isAbsolute_iff]
    cases opened : openEnd path.pieces with
    | nil =>
        rw [opened, List.nil_append] at joined
        rw [isAbsolute_iff.2 ⟨first, rest, joined⟩] at relative
        cases relative
    | cons head tail =>
        rw [opened, List.cons_append] at joined
        obtain ⟨rfl, _⟩ := List.cons.inj joined
        rw [openEnd] at opened
        split at opened
        next last =>
          obtain ⟨above, split⟩ := List.getLast?_eq_some_iff.1 last
          rw [split, List.dropLast_concat] at opened
          rw [split, opened]
          cases tail with
          | nil => exact ⟨_, _, rfl⟩
          | cons second tail => exact ⟨_, _, rfl⟩
        next last =>
          cases tail with
          | nil => exact absurd (by rw [opened]; rfl) last
          | cons second tail => exact ⟨second, tail, opened⟩
  · intro absolute
    obtain ⟨first, rest, pieces⟩ := isAbsolute_iff.1 absolute
    have joined := components_join (components_absolute pieces) relative some_piece
    obtain ⟨first, rest, whole, _⟩ := absolute_of_components joined
    exact isAbsolute_iff.2 ⟨first, rest, whole⟩

/-- **Going on by a relative path** puts its pieces on the stack. -/
theorem stack_join (path : Path) {next : Path} (relative : next.isAbsolute = false)
    (some_piece : next.pieces ≠ []) :
    (path.join next).stack = (next.pieces.filterMap innerComponent?).foldl push path.stack := by
  have start : (path.join next).start = path.start := by
    rw [Path.start, Path.start, isAbsolute_join relative some_piece]
  have pieces : (path.join next).pieces = openEnd path.pieces ++ next.pieces := by
    rw [join, relative]
    rfl
  rw [stack_eq, start, pieces, List.filterMap_append, filterMap_openEnd, List.foldl_append,
    ← stack_eq]

/-- **Where a relative path leads from a directory does not depend on how the directory is
written.** -/
theorem normalize_join_normalize (path : Path) {next : Path} (relative : next.isAbsolute = false)
    (some_piece : next.pieces ≠ []) :
    (path.normalize.join next).normalize = (path.join next).normalize := by
  rw [normalize_eq (path.normalize.join next), normalize_eq (path.join next),
    stack_join _ relative some_piece, stack_normalize, stack_join _ relative some_piece]

/-- The components of where a relative path leads, given where it starts out from. -/
theorem components_normalize_join {path next : Path} (relative : next.isAbsolute = false)
    (some_piece : next.pieces ≠ []) {start : Start} {names : List String}
    (resolved : path.stack = stackFrom start names) (isName : ∀ name ∈ names, IsName name) :
    ∃ steps later, (path.join next).normalize.components =
        resolvedFrom (start.climb steps) later ∧ ∀ name ∈ later, IsName name := by
  obtain ⟨steps, later, led, named⟩ := foldl_push_pieces next.pieces start isName
  refine ⟨steps, later, ?_, named⟩
  rw [normalize_eq, stack_join path relative some_piece, resolved, led, reverse_stackFrom,
    components_ofComponents_resolvedFrom _ named]

/-! ## Below a root -/

/-- A path lies strictly below a root: after the components of the resolved root it has names, and
nothing else. -/
def IsBelow (root path : Path) : Prop :=
  ∃ added, added ≠ [] ∧ (∀ name ∈ added, IsName name) ∧
    path.components = root.normalize.components ++ added.map .normal

/-- A path leads out of a root that resolves to nothing but steps up: it takes more of them. -/
def ClimbsOut (root path : Path) : Prop :=
  ∃ (steps more : Nat) (names : List String),
    root.normalize.components = List.replicate steps .parent ∧
    path.components = List.replicate (steps + (more + 1)) .parent ++ names.map .normal

/-- A root that resolves to more than steps up: it starts at the top or ends in a name. -/
def Anchored (root : Path) : Prop :=
  ∃ component ∈ root.normalize.components, component ≠ .parent

theorem Anchored.not_climbsOut {root path : Path} (anchored : Anchored root) :
    ¬ ClimbsOut root path := by
  rintro ⟨steps, _, _, up, _⟩
  obtain ⟨component, member, other⟩ := anchored
  rw [up] at member
  exact other (List.eq_of_mem_replicate member)

/-- Names after a start come first in what is resolved from there only if it keeps the start and
goes on after the names, or if there are no names and it climbs. -/
theorem prefix_resolvedFrom {start : Start} {names later : List String} {steps : Nat}
    (initial : resolvedFrom start names <+: resolvedFrom (start.climb steps) later) :
    resolvedFrom (start.climb steps) later = resolvedFrom start later ∧ names <+: later ∨
      names = [] ∧ ∃ climbed more, start = .climbing climbed ∧ steps = more + 1 := by
  have kept (same : start.climb steps = start) :
      resolvedFrom (start.climb steps) later = resolvedFrom start later ∧ names <+: later := by
    rw [same] at initial ⊢
    refine ⟨rfl, ?_⟩
    have mapped := (List.prefix_append_right_inj _).1 initial
    have injective : Function.Injective Component.normal := fun _ _ same =>
      Component.normal.inj same
    exact (List.prefix_map_iff_of_injective injective).1 mapped
  cases start with
  | root => exact .inl (kept rfl)
  | climbing climbed =>
      cases steps with
      | zero => exact .inl (kept rfl)
      | succ more =>
          refine .inr ⟨?_, climbed, more, rfl, rfl⟩
          rw [resolvedFrom, resolvedFrom, Start.climb, Start.components, Start.components,
            List.replicate_add, List.append_assoc, List.prefix_append_right_inj,
            List.replicate_succ, List.cons_append] at initial
          cases names with
          | nil => rfl
          | cons name rest =>
              rw [List.map_cons, List.cons_prefix_cons] at initial
              cases initial.1

/-- Where a relative text leads, if the root's components come first there and are not all. -/
theorem isBelow_or_climbsOut {root next : Path} (relative : next.isAbsolute = false)
    (some_piece : next.pieces ≠ [])
    (different : (root.join next).normalize.components ≠ root.normalize.components)
    (initial : root.normalize.components <+: (root.join next).normalize.components) :
    IsBelow root (root.join next).normalize ∨ ClimbsOut root (root.join next).normalize := by
  obtain ⟨start, names, resolved, rootComponents, isName⟩ := exists_resolved root
  obtain ⟨steps, later, components, named⟩ :=
    components_normalize_join relative some_piece resolved isName
  rw [IsBelow, ClimbsOut]
  rw [rootComponents, components] at different initial ⊢
  obtain ⟨kept, added, rfl⟩ | ⟨rfl, climbed, more, rfl, rfl⟩ := prefix_resolvedFrom initial
  · refine .inl ⟨added, ?_, fun name member => named name (List.mem_append_right _ member), ?_⟩
    · rintro rfl
      exact different (by rw [kept, List.append_nil])
    · rw [kept, resolvedFrom, resolvedFrom, List.map_append, List.append_assoc]
  · exact .inr ⟨climbed, more, later, List.append_nil _, rfl⟩

theorem IsBelow.startsWith {root path : Path} (below : IsBelow root path) :
    path.components ≠ root.normalize.components ∧
      root.normalize.components <+: path.components := by
  obtain ⟨added, nonempty, _, components⟩ := below
  rw [components]
  exact ⟨by simpa using nonempty, List.prefix_append _ _⟩

theorem ClimbsOut.startsWith {root path : Path} (out : ClimbsOut root path) :
    path.components ≠ root.normalize.components ∧
      root.normalize.components <+: path.components := by
  obtain ⟨steps, more, names, up, components⟩ := out
  rw [up, components, List.replicate_add, List.append_assoc]
  exact ⟨by simp, List.prefix_append _ _⟩

/-- **What is accepted below a root** leads there relatively, to below the root or out of it. -/
theorem within?_eq_some_iff {root path : Path} {relative : String} :
    within? root relative = some path ↔
      (ofText relative).isAbsolute = false ∧ path = (root.joinText relative).normalize ∧
        (IsBelow root path ∨ ClimbsOut root path) := by
  rw [within?, joinText]
  by_cases absolute : (ofText relative).isAbsolute = true
  · simp only [absolute, ↓reduceIte, reduceCtorEq, Bool.true_eq_false, false_and]
  · rw [if_neg absolute]
    rw [Bool.not_eq_true] at absolute
    have some_piece := pieces_ofText_ne_nil relative
    simp only [normalize_join_normalize root absolute some_piece]
    generalize resolution : (root.join (ofText relative)).normalize = resolved
    have accepted : (!resolved.same root.normalize && resolved.startsWith root.normalize) = true ↔
        IsBelow root resolved ∨ ClimbsOut root resolved := by
      rw [Bool.and_eq_true, Bool.not_eq_true', ← Bool.not_eq_true, same_iff, startsWith,
        List.isPrefixOf_iff_prefix]
      constructor
      · rintro ⟨different, initial⟩
        subst resolution
        exact isBelow_or_climbsOut absolute some_piece different initial
      · exact fun leads => leads.elim IsBelow.startsWith ClimbsOut.startsWith
    split
    next leads =>
      rw [Option.some_inj]
      constructor
      · rintro rfl
        exact ⟨absolute, rfl, accepted.1 leads⟩
      · rintro ⟨_, same, _⟩
        exact same.symm
    next refused =>
      constructor
      · rintro ⟨⟩
      · rintro ⟨_, rfl, leads⟩
        exact absurd (accepted.2 leads) refused

/-- **What a root lets through.**  A text is accepted exactly if it is relative and leads to
strictly below the root, or out of a root that is nothing but steps up.  Below an anchored root what
is accepted lies strictly below the root, and a text is refused exactly if it is absolute or leads
anywhere else. -/
theorem below_or_out_of_within (root : Path) (relative : String) :
    (∀ path, within? root relative = some path ↔
      (ofText relative).isAbsolute = false ∧ path = (root.joinText relative).normalize ∧
        (IsBelow root path ∨ ClimbsOut root path)) ∧
    (Anchored root →
      (∀ path, within? root relative = some path → IsBelow root path) ∧
      (within? root relative = none ↔
        (ofText relative).isAbsolute = true ∨
          ¬ IsBelow root (root.joinText relative).normalize)) := by
  refine ⟨fun path => within?_eq_some_iff, fun anchored => ⟨fun path accepted => ?_, ?_⟩⟩
  · obtain ⟨_, _, leads⟩ := within?_eq_some_iff.1 accepted
    exact leads.resolve_right anchored.not_climbsOut
  · rw [Option.eq_none_iff_forall_ne_some]
    constructor
    · intro refused
      by_contra other
      rw [not_or, Bool.not_eq_true, not_not] at other
      exact refused _ (within?_eq_some_iff.2 ⟨other.1, rfl, .inl other.2⟩)
    · intro reason path accepted
      obtain ⟨isRelative, rfl, leads⟩ := within?_eq_some_iff.1 accepted
      rcases reason with absolute | outside
      · rw [isRelative] at absolute
        cases absolute
      · exact outside (leads.resolve_right anchored.not_climbsOut)

/-- **Below a dot a step up is accepted**, and it does not lead below the dot. -/
theorem accepted_above_root :
    within? ⟨["."]⟩ "../x" = some ⟨["..", "x"]⟩ ∧ ¬ IsBelow ⟨["."]⟩ ⟨["..", "x"]⟩ := by
  refine ⟨by decide +kernel, ?_⟩
  rintro ⟨added, _, _, components⟩
  have led : (⟨["..", "x"]⟩ : Path).components = [.parent, .normal "x"] := by decide +kernel
  have root : (⟨["."]⟩ : Path).normalize.components = [] := by decide +kernel
  rw [led, root, List.nil_append] at components
  cases added with
  | nil => cases components
  | cons name rest => cases (List.cons.inj components).1

end Uplift.Path
