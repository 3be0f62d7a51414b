import Uplift.Proofs.Plan.Approval

/-!
# The order of upgrades

There is an upgrade from one text to another if both are accepted as versions and the second comes
after the first; the authors' flag says what kind of upgrade it is and never whether it is one
(`isUpgrade_iff`).  So upgrades order the accepted texts strictly, and two of them between which
there is no upgrade denote the same version: the order of versions leaves nothing out, and versions
it does not tell apart are equal.

By the numbers an upgrade is breaking if it leaves the line of the version it starts from.  On the
way from one version to a later one the major number does not fall, and while it stays the minor
number does not fall either.  An upgrade in two steps therefore stays on one line exactly if both
steps do (`sameLine_iff_of_before`), also where one of them goes from zero to another major number,
and whether it is breaking does not depend on where it stops over (`upgrades_ordered`).
-/

set_option autoImplicit false

namespace Uplift

/-- A later version is on the line of a first one exactly if a version between them is on the lines
of both. -/
theorem Version.sameLine_iff_of_before {first second third : Version}
    (early : first.before second = true) (late : second.before third = true) :
    first.SameLine third ↔ first.SameLine second ∧ second.SameLine third := by
  refine ⟨fun line => ?_, fun lines => lines.1.trans lines.2⟩
  have lower := Version.numbers_of_before early
  have upper := Version.numbers_of_before late
  obtain ⟨major, minor⟩ := line
  refine ⟨⟨by omega, fun zero => ?_⟩, ⟨by omega, fun zero => ?_⟩⟩
  · have := minor zero
    omega
  · have := minor (by omega)
    omega

namespace Classification

/-- There is an upgrade from one text to another, whatever the authors say. -/
def IsUpgrade (current latest : String) : Prop :=
  ∀ flag, ofTexts current latest flag ≠ .upToDate

theorem ofVersions_eq_upToDate_iff {current latest : Version} {flag : Option Bool} :
    ofVersions current latest flag = .upToDate ↔ current.before latest = false := by
  rw [ofVersions, Version.before_eq_not_upTo, Bool.not_eq_false']
  split
  next upTo => simp [upTo]
  next later =>
    rw [iff_false_right later]
    split
    next => simp
    next => simp

theorem ofTexts_ne_upToDate_iff {current latest : String} {flag : Option Bool} :
    ofTexts current latest flag ≠ .upToDate ↔
      ∃ first second, Version.parseLoose? current = some first ∧
        Version.parseLoose? latest = some second ∧ first.before second = true := by
  rw [ofTexts]
  cases Version.parseLoose? current with
  | none => simp
  | some first =>
      cases Version.parseLoose? latest with
      | none => simp
      | some second => simp [ofVersions_eq_upToDate_iff]

/-- **A text is an upgrade of another if both are versions and it is the later one.** -/
theorem isUpgrade_iff {current latest : String} :
    IsUpgrade current latest ↔
      ∃ first second, Version.parseLoose? current = some first ∧
        Version.parseLoose? latest = some second ∧ first.before second = true :=
  ⟨fun upgrade => ofTexts_ne_upToDate_iff.1 (upgrade none),
    fun later _ => ofTexts_ne_upToDate_iff.2 later⟩

/-- Without a word of the authors, a step forward is breaking if it leaves its line. -/
theorem ofTexts_eq_breaking_iff {current latest : String} {first second : Version}
    (isFirst : Version.parseLoose? current = some first)
    (isSecond : Version.parseLoose? latest = some second) (before : first.before second = true) :
    ofTexts current latest none = .breaking ↔ ¬ first.SameLine second := by
  have line : ofVersions first second none = .nonBreaking ↔ first.SameLine second := by
    simp [ofVersions_eq_nonBreaking_iff, before]
  rw [ofTexts, isFirst, isSecond, ← line]
  cases kind : ofVersions first second none with
  | upToDate =>
      rw [ofVersions_eq_upToDate_iff, before] at kind
      cases kind
  | nonBreaking => simp [kind]
  | breaking => simp [kind]

theorem IsUpgrade.irrefl (text : String) : ¬ IsUpgrade text text := by
  rw [isUpgrade_iff]
  rintro ⟨version, other, isVersion, isOther, before⟩
  cases isVersion.symm.trans isOther
  rw [Version.not_before_self] at before
  cases before

theorem IsUpgrade.trans {first second third : String} (early : IsUpgrade first second)
    (late : IsUpgrade second third) : IsUpgrade first third := by
  obtain ⟨version, middle, isVersion, isMiddle, before⟩ := isUpgrade_iff.1 early
  obtain ⟨middle', last, isMiddle', isLast, before'⟩ := isUpgrade_iff.1 late
  cases isMiddle.symm.trans isMiddle'
  exact isUpgrade_iff.2 ⟨version, last, isVersion, isLast, Version.before_trans before before'⟩

/-- Accepted texts without an upgrade between them denote the same version. -/
theorem not_isUpgrade_iff_eq {first second : String} {version other : Version}
    (isVersion : Version.parseLoose? first = some version)
    (isOther : Version.parseLoose? second = some other) :
    ¬ IsUpgrade first second ∧ ¬ IsUpgrade second first ↔ version = other := by
  simp only [isUpgrade_iff, isVersion, isOther, Option.some.injEq, exists_and_left,
    exists_eq_left', Bool.not_eq_true]
  constructor
  · rintro ⟨notBefore, notAfter⟩
    by_contra different
    rw [Version.before_eq_not_upTo, Bool.not_eq_false'] at notAfter
    rw [Version.before_of_upTo notAfter different] at notBefore
    cases notBefore
  · rintro rfl
    exact ⟨Version.not_before_self version, Version.not_before_self version⟩

/-- **Whether an upgrade in two steps is breaking by the numbers does not depend on where it stops
over.** -/
theorem breaking_iff_of_isUpgrade {first second third : String}
    (early : IsUpgrade first second) (late : IsUpgrade second third) :
    ofTexts first third none = .breaking ↔
      ofTexts first second none = .breaking ∨ ofTexts second third none = .breaking := by
  obtain ⟨version, middle, isVersion, isMiddle, before⟩ := isUpgrade_iff.1 early
  obtain ⟨middle', last, isMiddle', isLast, before'⟩ := isUpgrade_iff.1 late
  cases isMiddle.symm.trans isMiddle'
  rw [ofTexts_eq_breaking_iff isVersion isLast (Version.before_trans before before'),
    ofTexts_eq_breaking_iff isVersion isMiddle before,
    ofTexts_eq_breaking_iff isMiddle isLast before',
    Version.sameLine_iff_of_before before before', not_and_or]

/-- **Upgrades are a strict order, and being breaking does not depend on the way.**

Whether a text is an upgrade of another does not depend on the authors' flag.  No text is an upgrade
of itself, no two are upgrades of each other, and an upgrade of an upgrade is one; two accepted
texts of which neither is an upgrade of the other denote the same version, and only such.  Where one
upgrade follows another, the upgrade in one step is breaking by the numbers exactly if one of the
two is. -/
theorem upgrades_ordered :
    (∀ current latest flag,
      ofTexts current latest flag ≠ .upToDate ↔ IsUpgrade current latest) ∧
    (∀ text, ¬ IsUpgrade text text) ∧
    (∀ first second, IsUpgrade first second → ¬ IsUpgrade second first) ∧
    (∀ first second third, IsUpgrade first second → IsUpgrade second third →
      IsUpgrade first third) ∧
    (∀ first second version other, Version.parseLoose? first = some version →
      Version.parseLoose? second = some other →
        (¬ IsUpgrade first second ∧ ¬ IsUpgrade second first ↔ version = other)) ∧
    ∀ first second third, IsUpgrade first second → IsUpgrade second third →
      (ofTexts first third none = .breaking ↔
        ofTexts first second none = .breaking ∨ ofTexts second third none = .breaking) := by
  refine ⟨fun current latest flag => ?_, IsUpgrade.irrefl, fun first second upgrade back => ?_,
    fun first second third => IsUpgrade.trans,
    fun first second version other => not_isUpgrade_iff_eq,
    fun first second third => breaking_iff_of_isUpgrade⟩
  · rw [isUpgrade_iff, ofTexts_ne_upToDate_iff]
  · exact IsUpgrade.irrefl first (upgrade.trans back)

/-- An upgrade with a stop-over, of which the second step goes from zero to another major number,
and two texts for one version. -/
theorem upgrades_ordered_acrossZero :
    IsUpgrade "0.9.0" " v0.9.1-rc.1" ∧ IsUpgrade " v0.9.1-rc.1" "1.0.0" ∧
      IsUpgrade "0.9.0" "1.0.0" ∧ ¬ IsUpgrade "1.0.0" "0.9.0" ∧
      ofTexts "0.9.0" "1.0.0" none = .breaking ∧
      (ofTexts "0.9.0" " v0.9.1-rc.1" none = .breaking ∨
        ofTexts " v0.9.1-rc.1" "1.0.0" none = .breaking) ∧
      (¬ IsUpgrade "1.0.0" " v1.0.0" ∧ ¬ IsUpgrade " v1.0.0" "1.0.0") := by
  obtain ⟨flagged, _, asymmetric, trans, same, breaking⟩ := upgrades_ordered
  have early : IsUpgrade "0.9.0" " v0.9.1-rc.1" := (flagged _ _ none).1 (by decide +kernel)
  have late : IsUpgrade " v0.9.1-rc.1" "1.0.0" := (flagged _ _ none).1 (by decide +kernel)
  have whole := trans _ _ _ early late
  have jump : ofTexts "0.9.0" "1.0.0" none = .breaking := by decide +kernel
  have one : Version.parseLoose? "1.0.0" = some ⟨1, 0, 0, [], []⟩ := by decide +kernel
  have spaced : Version.parseLoose? " v1.0.0" = some ⟨1, 0, 0, [], []⟩ := by decide +kernel
  exact ⟨early, late, whole, asymmetric _ _ whole, jump, (breaking _ _ _ early late).1 jump,
    (same _ _ _ _ one spaced).2 rfl⟩

end Classification

end Uplift
