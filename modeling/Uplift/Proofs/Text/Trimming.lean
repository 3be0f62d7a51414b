import Mathlib.Data.List.DropRight
import Uplift.Proofs.Text.Cutting
import Uplift.Text.Blank

/-!
# Texts without the blanks around them

Trimming removes the blanks around a text whose first and last characters are none, and nothing of
the text itself (`trim_of_ends`).  What is trimmed of a text does not depend on blanks after it, so
that the lines of a text, joined again, trim to the same as the text
(`trim_joinWith_lines`).
-/

set_option autoImplicit false

namespace Uplift.Text

/-! ## Letters and digits -/

/-- Letters and digits are far from blanks and controls. -/
theorem toNat_of_isAlphanum {c : Char} (alphanum : c.isAlphanum = true) :
    48 ≤ c.toNat ∧ c.toNat ≤ 122 := by
  rcases Bool.or_eq_true_iff.1 alphanum with letter | digit
  · rcases Bool.or_eq_true_iff.1 letter with upper | lower
    · obtain ⟨low, high⟩ := of_decide_eq_true upper
      change 65 ≤ c.toNat at low
      change c.toNat ≤ 90 at high
      omega
    · obtain ⟨low, high⟩ := Bool.and_eq_true_iff.1 lower
      have low : 97 ≤ c.toNat := of_decide_eq_true low
      have high : c.toNat ≤ 122 := of_decide_eq_true high
      omega
  · obtain ⟨low, high⟩ := Bool.and_eq_true_iff.1 digit
    have low : 48 ≤ c.toNat := of_decide_eq_true low
    have high : c.toNat ≤ 57 := of_decide_eq_true high
    omega

/-! ## Texts without blanks at their ends -/

theorem trimStart_blank_append {blank : List Char} (blanks : ∀ c ∈ blank, isBlank c = true)
    (text : List Char) : trimStart (blank ++ text) = trimStart text :=
  List.dropWhile_append_of_pos blanks

theorem trim_blank_append {blank : List Char} (blanks : ∀ c ∈ blank, isBlank c = true)
    (text : List Char) : trim (blank ++ text) = trim text := by
  rw [trim, trimStart_blank_append blanks, trim]

theorem trimStart_cons {c : Char} (dark : isBlank c = false) (text : List Char) :
    trimStart (c :: text) = c :: text :=
  List.dropWhile_cons_of_neg (Bool.eq_false_iff.1 dark)

theorem trimEnd_concat {c : Char} (dark : isBlank c = false) (text : List Char) :
    trimEnd (text ++ [c]) = text ++ [c] :=
  List.rdropWhile_concat_neg isBlank text c (Bool.eq_false_iff.1 dark)

theorem trimEnd_isPrefix (text : List Char) : trimEnd text <+: text :=
  List.rdropWhile_prefix isBlank text

/-- A text whose first and last characters are not blank. -/
structure HasDarkEnds (text : List Char) : Prop where
  first : ∃ c, text.head? = some c ∧ isBlank c = false
  last : ∃ c, text.getLast? = some c ∧ isBlank c = false

/-- **Trimming finds a text among blanks.** -/
theorem trim_of_ends {blank text : List Char} (blanks : ∀ c ∈ blank, isBlank c = true)
    (ends : HasDarkEnds text) : trim (blank ++ text) = text := by
  obtain ⟨first, head, firstDark⟩ := ends.first
  obtain ⟨last, final, lastDark⟩ := ends.last
  have stays : trimStart text = text := by
    obtain ⟨more, rfl⟩ := List.head?_eq_some_iff.1 head
    exact trimStart_cons firstDark more
  rw [trim_blank_append blanks, trim, stays]
  obtain ⟨front, rfl⟩ := List.getLast?_eq_some_iff.1 final
  exact trimEnd_concat lastDark front

theorem trim_of_dark_ends {text : List Char} (ends : HasDarkEnds text) : trim text = text := by
  have blanks : ∀ c ∈ [], isBlank c = true := nofun
  exact trim_of_ends blanks ends

/-- Trimming leaves a text without blanks as it is. -/
theorem trim_of_dark {text : List Char} (dark : ∀ c ∈ text, isBlank c = false) :
    trim text = text := by
  cases text with
  | nil => rfl
  | cons c text =>
      have last := List.getLast?_eq_some_getLast (List.cons_ne_nil c text)
      exact trim_of_dark_ends ⟨⟨c, rfl, dark c List.mem_cons_self⟩, _, last,
        dark _ (List.mem_of_getLast? last)⟩

/-- A text that starts with no blank is trimmed at its end only. -/
theorem trim_cons {c : Char} (dark : isBlank c = false) (text : List Char) :
    ∃ more, trim (c :: text) = c :: more := by
  have last : [c].dropWhile isBlank = [c] := List.dropWhile_cons_of_neg (by simp [dark])
  rw [trim, trimStart_cons dark, trimEnd, List.reverse_cons, List.dropWhile_append, last]
  split
  · exact ⟨[], rfl⟩
  · exact ⟨_, List.reverse_append⟩

/-! ## Blanks after a text -/

theorem trimEnd_append_blank {blank : List Char} (blanks : ∀ c ∈ blank, isBlank c = true)
    (text : List Char) : trimEnd (text ++ blank) = trimEnd text := by
  rw [trimEnd, List.reverse_append,
    List.dropWhile_append_of_pos fun c member => blanks c (List.mem_reverse.1 member), trimEnd]

theorem trim_of_blank {text : List Char} (blanks : ∀ c ∈ text, isBlank c = true) :
    trim text = [] := by
  rw [trim, trimStart, List.dropWhile_eq_nil_iff.2 blanks]
  rfl

theorem trim_append_blank {blank : List Char} (blanks : ∀ c ∈ blank, isBlank c = true)
    (text : List Char) : trim (text ++ blank) = trim text := by
  by_cases allBlank : ∀ c ∈ text, isBlank c = true
  · rw [trim_of_blank allBlank,
      trim_of_blank fun c member => (List.mem_append.1 member).elim (allBlank c) (blanks c)]
  · have busy : text.dropWhile isBlank ≠ [] := fun none =>
      allBlank (List.dropWhile_eq_nil_iff.1 none)
    rw [trim, trimStart, List.dropWhile_append, if_neg (by simpa using allBlank),
      trimEnd_append_blank blanks, trim, trimStart]

/-! ## Lines of a text -/

/-- The lines of a text, joined again, are the text but for the line feed at its end. -/
theorem joinWith_lines {text : List Char} (unreturned : '\r' ∉ text) :
    text = joinWith ['\n'] (lines text) ∨ text = joinWith ['\n'] (lines text) ++ ['\n'] := by
  induction text using full_line_induction with
  | last text plain =>
      left
      cases text with
      | nil => rfl
      | cons c text =>
          have unended : stripTerminator (c :: text) = c :: text := by
            rw [stripTerminator]
            split
            next last => exact absurd (List.mem_reverse.1 (last ▸ by simp)) plain
            next last => exact absurd (List.mem_reverse.1 (last ▸ by simp)) plain
            next => rfl
          rw [lines, splitLines_of_plain plain (List.cons_ne_nil c text), List.map_singleton,
            unended, joinWith]
  | full content rest plain ih =>
      have kept : dropReturn content = content := dropReturn_of_last fun last =>
        unreturned (List.mem_append_left _ (List.mem_of_getLast? last))
      have later := ih fun member => unreturned (by simp [member])
      rw [lines_append plain, kept]
      cases below : lines rest with
      | nil =>
          right
          rw [eq_nil_of_lines below, joinWith]
      | cons line more =>
          rw [below] at later
          rw [joinWith, ← List.append_cons]
          rcases later with equal | equal
          · exact .inl (by rw [← equal])
          · exact .inr (by rw [List.append_assoc, List.cons_append, ← equal])

theorem trim_joinWith_lines {text : List Char} (unreturned : '\r' ∉ text) :
    trim (joinWith ['\n'] (lines text)) = trim text := by
  rcases joinWith_lines unreturned with equal | equal
  · rw [← equal]
  · have feed : ∀ c ∈ ['\n'], isBlank c = true := List.forall_mem_singleton.2 rfl
    rw [← trim_append_blank feed, ← equal]

end Uplift.Text
