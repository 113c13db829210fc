import Mathlib.Data.List.Basic
import Dealias.Proofs.Json.Grammar

/-!
# Numbers in stages

The machine reads a number in stages and does not know its grammar.  For each stage there are texts
that complete a number from there on, cut out of the grammar.

* `NumberStage.rest_cons_iff`: the machine takes a character exactly when such a text begins with
  it, and then stands in the stage of the rest.
* `NumberStage.rest_nil_iff`: it may stop exactly when nothing more has to come.

## Strategy

A text that completes a number is a row of parts, and a character belongs to the first part that is
not empty.  So each stage has a lemma that splits off one character, by cases on the first part; the
machine asks the same questions in the same order.
-/

namespace Dealias.Json

variable {line : Nat} {character : Char} {rest : List Char}

/-! ## Numbers -/

/-- The characters that may follow to complete a number. -/
def NumberStage.Rest : NumberStage → List Char → Prop
  | sign, text => ∃ whole fraction exponent, text = whole ++ (fraction ++ exponent) ∧
      IsWhole whole ∧ IsFraction fraction ∧ IsExponent exponent
  | zero, text => ∃ fraction exponent, text = fraction ++ exponent ∧ IsFraction fraction ∧
      IsExponent exponent
  | whole, text => ∃ digits fraction exponent, text = digits ++ (fraction ++ exponent) ∧
      (∀ digit ∈ digits, digit.isDigit = true) ∧ IsFraction fraction ∧ IsExponent exponent
  | point, text => ∃ digits exponent, text = digits ++ exponent ∧ IsDigits digits ∧
      IsExponent exponent
  | fraction, text => ∃ digits exponent, text = digits ++ exponent ∧
      (∀ digit ∈ digits, digit.isDigit = true) ∧ IsExponent exponent
  | mark, text => ∃ sign digits, text = sign ++ digits ∧ sign ∈ [[], ['+'], ['-']] ∧
      IsDigits digits
  | markSign, text => IsDigits text
  | exponent, text => ∀ digit ∈ text, digit.isDigit = true

theorem isDigits_cons_iff : IsDigits (character :: rest) ↔
    character.isDigit = true ∧ ∀ digit ∈ rest, digit.isDigit = true := by
  simp [IsDigits]

theorem isExponent_cons_iff : IsExponent (character :: rest) ↔
    (character = 'e' ∨ character = 'E') ∧ NumberStage.mark.Rest rest := by
  constructor
  · rintro (hempty | ⟨mark, sign, digits, htext, hmark, hsign, hdigits⟩)
    · cases hempty
    · obtain ⟨rfl, rfl⟩ := List.cons.inj htext
      exact ⟨by simpa using hmark, sign, digits, rfl, hsign, hdigits⟩
  · rintro ⟨hmark, sign, digits, rfl, hsign, hdigits⟩
    exact .inr ⟨character, sign, digits, rfl, by simpa using hmark, hsign, hdigits⟩

namespace NumberStage

theorem rest_mark_cons_iff : mark.Rest (character :: rest) ↔
    (character.isDigit = true ∧ exponent.Rest rest) ∨
      ((character = '+' ∨ character = '-') ∧ markSign.Rest rest) := by
  constructor
  · rintro ⟨sign, digits, htext, hsign, hdigits⟩
    rcases sign with - | ⟨first, sign⟩
    · rw [List.nil_append] at htext
      subst htext
      exact .inl (isDigits_cons_iff.mp hdigits)
    · obtain ⟨rfl, rfl⟩ := List.cons.inj htext
      have hsign : (character = '+' ∨ character = '-') ∧ sign = [] := by
        simpa [or_and_right] using hsign
      obtain ⟨hcharacter, rfl⟩ := hsign
      exact .inr ⟨hcharacter, hdigits⟩
  · rintro (⟨hdigit, hrest⟩ | ⟨hsign, hrest⟩)
    · exact ⟨[], _, rfl, by simp, isDigits_cons_iff.mpr ⟨hdigit, hrest⟩⟩
    · exact ⟨[character], rest, rfl, by simpa using hsign, hrest⟩

theorem rest_fraction_cons_iff : fraction.Rest (character :: rest) ↔
    (character.isDigit = true ∧ fraction.Rest rest) ∨ IsExponent (character :: rest) := by
  constructor
  · rintro ⟨digits, exponent, htext, hdigits, hexponent⟩
    rcases digits with - | ⟨digit, digits⟩
    · exact .inr (htext ▸ hexponent)
    · obtain ⟨rfl, rfl⟩ := List.cons.inj htext
      obtain ⟨hdigit, hdigits⟩ := List.forall_mem_cons.mp hdigits
      exact .inl ⟨hdigit, digits, exponent, rfl, hdigits, hexponent⟩
  · rintro (⟨hdigit, digits, exponent, rfl, hdigits, hexponent⟩ | hexponent)
    · exact ⟨character :: digits, exponent, rfl, List.forall_mem_cons.mpr ⟨hdigit, hdigits⟩,
        hexponent⟩
    · exact ⟨[], _, rfl, nofun, hexponent⟩

theorem rest_point_cons_iff : point.Rest (character :: rest) ↔
    character.isDigit = true ∧ fraction.Rest rest := by
  constructor
  · rintro ⟨digits, exponent, htext, hdigits, hexponent⟩
    rcases digits with - | ⟨digit, digits⟩
    · exact absurd rfl hdigits.1
    · obtain ⟨rfl, rfl⟩ := List.cons.inj htext
      obtain ⟨hdigit, hdigits⟩ := isDigits_cons_iff.mp hdigits
      exact ⟨hdigit, digits, exponent, rfl, hdigits, hexponent⟩
  · rintro ⟨hdigit, digits, exponent, rfl, hdigits, hexponent⟩
    exact ⟨character :: digits, exponent, rfl, isDigits_cons_iff.mpr ⟨hdigit, hdigits⟩, hexponent⟩

theorem rest_zero_cons_iff : zero.Rest (character :: rest) ↔
    (character = '.' ∧ point.Rest rest) ∨ IsExponent (character :: rest) := by
  constructor
  · rintro ⟨fraction, exponent, htext, rfl | ⟨digits, rfl, hdigits⟩, hexponent⟩
    · exact .inr (htext ▸ hexponent)
    · obtain ⟨rfl, rfl⟩ := List.cons.inj htext
      exact .inl ⟨rfl, digits, exponent, rfl, hdigits, hexponent⟩
  · rintro (⟨rfl, digits, exponent, rfl, hdigits, hexponent⟩ | hexponent)
    · exact ⟨'.' :: digits, exponent, rfl, .inr ⟨digits, rfl, hdigits⟩, hexponent⟩
    · exact ⟨[], _, rfl, .inl rfl, hexponent⟩

theorem rest_whole_cons_iff : whole.Rest (character :: rest) ↔
    (character.isDigit = true ∧ whole.Rest rest) ∨ zero.Rest (character :: rest) := by
  constructor
  · rintro ⟨digits, fraction, exponent, htext, hdigits, hbehind⟩
    rcases digits with - | ⟨digit, digits⟩
    · exact .inr ⟨fraction, exponent, htext, hbehind⟩
    · obtain ⟨rfl, rfl⟩ := List.cons.inj htext
      obtain ⟨hdigit, hdigits⟩ := List.forall_mem_cons.mp hdigits
      exact .inl ⟨hdigit, digits, fraction, exponent, rfl, hdigits, hbehind⟩
  · rintro (⟨hdigit, digits, fraction, exponent, rfl, hdigits, hbehind⟩ |
      ⟨fraction, exponent, htext, hbehind⟩)
    · exact ⟨character :: digits, fraction, exponent, rfl,
        List.forall_mem_cons.mpr ⟨hdigit, hdigits⟩, hbehind⟩
    · exact ⟨[], fraction, exponent, htext, nofun, hbehind⟩

theorem rest_sign_cons_iff : sign.Rest (character :: rest) ↔
    (character = '0' ∧ zero.Rest rest) ∨
      (character ≠ '0' ∧ character.isDigit = true ∧ whole.Rest rest) := by
  constructor
  · rintro ⟨whole, fraction, exponent, htext, hwhole, hbehind⟩
    cases hwhole with
    | zero =>
        obtain ⟨rfl, rfl⟩ := List.cons.inj htext
        exact .inl ⟨rfl, fraction, exponent, rfl, hbehind⟩
    | digits hdigit hne hdigits =>
        obtain ⟨rfl, rfl⟩ := List.cons.inj htext
        exact .inr ⟨hne, hdigit, _, fraction, exponent, rfl, hdigits, hbehind⟩
  · rintro (⟨rfl, fraction, exponent, rfl, hbehind⟩ |
      ⟨hne, hdigit, digits, fraction, exponent, rfl, hdigits, hbehind⟩)
    · exact ⟨['0'], fraction, exponent, rfl, .zero, hbehind⟩
    · exact ⟨character :: digits, fraction, exponent, rfl, .digits hdigit hne hdigits, hbehind⟩

theorem rest_nil_iff {stage : NumberStage} : stage.Rest [] ↔ stage.isFinal = true := by
  have hnodigits : ¬ IsDigits [] := fun hdigits => hdigits.1 rfl
  have hnone : ∀ digit ∈ ([] : List Char), digit.isDigit = true := nofun
  cases stage with
  | zero => exact iff_of_true ⟨[], [], rfl, .inl rfl, .inl rfl⟩ rfl
  | whole => exact iff_of_true ⟨[], [], [], rfl, hnone, .inl rfl, .inl rfl⟩ rfl
  | fraction => exact iff_of_true ⟨[], [], rfl, hnone, .inl rfl⟩ rfl
  | exponent => exact iff_of_true hnone rfl
  | sign =>
      refine iff_of_false ?_ nofun
      rintro ⟨whole, fraction, exponent, htext, hwhole, -⟩
      obtain ⟨rfl, -⟩ := List.append_eq_nil_iff.mp htext.symm
      cases hwhole
  | point =>
      refine iff_of_false ?_ nofun
      rintro ⟨digits, exponent, htext, hdigits, -⟩
      obtain ⟨rfl, -⟩ := List.append_eq_nil_iff.mp htext.symm
      exact hnodigits hdigits
  | mark =>
      refine iff_of_false ?_ nofun
      rintro ⟨sign, digits, htext, -, hdigits⟩
      obtain ⟨-, rfl⟩ := List.append_eq_nil_iff.mp htext.symm
      exact hnodigits hdigits
  | markSign => exact iff_of_false hnodigits nofun

/-- **Stages of numbers.**  A character goes on with a number exactly when the machine says so. -/
theorem rest_cons_iff {stage : NumberStage} : stage.Rest (character :: rest) ↔
    ∃ next, stage.next? character = some next ∧ next.Rest rest := by
  have hpoint : ('.' : Char).isDigit = false := by decide
  have hlower : ('e' : Char).isDigit = false := by decide
  have hupper : ('E' : Char).isDigit = false := by decide
  have hplus : ('+' : Char).isDigit = false := by decide
  have hminus : ('-' : Char).isDigit = false := by decide
  cases stage with
  | sign =>
      rw [rest_sign_cons_iff, next?]
      by_cases hzero : character = '0' <;> by_cases hdigit : character.isDigit = true <;>
        simp [hzero, hdigit]
  | zero =>
      rw [rest_zero_cons_iff, isExponent_cons_iff, next?]
      by_cases hdot : character = '.'
      · simp [hdot]
      · by_cases hmark : character = 'e' ∨ character = 'E' <;> simp [hdot, hmark]
  | whole =>
      rw [rest_whole_cons_iff, rest_zero_cons_iff, isExponent_cons_iff, next?]
      by_cases hdigit : character.isDigit = true
      · have hdot : character ≠ '.' := by rintro rfl; simp [hpoint] at hdigit
        have hmark : ¬ (character = 'e' ∨ character = 'E') := by
          rintro (rfl | rfl) <;> simp [hlower, hupper] at hdigit
        simp [hdigit, hdot, hmark]
      · by_cases hdot : character = '.'
        · simp [hdot, hpoint]
        · by_cases hmark : character = 'e' ∨ character = 'E' <;> simp [hdigit, hdot, hmark]
  | point =>
      rw [rest_point_cons_iff, next?]
      by_cases hdigit : character.isDigit = true <;> simp [hdigit]
  | fraction =>
      rw [rest_fraction_cons_iff, isExponent_cons_iff, next?]
      by_cases hdigit : character.isDigit = true
      · have hmark : ¬ (character = 'e' ∨ character = 'E') := by
          rintro (rfl | rfl) <;> simp [hlower, hupper] at hdigit
        simp [hdigit, hmark]
      · by_cases hmark : character = 'e' ∨ character = 'E' <;> simp [hdigit, hmark]
  | mark =>
      rw [rest_mark_cons_iff, next?]
      by_cases hdigit : character.isDigit = true
      · have hsign : ¬ (character = '+' ∨ character = '-') := by
          rintro (rfl | rfl) <;> simp [hplus, hminus] at hdigit
        simp [hdigit, hsign]
      · by_cases hsign : character = '+' ∨ character = '-' <;> simp [hdigit, hsign]
  | markSign =>
      simp only [Rest, isDigits_cons_iff, next?]
      by_cases hdigit : character.isDigit = true <;> simp [hdigit]
  | exponent =>
      simp only [Rest, List.forall_mem_cons, next?]
      by_cases hdigit : character.isDigit = true <;> simp [hdigit]

theorem ne_lineBreak {stage next : NumberStage} (hnext : stage.next? character = some next) :
    character ≠ '\n' := by
  intro hbreak
  subst hbreak
  cases stage <;> cases hnext

end NumberStage

theorem IsNumeral.ne_nil {text : List Char} (hnumeral : IsNumeral text) : text ≠ [] := by
  intro hempty
  subst hempty
  obtain ⟨sign, whole, fraction, exponent, htext, -, hwhole, -⟩ := hnumeral
  obtain ⟨-, hbehind⟩ := List.append_eq_nil_iff.mp htext.symm
  obtain ⟨rfl, -⟩ := List.append_eq_nil_iff.mp hbehind
  cases hwhole

theorem isNumeral_cons_iff : IsNumeral (character :: rest) ↔
    (character = '-' ∧ NumberStage.sign.Rest rest) ∨
      NumberStage.sign.Rest (character :: rest) := by
  constructor
  · rintro ⟨sign, whole, fraction, exponent, htext, hsign, hbehind⟩
    rcases sign with - | ⟨first, sign⟩
    · exact .inr ⟨whole, fraction, exponent, htext, hbehind⟩
    · obtain ⟨rfl, rfl⟩ := List.cons.inj htext
      obtain ⟨rfl, rfl⟩ : character = '-' ∧ sign = [] := by simpa using hsign
      exact .inl ⟨rfl, whole, fraction, exponent, rfl, hbehind⟩
  · rintro (⟨rfl, whole, fraction, exponent, rfl, hbehind⟩ |
      ⟨whole, fraction, exponent, htext, hbehind⟩)
    · exact ⟨['-'], whole, fraction, exponent, rfl, by simp, hbehind⟩
    · exact ⟨[], whole, fraction, exponent, htext, by simp, hbehind⟩

end Dealias.Json
