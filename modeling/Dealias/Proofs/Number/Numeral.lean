import Dealias.Number.Numeral
import Dealias.Number.Rounding

/-!
# Digits that are read back

A number is read back from its decimal digits, with zeros in front or without them, and from the
front of a text in which something else comes behind it.
-/

namespace Dealias

variable {width number : Nat}

/-! ## Digits -/

theorem digits?_eq_some {text : List Char} (hnonempty : text ≠ [])
    (hdigits : ∀ digit ∈ text, digit.isDigit = true) :
    digits? text = some (numberOfDigits text) :=
  if_pos ⟨hnonempty, List.all_eq_true.mpr hdigits⟩

theorem isDigit_of_mem_toDigits :
    ∀ digit ∈ Nat.toDigits 10 number, digit.isDigit = true :=
  fun _ => Nat.isDigit_of_mem_toDigits (by decide) (by decide)

theorem digits?_toDigits (number : Nat) : digits? (Nat.toDigits 10 number) = some number := by
  rw [digits?_eq_some Nat.toDigits_ne_nil isDigit_of_mem_toDigits]
  exact congrArg some Nat.ofDigitChars_ten_toDigits

/-! ## Zeros in front -/

theorem toList_paddedDigits (width number : Nat) : (paddedDigits width number).toList =
    List.replicate (width - (Nat.toDigits 10 number).length) '0' ++ Nat.toDigits 10 number := by
  have hdigits : (toString number).toList = Nat.toDigits 10 number := Nat.toList_repr
  simp only [paddedDigits, String.toList_append, String.toList_ofList, hdigits,
    ← String.length_toList]

theorem length_paddedDigits (hwidth : 0 < width) (hnumber : number < Nat.pow 10 width) :
    (paddedDigits width number).toList.length = width := by
  have hlength : (Nat.toDigits 10 number).length ≤ width :=
    (Nat.length_toDigits_le_iff (by decide) hwidth).mpr hnumber
  rw [toList_paddedDigits, List.length_append, List.length_replicate]
  omega

theorem digits?_paddedDigits (width number : Nat) :
    digits? (paddedDigits width number).toList = some number := by
  rw [toList_paddedDigits, digits?_eq_some]
  · refine congrArg some ?_
    change Nat.ofDigitChars 10 _ 0 = number
    rw [Nat.ofDigitChars_append, Nat.ofDigitChars_replicate_zero, Nat.mul_zero]
    exact Nat.ofDigitChars_ten_toDigits
  · exact List.append_ne_nil_of_right_ne_nil _ Nat.toDigits_ne_nil
  · intro digit hdigit
    rcases List.mem_append.mp hdigit with hzero | hdigit
    · rw [List.eq_of_mem_replicate hzero]
      rfl
    · exact isDigit_of_mem_toDigits digit hdigit

/-! ## The number at the front of a text -/

/-- The number that a text begins with, and what comes behind it. -/
def leadingNumber? (text : List Char) : Option (Nat × List Char) :=
  (digits? (text.takeWhile Char.isDigit)).map fun number => (number, text.dropWhile Char.isDigit)

theorem leadingNumber?_append (number : Nat) {mark : Char} (hmark : mark.isDigit = false)
    (rest : List Char) :
    leadingNumber? ((toString number).toList ++ mark :: rest) = some (number, mark :: rest) := by
  have hdigits : (toString number).toList = Nat.toDigits 10 number := Nat.toList_repr
  rw [hdigits, leadingNumber?, List.takeWhile_append_of_pos isDigit_of_mem_toDigits,
    List.dropWhile_append_of_pos isDigit_of_mem_toDigits,
    List.takeWhile_cons_of_neg (Bool.eq_false_iff.mp hmark),
    List.dropWhile_cons_of_neg (Bool.eq_false_iff.mp hmark), List.append_nil, digits?_toDigits]
  rfl

end Dealias
