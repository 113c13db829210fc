/-!
# Numerals

Reading decimal digits into numbers, and the numerals that settings accept.
-/

namespace Dealias

/-- The largest natural number that fits 64 bits. -/
def maxNatural : Nat := 18446744073709551615

/-- The number of negative integers of 64 bits. -/
def integerBound : Nat := 9223372036854775808

/-- The number that decimal digits stand for; the digits are taken for granted. -/
def numberOfDigits (digits : List Char) : Nat :=
  digits.foldl (fun number digit => 10 * number + (digit.toNat - '0'.toNat)) 0

/-- The number of a nonempty run of decimal digits. -/
def digits? (text : List Char) : Option Nat :=
  if text ≠ [] ∧ text.all Char.isDigit then some (numberOfDigits text) else none

/-- The value of a hexadecimal digit. -/
def hexDigit? (character : Char) : Option Nat :=
  if character.isDigit then some (character.toNat - '0'.toNat)
  else if 'a' ≤ character ∧ character ≤ 'f' then some (character.toNat - 'a'.toNat + 10)
  else if 'A' ≤ character ∧ character ≤ 'F' then some (character.toNat - 'A'.toNat + 10)
  else none

/-- A natural number of 64 bits, possibly with a plus sign in front. -/
def natural? (text : List Char) : Option Nat :=
  let unsigned := match text with
    | '+' :: rest => rest
    | _ => text
  (digits? unsigned).filter (· ≤ maxNatural)

/-- An integer of 64 bits, possibly with a sign in front. -/
def integer? (text : List Char) : Option Int :=
  match text with
  | '-' :: rest => ((digits? rest).filter (· ≤ integerBound)).map fun number => -(number : Int)
  | '+' :: rest => ((digits? rest).filter (· < integerBound)).map Int.ofNat
  | _ => ((digits? text).filter (· < integerBound)).map Int.ofNat

/-- Whether a text without its sign is a decimal with digits on at least one side of an optional
point and, optionally, an exponent. -/
def isUnsignedDecimal (text : List Char) : Bool :=
  let whole := text.takeWhile Char.isDigit
  let afterWhole := text.dropWhile Char.isDigit
  let (fraction, afterFraction) := match afterWhole with
    | '.' :: rest => (rest.takeWhile Char.isDigit, rest.dropWhile Char.isDigit)
    | _ => ([], afterWhole)
  (whole ≠ [] || fraction ≠ []) &&
    match afterFraction with
    | [] => true
    | mark :: '+' :: rest => isExponentMark mark && (digits? rest).isSome
    | mark :: '-' :: rest => isExponentMark mark && (digits? rest).isSome
    | mark :: rest => isExponentMark mark && (digits? rest).isSome
where
  /-- An exponent starts with `e` in either case. -/
  isExponentMark (character : Char) : Bool := character == 'e' || character == 'E'

/-- Whether a text is a decimal, possibly with a sign in front. -/
def isDecimal (text : List Char) : Bool :=
  match text with
  | '+' :: rest => isUnsignedDecimal rest
  | '-' :: rest => isUnsignedDecimal rest
  | _ => isUnsignedDecimal text

end Dealias
