/-!
# Rounding

Quotients are rounded to the nearest whole number, a tie going to the even one.  On top of that
stand the two roundings that numbers in the output pass through: to the nearest binary number with
53 significant bits, and to a fixed count of decimal places.
-/

namespace Dealias

/-- The whole number nearest to `numerator / denominator`, a tie going to the even one. -/
def roundQuotient (numerator denominator : Nat) : Nat :=
  let whole := numerator / denominator
  let rest := 2 * (numerator % denominator)
  if rest < denominator then whole
  else if denominator < rest then whole + 1
  else whole + whole % 2

/-- The power of two that scales `numerator / denominator` to a whole part of 53 bits. -/
def scaleExponent (numerator denominator : Nat) : Int :=
  let guess : Int := 52 - ((numerator.log2 : Int) - (denominator.log2 : Int))
  let scaled := if 0 ≤ guess then numerator * Nat.pow 2 guess.toNat / denominator
    else numerator / (denominator * Nat.pow 2 (-guess).toNat)
  if scaled < Nat.pow 2 52 then guess + 1 else guess

/-- The number with 53 significant bits that is nearest to a positive number, and `0` for `0`. -/
def roundToDouble (value : Rat) : Rat :=
  if value = 0 then 0
  else
    let numerator := value.num.toNat
    let exponent := scaleExponent numerator value.den
    if 0 ≤ exponent then
      let unit := Nat.pow 2 exponent.toNat
      mkRat (roundQuotient (numerator * unit) value.den) unit
    else
      let unit := Nat.pow 2 (-exponent).toNat
      mkRat (roundQuotient numerator (value.den * unit) * unit) 1

/-- Decimal digits, with zeros in front up to a width. -/
def paddedDigits (width number : Nat) : String :=
  let digits := toString number
  String.ofList (List.replicate (width - digits.length) '0') ++ digits

/-- A number that is not negative with a fixed count of decimal places. -/
def toFixed (places : Nat) (value : Rat) : String :=
  let scaled := roundQuotient (value.num.toNat * Nat.pow 10 places) value.den
  if places = 0 then toString scaled
  else
    toString (scaled / Nat.pow 10 places) ++ "." ++
      paddedDigits places (scaled % Nat.pow 10 places)

end Dealias
