/-!
# Percentages

A share is computed in double precision, first the quotient and then its
hundredfold, each rounded to 53 binary digits.  The percentage is written with
two places, rounded from the exact value of the result; a half goes to the even
neighbour in all three roundings.
-/

namespace Recognizer

/-- The quotient rounded to the nearest number, a half to the even one. -/
def roundQuotient (numerator denominator : Nat) : Nat :=
  let quotient := numerator / denominator
  let double := 2 * (numerator % denominator)
  if double < denominator then quotient
  else if denominator < double then quotient + 1
  else quotient + quotient % 2

/-- The number `mantissa / 2 ^ scale`. -/
structure BinaryFraction where
  mantissa : Nat
  scale : Nat
deriving DecidableEq

namespace BinaryFraction

/-- The scale at which the quotient of two numbers has 53 binary digits in
front of the point. -/
def scaleOf (numerator denominator : Nat) : Nat :=
  let scale := 53 + denominator.log2 - numerator.log2
  if Nat.pow 2 53 * denominator ≤ numerator * Nat.pow 2 scale then scale - 1
  else scale

/-- The quotient of two numbers in double precision. -/
def ofQuotient (numerator denominator : Nat) : BinaryFraction :=
  let scale := scaleOf numerator denominator
  ⟨roundQuotient (numerator * Nat.pow 2 scale) denominator, scale⟩

/-- A multiple in double precision. -/
def times (fraction : BinaryFraction) (factor : Nat) : BinaryFraction :=
  ofQuotient (fraction.mantissa * factor) (Nat.pow 2 fraction.scale)

/-- The hundredths of a fraction, rounded. -/
def hundredths (fraction : BinaryFraction) : Nat :=
  roundQuotient (fraction.mantissa * 100) (Nat.pow 2 fraction.scale)

end BinaryFraction

/-- Hundredths as a decimal number with two places. -/
def writeHundredths (hundredths : Nat) : String :=
  toString (hundredths / 100) ++ "."
    ++ toString (hundredths / 10 % 10) ++ toString (hundredths % 10)

/-- The percentage of a part of a whole. -/
def percentage (part whole : Nat) : String :=
  writeHundredths ((BinaryFraction.ofQuotient part whole).times 100).hundredths

theorem roundQuotient_mul (quotient : Nat) {denominator : Nat}
    (positive : 0 < denominator) :
    roundQuotient (quotient * denominator) denominator = quotient := by
  simp [roundQuotient, Nat.mul_div_cancel _ positive, positive]

end Recognizer
