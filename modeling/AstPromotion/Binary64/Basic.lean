/-! # Binary floating-point numbers of 64 bits

A finite number is kept as sign, mantissa and binary exponent, so that every
statement about it is one about whole numbers. All rounding is to the nearest
number, a tie going to the even mantissa.
-/

namespace AstPromotion

/-- The quotient rounded to the nearest whole number, a half to the even neighbour. -/
def roundHalfEven (dividend divisor : Nat) : Nat :=
  let floor := dividend / divisor
  let twice := 2 * (dividend % divisor)
  if twice < divisor then floor
  else if divisor < twice then floor + 1
  else if floor % 2 = 0 then floor
  else floor + 1

/-- A binary64 number: `finite` holds `mantissa * 2 ^ exponent` under its sign. -/
inductive Binary64
  | nan
  | infinite (negative : Bool)
  | finite (negative : Bool) (mantissa : Nat) (exponent : Int)
deriving DecidableEq, Repr

namespace Binary64

/-- The exponent of the smallest numbers. -/
def minExponent : Int := -1074

/-- The exponent of the largest finite numbers. -/
def maxExponent : Int := 971

/-- Mantissas stay below this bound. -/
def mantissaBound : Nat := Nat.pow 2 53

/-- `numerator / denominator / 2 ^ exponent` as a pair of whole numbers. -/
def scaled (numerator denominator : Nat) (exponent : Int) : Nat × Nat :=
  if 0 ≤ exponent then (numerator, denominator * Nat.pow 2 exponent.toNat)
  else (numerator * Nat.pow 2 (-exponent).toNat, denominator)

/-- The exponent at which the quotient has a mantissa of full width, or the least exponent
if the quotient is too small for that. -/
def exponentFor (numerator denominator : Nat) : Int :=
  let guess : Int := (numerator.log2 : Int) - denominator.log2 - 52
  let (dividend, divisor) := scaled numerator denominator guess
  let full := if 2 * dividend < mantissaBound * divisor then guess - 1 else guess
  max full minExponent

/-- The number nearest to the quotient. -/
def ofRatio (negative : Bool) (numerator denominator : Nat) : Binary64 :=
  if numerator = 0 then .finite negative 0 minExponent
  else
    let exponent := exponentFor numerator denominator
    let (dividend, divisor) := scaled numerator denominator exponent
    let mantissa := roundHalfEven dividend divisor
    let (mantissa, exponent) :=
      if mantissa = mantissaBound then (mantissaBound / 2, exponent + 1) else (mantissa, exponent)
    if maxExponent < exponent then .infinite negative else .finite negative mantissa exponent

/-- The size of a finite number as a pair of whole numbers, its quotient. -/
def ratio : Binary64 → Nat × Nat
  | .finite _ mantissa exponent =>
    if 0 ≤ exponent then (mantissa * Nat.pow 2 exponent.toNat, 1)
    else (mantissa, Nat.pow 2 (-exponent).toNat)
  | _ => (0, 1)

/-- The rounded sum of the sizes of two finite numbers. -/
def addSize (first second : Binary64) : Binary64 :=
  let (numerator, denominator) := first.ratio
  let (numerator', denominator') := second.ratio
  ofRatio false (numerator * denominator' + numerator' * denominator) (denominator * denominator')

/-- The rounded product of a finite number's size with a whole number. -/
def scaleSize (number : Binary64) (factor : Nat) : Binary64 :=
  let (numerator, denominator) := number.ratio
  ofRatio false (numerator * factor) denominator

end Binary64

end AstPromotion
