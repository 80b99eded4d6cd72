import AstPromotion.Binary64.Basic

/-! # Reading binary64 numbers

A numeral is an optional sign and then either digits with an optional point and
an optional exponent, or the word `inf`, `infinity` or `nan` in any letter case.
Digits on either side of the point will do. Reading rounds once, exactly.
-/

namespace AstPromotion.Binary64

/-- The number written by decimal digits, most significant first. -/
def digitsValue (digits : List Char) : Nat :=
  digits.foldl (fun value digit => 10 * value + (digit.toNat - '0'.toNat)) 0

/-- A leading sign, as whether it is a minus, and what follows it. -/
def splitSign : List Char → Bool × List Char
  | '-' :: rest => (true, rest)
  | '+' :: rest => (false, rest)
  | rest => (false, rest)

/-- The exponent part of a numeral; an absent part is exponent zero. -/
def exponentPart? : List Char → Option Int
  | [] => some 0
  | mark :: rest =>
    let (negative, digits) := splitSign rest
    if (mark == 'e' || mark == 'E') && !digits.isEmpty && digits.all Char.isDigit then
      some (if negative then -(digitsValue digits : Int) else digitsValue digits)
    else none

/-- A numeral without sign: its digits, point left out, and the power of ten they are
multiples of. -/
def decimalParts? (text : List Char) : Option (List Char × Int) :=
  let whole := text.takeWhile Char.isDigit
  let (fraction, rest) := match text.dropWhile Char.isDigit with
    | '.' :: rest => (rest.takeWhile Char.isDigit, rest.dropWhile Char.isDigit)
    | rest => ([], rest)
  if whole.isEmpty && fraction.isEmpty then none
  else (exponentPart? rest).map fun exponent => (whole ++ fraction, exponent - fraction.length)

/-- The number nearest to `digits` times a power of ten. Beyond 10^309 that is infinity, below
10^-324 it is zero, so no power outside that range is ever computed. -/
def ofDecimal (negative : Bool) (digits : List Char) (power : Int) : Binary64 :=
  let significant := digits.dropWhile (· == '0')
  let top := (significant.length : Int) + power
  if significant.isEmpty || top ≤ -324 then .finite negative 0 minExponent
  else if 309 < top then .infinite negative
  else if 0 ≤ power then ofRatio negative (digitsValue significant * Nat.pow 10 power.toNat) 1
  else ofRatio negative (digitsValue significant) (Nat.pow 10 (-power).toNat)

/-- Reads a numeral; nothing may stand before or after it. -/
def ofNumeral? (text : String) : Option Binary64 :=
  let (negative, body) := splitSign text.toList
  match decimalParts? body with
  | some (digits, power) => some (ofDecimal negative digits power)
  | none =>
    let word := String.ofList (body.map Char.toLower)
    if word == "nan" then some .nan
    else if word == "inf" || word == "infinity" then some (.infinite negative)
    else none

end AstPromotion.Binary64
