import AstPromotion.Binary64.Basic

/-! # Writing binary64 numbers

A number is written with the fewest digits that read back as it, never with an
exponent. Of two candidates of that length the nearer one is taken, and the
larger one of two equally near.
-/

namespace AstPromotion.Binary64

/-- How many decimal digits a number has. -/
def digitCount (number : Nat) : Nat :=
  (Nat.toDigits 10 number).length

/-- The numbers that round to a given one, as multiples of `1 / unit`: the least, the number
itself and the greatest. The ends belong to it when `closed`. -/
structure Interval where
  least : Nat
  value : Nat
  greatest : Nat
  unit : Nat
  closed : Bool

namespace Interval

/-- The interval around `mantissa * 2 ^ exponent`. Below a power of two the neighbours lie twice
as close as above. -/
def around (mantissa : Nat) (exponent : Int) : Interval :=
  let below := if 2 * mantissa = mantissaBound ∧ minExponent < exponent then 1 else 2
  let (factor, unit) :=
    if 2 ≤ exponent then (Nat.pow 2 (exponent - 2).toNat, 1)
    else (1, Nat.pow 2 (2 - exponent).toNat)
  { least := (4 * mantissa - below) * factor
    value := 4 * mantissa * factor
    greatest := (4 * mantissa + 2) * factor
    unit
    closed := mantissa % 2 = 0 }

/-- Both sides of a comparison with `digits * 10 ^ power`, brought to whole numbers: the
interval's points are multiplied by the first, `digits` by the second. -/
def factors (interval : Interval) (power : Int) : Nat × Nat :=
  if 0 ≤ power then (1, interval.unit * Nat.pow 10 power.toNat)
  else (Nat.pow 10 (-power).toNat, interval.unit)

/-- Whether `digits * 10 ^ power` lies in the interval. -/
def contains (interval : Interval) (digits : Nat) (power : Int) : Bool :=
  let (ours, theirs) := interval.factors power
  let point := digits * theirs
  if interval.closed then
    interval.least * ours ≤ point && point ≤ interval.greatest * ours
  else
    interval.least * ours < point && point < interval.greatest * ours

/-- The exponent of the least power of ten above the value. Below one it is counted on what lies
just under the inverse, because an exact power of ten is not above itself. -/
def magnitude (interval : Interval) : Int :=
  if interval.unit ≤ interval.value then digitCount (interval.value / interval.unit)
  else 1 - digitCount ((interval.unit - 1) / interval.value)

/-- The multiple of `10 ^ power` to write for the value, if one lies in the interval: the value's
neighbours on that grid are tried, and of two hits the nearer one is taken. -/
def pick? (interval : Interval) (power : Int) : Option Nat :=
  let (ours, theirs) := interval.factors power
  let exact := interval.value * ours
  let lower := exact / theirs
  match interval.contains lower power, interval.contains (lower + 1) power with
  | true, true =>
    if 2 * (exact - lower * theirs) < theirs then some lower else some (lower + 1)
  | true, false => some lower
  | false, true => some (lower + 1)
  | false, false => none

/-- The shortest decimal in the interval as digits and a power of ten; seventeen digits always
suffice. -/
def shortest (interval : Interval) : Nat × Int :=
  let found := (List.range 17).findSome? fun (fewer : Nat) =>
    let power : Int := interval.magnitude - (fewer + 1)
    (interval.pick? power).map fun digits => (digits, power)
  match found with
  | some (10, power) => (1, power + 1)
  | some found => found
  | none => (0, 0)

end Interval

/-- `digits * 10 ^ power` without an exponent: padded with zeros up to the point, or down from it. -/
def positional (digits : Nat) (power : Int) : String :=
  if 0 ≤ power then toString digits ++ String.ofList (List.replicate power.toNat '0')
  else
    let places := (-power).toNat
    let fraction := toString (digits % Nat.pow 10 places)
    toString (digits / Nat.pow 10 places) ++ "." ++
      String.ofList (List.replicate (places - fraction.length) '0') ++ fraction

/-- The text of a number. Zero keeps its sign; not-a-number has none. -/
def text : Binary64 → String
  | .nan => "NaN"
  | .infinite negative => if negative then "-inf" else "inf"
  | .finite negative mantissa exponent =>
    let size :=
      if mantissa = 0 then "0"
      else
        let (digits, power) := (Interval.around mantissa exponent).shortest
        positional digits power
    if negative then "-" ++ size else size

/-- The size of a finite number with three places after the point; a half goes to the even
neighbour. -/
def threePlaces (number : Binary64) : String :=
  let (numerator, denominator) := number.ratio
  let thousandths := roundHalfEven (numerator * 1000) denominator
  positional thousandths (-3)

end AstPromotion.Binary64
