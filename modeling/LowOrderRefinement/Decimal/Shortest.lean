/-! The shortest decimal digits that identify a double-precision number. A finite
number stands for the interval of reals that round to it; among the decimal
numbers in this interval the one with the fewest digits is written, of several
the one nearest to the number itself, and of two equally near ones the larger.
All comparisons are between exact fractions of natural numbers. -/

namespace LowOrderRefinement.Decimal

-- powers have one meaning, whatever is imported
attribute [local instance (1100)] instPowNat

/-- A positive number as a fraction, with the ends of the interval of reals that round to it over
the same denominator. -/
structure Rounding where
  low : Nat
  exact : Nat
  high : Nat
  denominator : Nat
  closed : Bool

/-- The interval of a significand and a binary exponent. The gap below a power of two is half of
the gap above it, except at the smallest exponent. -/
def Rounding.of (significand : Nat) (exponent : Int) : Rounding :=
  let below := if significand = 2 ^ (52 : Nat) ∧ -1074 < exponent then 1 else 2
  let scale := 2 ^ exponent.toNat
  { low := (4 * significand - below) * scale
    exact := 4 * significand * scale
    high := (4 * significand + 2) * scale
    denominator := 4 * 2 ^ (-exponent).toNat
    closed := significand % 2 == 0 }

def Rounding.inUnits (r : Rounding) (power : Int) : Rounding :=
  let up := 10 ^ (-power).toNat
  { r with
    low := r.low * up, exact := r.exact * up, high := r.high * up
    denominator := r.denominator * 10 ^ power.toNat }

def Rounding.contains (r : Rounding) (n : Nat) : Bool :=
  let scaled := n * r.denominator
  if r.closed then r.low ≤ scaled && scaled ≤ r.high
  else r.low < scaled && scaled < r.high

/-- The whole number of units that rounds to the number and is nearest to it, if there is one. -/
def Rounding.nearest? (r : Rounding) : Option Nat :=
  let down := r.exact / r.denominator
  let up := down + 1
  match r.contains down, r.contains up with
  | true, true =>
    if r.exact - down * r.denominator < up * r.denominator - r.exact then some down else some up
  | true, false => some down
  | false, true => some up
  | false, false => none

/-- The largest power of ten that is at most the number, given a lower bound close to it. -/
def Rounding.magnitude (r : Rounding) (bound : Int) : Int :=
  ([1, 2, 3].map fun (step : Nat) => bound + step).foldl (fun best power =>
    let s := r.inUnits power
    if s.denominator ≤ s.exact then power else best) bound

/-- The fewest digits, as a number, and the power of ten of the last of them. -/
def shortest (significand : Nat) (exponent : Int) : Nat × Int :=
  let r := Rounding.of significand exponent
  let bound := (significand.log2 + exponent) * 30103 / 100000 - 1
  let magnitude := r.magnitude bound
  let hit := (List.range 17).findSome? fun (digits : Nat) =>
    let power := magnitude - digits
    ((r.inUnits power).nearest?).map fun n => (n, power)
  hit.getD (0, 0)

def trimZeros (digits : List Char) : List Char :=
  (digits.reverse.dropWhile (· == '0')).reverse

/-- A positive number in scientific notation: one digit, a point and the others if there are any,
and the power of ten of the first digit. -/
def scientific (digits : Nat) (power : Int) : String :=
  let all := (toString digits).toList
  let exponent := power + (all.length - 1 : Nat)
  let mantissa := match trimZeros all with
    | [] => "0"
    | [d] => String.ofList [d]
    | d :: ds => String.ofList (d :: '.' :: ds)
  mantissa ++ "e" ++ toString exponent

def fields (x : Float) : Nat × Nat :=
  let bits : Nat := x.toBits.toNat
  (bits / 2 ^ (52 : Nat) % 2 ^ (11 : Nat), bits % 2 ^ (52 : Nat))

/-- Whether the sign of a number is set, which it also is for a negative zero. -/
def isNegative (x : Float) : Bool := x.toBits.toNat / 2 ^ (63 : Nat) == 1

def digits (x : Float) : Nat × Int :=
  let (exponent, fraction) := fields x
  if exponent = 0 then
    if fraction = 0 then (0, 0) else shortest fraction (-1074)
  else shortest (2 ^ (52 : Nat) + fraction) ((exponent : Int) - 1075)

/-- A double-precision number in scientific notation with the fewest digits. -/
def ofFloat (x : Float) : String :=
  let (exponent, fraction) := fields x
  let sign := if isNegative x then "-" else ""
  if exponent = 2 ^ (11 : Nat) - 1 then
    if fraction = 0 then sign ++ "inf" else "NaN"
  else
    let (n, power) := digits x
    sign ++ scientific n power

end LowOrderRefinement.Decimal
