import ScriptBlocks.Number.Binary64

/-!
# The shortest decimal of a number

A number is written with the fewest digits that still read back as the same number; among those
the nearest decimal is taken, and of two equally near ones the larger. The text never has an
exponent.

A unit of `2 ^ (-1074)` is `5 ^ 1074` times `10 ^ (-1074)`, so every finite number is a whole
number of these decimal units too, and a shorter decimal is a multiple of a higher power of ten
inside the interval of values that round to the number.
-/
namespace ScriptBlocks.Binary64

/-- A nonnegative decimal `digits * 10 ^ exponent`. -/
structure Decimal where
  digits : Nat
  exponent : Int
  deriving DecidableEq, Repr

/-- The values that round to a number, in quarters of a decimal unit: its ends, and whether they
belong to it. -/
structure Interval where
  low : Nat
  high : Nat
  closed : Bool

def Interval.contains (interval : Interval) (quarters : Nat) : Bool :=
  if interval.closed then interval.low ≤ quarters && quarters ≤ interval.high
  else interval.low < quarters && quarters < interval.high

/-- The magnitude of a finite number in decimal units. -/
def decimalUnits (x : Binary64) : Nat :=
  x.significand * Nat.pow 2 x.scale * Nat.pow 5 1074

/-- The interval reaches half-way to the neighbours. Below a power of two the neighbour is nearer,
and the ends belong to the interval when the significand is even. -/
def interval (x : Binary64) : Interval :=
  let step := Nat.pow 2 x.scale * Nat.pow 5 1074
  { low := 4 * x.decimalUnits - (if x.significand = Nat.pow 2 52 then 1 else 2) * step
    high := 4 * x.decimalUnits + 2 * step
    closed := x.significand % 2 == 0 }

/-- The multiple of `10 ^ place` in the interval that is nearest to the number, if there is one. -/
def multipleAt? (x : Binary64) (place : Nat) : Option Nat :=
  let units := x.decimalUnits
  let below := units / Nat.pow 10 place
  let low := x.interval.contains (4 * (below * Nat.pow 10 place))
  let high := x.interval.contains (4 * ((below + 1) * Nat.pow 10 place))
  if low && (!high || 2 * (units % Nat.pow 10 place) < Nat.pow 10 place) then some below
  else if high then some (below + 1)
  else none

/-- The shortest decimal of a finite nonzero magnitude. Seventeen digits always suffice. -/
def shortest (x : Binary64) : Decimal :=
  let width := (Nat.toDigits 10 x.decimalUnits).length
  let found := (List.range 18).findSome? fun count =>
    (x.multipleAt? (width - count)).map fun digits =>
      { digits, exponent := ((width - count : Nat) : Int) - 1074 }
  found.getD { digits := x.decimalUnits, exponent := -1074 }

/-- A decimal in positional notation. -/
def Decimal.toChars (d : Decimal) : List Char :=
  let digits := Nat.toDigits 10 d.digits
  if 0 ≤ d.exponent then digits ++ List.replicate d.exponent.toNat '0'
  else
    let places := (-d.exponent).toNat
    let padded := List.replicate (places + 1 - digits.length) '0' ++ digits
    padded.take (padded.length - places) ++ '.' :: padded.drop (padded.length - places)

/-- The text of a number. Zero has no sign. -/
def toText (x : Binary64) : String :=
  if x.isNaN then "NaN"
  else if x.isZero then "0"
  else
    let sign := if x.isNegative then ['-'] else []
    let body := if x.isInfinite then "inf".toList else x.shortest.toChars
    String.ofList (sign ++ body)

end ScriptBlocks.Binary64
