/-!
# Double-precision numbers

A number is kept as its 64 bits: a sign, eleven bits of exponent and a fraction of 52 bits. The
magnitude of a finite number is a whole number of units of `2 ^ (-1074)`, so it is described here
by that whole number, and rounding is exact arithmetic on `Nat`.
-/
namespace ScriptBlocks

/-- A double-precision number, given by its bits. -/
structure Binary64 where
  bits : UInt64
  deriving DecidableEq, Repr, Inhabited

namespace Binary64

/-- The bits of the magnitude of an infinite number. -/
def infinityBits : Nat := 2047 * Nat.pow 2 52

/-- The number with this sign and these bits of magnitude. -/
def ofMagnitude (negative : Bool) (magnitude : Nat) : Binary64 :=
  ⟨UInt64.ofNat ((if negative then Nat.pow 2 63 else 0) + magnitude)⟩

def infinity (negative : Bool) : Binary64 :=
  ofMagnitude negative infinityBits

def nan (negative : Bool) : Binary64 :=
  ofMagnitude negative (infinityBits + Nat.pow 2 51)

def isNegative (x : Binary64) : Bool :=
  x.bits.toNat / Nat.pow 2 63 == 1

/-- The bits of a number without its sign. -/
def magnitude (x : Binary64) : Nat :=
  x.bits.toNat % Nat.pow 2 63

def isZero (x : Binary64) : Bool :=
  x.magnitude == 0

def isInfinite (x : Binary64) : Bool :=
  x.magnitude == infinityBits

def isNaN (x : Binary64) : Bool :=
  infinityBits < x.magnitude

/-- The power of two by which the significand of a finite number is scaled, counted from the
smallest one. -/
def scale (x : Binary64) : Nat :=
  x.magnitude / Nat.pow 2 52 - 1

/-- The significand of a finite number: its magnitude is `significand * 2 ^ scale` units. -/
def significand (x : Binary64) : Nat :=
  x.magnitude - x.scale * Nat.pow 2 52

/-- The quotient rounded to the nearest whole number, a half going to the even one. -/
def roundHalfEven (numerator denominator : Nat) : Nat :=
  let floor := numerator / denominator
  let twice := 2 * (numerator % denominator)
  if twice < denominator then floor
  else if denominator < twice then floor + 1
  else floor + floor % 2

/-- The bits of the magnitude nearest to a ratio, a half going to the even significand. A ratio
beyond the largest finite number becomes infinite. -/
def nearestMagnitude (numerator denominator : Nat) : Nat :=
  let units := numerator * Nat.pow 2 1074
  let shift := (units / denominator).log2 - 52
  min (shift * Nat.pow 2 52 + roundHalfEven units (denominator * Nat.pow 2 shift)) infinityBits

/-- The number nearest to `digits * 10 ^ exponent`. A decimal whose leading digit stands far
outside the range of the format is infinite or zero. -/
def ofDecimal (negative : Bool) (digits : Nat) (exponent : Int) : Binary64 :=
  let places : Int := (Nat.toDigits 10 digits).length + exponent
  let magnitude :=
    if digits = 0 then 0
    else if 310 < places then infinityBits
    else if places < -330 then 0
    else if 0 ≤ exponent then nearestMagnitude (digits * Nat.pow 10 exponent.toNat) 1
    else nearestMagnitude digits (Nat.pow 10 (-exponent).toNat)
  ofMagnitude negative magnitude

end Binary64
end ScriptBlocks
