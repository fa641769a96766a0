/-!
# Doubles as bit patterns

A double is kept as its 64 bits, so that the sign of a zero and the payload of a NaN are part of it.
Every finite double is a whole number of units of `2 ^ (-1074)`: with significand `m` and scale `e`
it is `m * 2 ^ e` units, and its bits without the sign are `e * 2 ^ 52 + m`. All arithmetic is done
on these naturals. `nearest` rounds a quotient to the nearest double, ties to the even significand,
and `roundAway` rounds a double to the nearest integer, ties away from zero.
-/

namespace Patchbay

structure Double where
  bits : UInt64
  deriving DecidableEq, Inhabited

namespace Double

/-- The number of units of `2 ^ (-1074)` in one. -/
def unit : Nat := 1 <<< 1074

/-- The magnitude bits of an infinity; greater ones are NaNs. -/
def infinityBits : Nat := 2047 <<< 52

def signed (negative : Bool) (magnitude : Nat) : Double :=
  ⟨UInt64.ofNat (if negative then (1 <<< 63) + magnitude else magnitude)⟩

def zero : Double := signed false 0

def one : Double := signed false (1023 <<< 52)

def nan (negative : Bool) : Double := signed negative (infinityBits + (1 <<< 51))

def infinity (negative : Bool) : Double := signed negative infinityBits

def negative (d : Double) : Bool :=
  decide (1 <<< 63 ≤ d.bits.toNat)

def magnitude (d : Double) : Nat :=
  d.bits.toNat % (1 <<< 63)

def isNaN (d : Double) : Bool :=
  decide (infinityBits < d.magnitude)

def isFinite (d : Double) : Bool :=
  decide (d.magnitude < infinityBits)

def isZero (d : Double) : Bool :=
  d.magnitude == 0

/-- Numeric equality: the two zeros agree and a NaN agrees with nothing. -/
def same (a b : Double) : Bool :=
  (a.bits == b.bits && !a.isNaN) || (a.isZero && b.isZero)

def significand (d : Double) : Nat :=
  if d.magnitude < 1 <<< 52 then d.magnitude else d.magnitude % (1 <<< 52) + (1 <<< 52)

def scale (d : Double) : Nat :=
  (d.magnitude >>> 52) - 1

/-- The magnitude of a finite double in units of `2 ^ (-1074)`. -/
def units (d : Double) : Nat :=
  d.significand <<< d.scale

/-- The quotient rounded to the nearest natural, ties to the even one. -/
def divEven (a b : Nat) : Nat :=
  if 2 * (a % b) < b ∨ (2 * (a % b) = b ∧ a / b % 2 = 0) then a / b else a / b + 1

/-- The magnitude bits of the double nearest to `a / b`, ties to the even significand. Whatever is
half a unit beyond the last finite double is an infinity. -/
def nearestBits (a b : Nat) : Nat :=
  let e := Nat.log2 (a * unit / b) - 52
  min ((e <<< 52) + divEven (a * unit) (b <<< e)) infinityBits

def nearest (negative : Bool) (a b : Nat) : Double :=
  signed negative (nearestBits a b)

def ofInt (n : Int) : Double :=
  nearest (decide (n < 0)) n.natAbs 1

/-- The nearest integer of a finite double, ties away from zero. -/
def roundAway (d : Double) : Option Int :=
  if d.isFinite then
    let n : Int := ((2 * d.units + unit) / (2 * unit) : Nat)
    some (if d.negative then -n else n)
  else
    none

def toInt64? (d : Double) : Option Int64 :=
  match d.roundAway with
  | some n =>
    if Int64.minValue.toInt ≤ n ∧ n ≤ Int64.maxValue.toInt then some (Int64.ofInt n) else none
  | none => none

end Double

end Patchbay
