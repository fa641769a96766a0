import Patchbay.Double.Basic

/-!
# The shortest decimal of a double

The reals that round to a finite double form an interval around it, closed if and only if the
significand is even. `shortest` looks for the first grid of one, two, up to seventeen decimal digits
on which one of the two neighbours of the double lies in that interval, and takes the nearer of two
such neighbours. Which of two equally near ones is taken is left to the caller.

`ofDecimal` reads a decimal back: the nearest double, ties to even.
-/

namespace Patchbay.Double

structure Decimal where
  coefficient : Nat
  exponent : Int
  deriving DecidableEq

inductive Tie
  | even
  | up
  deriving DecidableEq

def digitCount (n : Nat) : Nat :=
  (Nat.toDigits 10 n).length

/-- The power of ten `k` with `10 ^ (k - 1) ≤ a / b < 10 ^ k`, for positive `a` and `b`. -/
def pointPosition (a b : Nat) : Int :=
  if b ≤ a then digitCount (a / b) else 1 - digitCount ((b - 1) / a)

/-- The value of a finite double and the ends of its rounding interval, in quarters of a unit. -/
structure Interval where
  low : Nat
  centre : Nat
  high : Nat
  closed : Bool

def interval (d : Double) : Interval :=
  let step := 1 <<< d.scale
  let below := if d.significand = 1 <<< 52 ∧ 0 < d.scale then step else 2 * step
  { low := 4 * d.units - below
    centre := 4 * d.units
    high := 4 * d.units + 2 * step
    closed := d.significand % 2 == 0 }

def Interval.holds (i : Interval) (n a b : Nat) : Bool :=
  if i.closed then decide (i.low * a ≤ n * b ∧ n * b ≤ i.high * a)
  else decide (i.low * a < n * b ∧ n * b < i.high * a)

/-- Of the neighbours `n` and `n + 1` of the centre, the nearer one that lies in the interval. -/
def Interval.pick (i : Interval) (tie : Tie) (n a b : Nat) : Option Nat :=
  let below := i.centre * a - n * b
  let above := (n + 1) * b - i.centre * a
  match i.holds n a b, i.holds (n + 1) a b with
  | true, false => some n
  | false, true => some (n + 1)
  | false, false => none
  | true, true =>
    if below < above then some n
    else if above < below then some (n + 1)
    else if tie = .even ∧ n % 2 = 0 then some n
    else some (n + 1)

def Interval.onGrid (i : Interval) (tie : Tie) (point : Int) (count : Nat) : Option Decimal :=
  let exponent := point - count
  let a := Nat.pow 10 (-exponent).toNat
  let b := 4 * unit * Nat.pow 10 exponent.toNat
  (i.pick tie (i.centre * a / b) a b).map (⟨·, exponent⟩)

/-- The decimal with the fewest digits that reads back as the finite, positive magnitude of `d`. -/
def shortest (tie : Tie) (d : Double) : Decimal :=
  let i := d.interval
  let point := pointPosition i.centre (4 * unit)
  ((List.range 17).findSome? fun n => i.onGrid tie point (n + 1)).getD ⟨0, 0⟩

/-- The nearest double to a decimal. The two cuts only spare the arithmetic on exponents far outside
the range of doubles. -/
def ofDecimal (negative : Bool) (x : Decimal) : Double :=
  let point := digitCount x.coefficient + x.exponent
  if x.coefficient = 0 ∨ point < -330 then signed negative 0
  else if 310 < point then infinity negative
  else nearest negative (x.coefficient * Nat.pow 10 x.exponent.toNat) (Nat.pow 10 (-x.exponent).toNat)

end Patchbay.Double
