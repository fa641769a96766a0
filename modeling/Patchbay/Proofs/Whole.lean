import Patchbay.Proofs.Monotone
import Patchbay.Value.Convert

/-!
# Doubles as whole numbers

The bits of a double that is finite stand for a rational number. The integer taken for it is the nearest
one, the further from zero of two that are equally near. If that is not an integer of 64 bits the double is
refused: none is saturated or wrapped, since the range is checked after rounding and both are exact.
-/

namespace Patchbay

/-- The integer is nearest to the number, and of two that are equally near the further from zero. -/
structure NearestAway (x : ℚ) (n : Int) : Prop where
  near : |x - n| ≤ 1 / 2
  tie : |x - n| = 1 / 2 → |x| < |(n : ℚ)|

namespace NearestAway
variable {x : ℚ} {n m : Int}

theorem neg (h : NearestAway x n) : NearestAway (-x) (-n) := by
  have hdistance : |-x - ((-n : Int) : ℚ)| = |x - n| := by
    rw [Int.cast_neg, ← abs_neg]
    congr 1
    ring
  refine ⟨hdistance ▸ h.near, fun htie => ?_⟩
  rw [Int.cast_neg, abs_neg, abs_neg]
  exact h.tie (hdistance ▸ htie)

/-- Two integers that are nearest to one number are half of one away from it, on either side; only the
further from zero is the nearest then. -/
theorem le (h : NearestAway x n) (h' : NearestAway x m) : n ≤ m := by
  by_contra hlt
  have hstep : (m : ℚ) + 1 ≤ n := by exact_mod_cast Int.lt_iff_add_one_le.mp (not_le.mp hlt)
  obtain ⟨hlow, -⟩ := abs_le.mp h.near
  obtain ⟨-, hhigh⟩ := abs_le.mp h'.near
  have hx : x = m + 1 / 2 := by linarith
  have hn : (n : ℚ) = m + 1 := by linarith
  have haway := h.tie (by rw [hx, hn, abs_of_neg] <;> norm_num)
  have haway' := h'.tie (by rw [hx, abs_of_pos] <;> norm_num)
  rcases le_or_gt 0 m with hm | hm
  · have hm : (0 : ℚ) ≤ m := by exact_mod_cast hm
    rw [abs_of_nonneg hm, abs_of_nonneg (by linarith)] at haway'
    linarith
  · have hm : (m : ℚ) + 1 ≤ 0 := by exact_mod_cast hm
    rw [hn, abs_of_nonpos hm, abs_of_nonpos (by linarith)] at haway
    linarith

theorem eq (h : NearestAway x n) (h' : NearestAway x m) : n = m :=
  le_antisymm (h.le h') (h'.le h)

end NearestAway

namespace Double

def exponentBits (d : Double) : Nat := d.bits.toNat / 2 ^ 52 % 2 ^ 11

def fractionBits (d : Double) : Nat := d.bits.toNat % 2 ^ 52

/-- The size of the number that the bits stand for: a fraction of the least power of two if there is no
exponent, and else a power of two with a fraction of it added. -/
def size (d : Double) : ℚ :=
  if d.exponentBits = 0 then d.fractionBits / 2 ^ 52 * 2 ^ (-1022 : ℤ)
  else (1 + d.fractionBits / 2 ^ 52) * 2 ^ ((d.exponentBits : ℤ) - 1023)

/-- The number that the bits stand for. With all bits of the exponent set they stand for an infinity or
for none. -/
def value? (d : Double) : Option ℚ :=
  if d.exponentBits = 2047 then none
  else some (if d.bits.toNat / 2 ^ 63 = 1 then -d.size else d.size)

section Parts
variable (d : Double)

theorem magnitude_parts : d.magnitude = 2 ^ 52 * d.exponentBits + d.fractionBits := by
  simp only [magnitude, exponentBits, fractionBits, Nat.shiftLeft_eq]
  omega

theorem fractionBits_lt : d.fractionBits < 2 ^ 52 := Nat.mod_lt _ (Nat.two_pow_pos 52)

theorem isFinite_iff_exponentBits : d.isFinite = true ↔ d.exponentBits ≠ 2047 := by
  have hlt : d.exponentBits < 2 ^ 11 := Nat.mod_lt _ (Nat.two_pow_pos 11)
  have hfraction := d.fractionBits_lt
  simp only [isFinite, infinityBits, magnitude_parts, Nat.shiftLeft_eq, decide_eq_true_eq]
  omega

theorem negative_eq : d.negative = decide (d.bits.toNat / 2 ^ 63 = 1) := by
  have hbits : d.bits.toNat < 2 ^ 64 := d.bits.toNat_lt
  simp only [negative, Nat.shiftLeft_eq]
  congr 1
  rw [eq_iff_iff]
  omega

theorem significand_eq : d.significand = d.fractionBits + if d.exponentBits = 0 then 0 else 2 ^ 52 := by
  have hfraction := d.fractionBits_lt
  simp only [significand, magnitude_parts, Nat.shiftLeft_eq]
  split_ifs <;> omega

theorem scale_eq : d.scale = d.exponentBits - 1 := by
  have hfraction := d.fractionBits_lt
  simp only [scale, magnitude_parts, Nat.shiftRight_eq_div_pow]
  omega

theorem pow_div_unit (k : Nat) : (2 : ℚ) ^ k / unit = 2 ^ ((k : ℤ) - 1074) := by
  obtain ⟨e, he, hunit⟩ := exists_unit_eq
  rw [hunit, Nat.cast_pow, Nat.cast_ofNat, show (1074 : ℤ) = e by omega, zpow_sub₀ two_ne_zero,
    zpow_natCast, zpow_natCast]

/-- The size in units is what the bits say it is. -/
theorem units_div_unit : (d.units : ℚ) / unit = d.size := by
  rw [units_eq, Nat.cast_mul, Nat.cast_pow, Nat.cast_ofNat, mul_div_assoc, pow_div_unit,
    significand_eq, scale_eq, size]
  split
  · rename_i hzero
    rw [hzero, show ((0 - 1 : Nat) : ℤ) - 1074 = -1022 - (52 : ℕ) by norm_num, zpow_sub₀ two_ne_zero,
      zpow_natCast, Nat.add_zero]
    generalize (2 : ℚ) ^ (-1022 : ℤ) = power
    ring
  · rename_i hpos
    rw [show ((d.exponentBits - 1 : Nat) : ℤ) - 1074 = (d.exponentBits - 1023) - (52 : ℕ) by omega,
      zpow_sub₀ two_ne_zero, zpow_natCast]
    generalize (2 : ℚ) ^ ((d.exponentBits : ℤ) - 1023) = power
    push_cast
    ring

theorem value?_eq :
    d.value? = if d.isFinite then some (if d.negative then -d.size else d.size) else none := by
  simp only [value?, negative_eq, decide_eq_true_eq]
  split
  · rename_i hexponent
    rw [if_neg fun h => d.isFinite_iff_exponentBits.mp h hexponent]
  · rename_i hexponent
    rw [if_pos (d.isFinite_iff_exponentBits.mpr hexponent)]

theorem nearestAway_roundedMagnitude : NearestAway d.size d.roundedMagnitude := by
  have hunit := unit_pos
  have hpos : (0 : ℚ) < unit := Nat.cast_pos.mpr hunit
  have hnonneg : 0 ≤ d.size := units_div_unit d ▸ div_nonneg d.units.cast_nonneg hpos.le
  have hlow : d.roundedMagnitude * (2 * unit) ≤ 2 * d.units + unit := Nat.div_mul_le_self ..
  have hhigh : 2 * d.units + unit < (d.roundedMagnitude + 1) * (2 * unit) :=
    (Nat.div_lt_iff_lt_mul (by omega)).mp (Nat.lt_succ_self _)
  generalize d.roundedMagnitude = n at hlow hhigh
  have hle : (n : ℚ) - 1 / 2 ≤ d.size := by
    have hcast : (n : ℚ) * (2 * unit) ≤ 2 * d.units + unit := by exact_mod_cast hlow
    rw [← units_div_unit, le_div_iff₀ hpos]
    linarith
  have hlt : d.size < n + 1 / 2 := by
    have hcast : 2 * (d.units : ℚ) + unit < (n + 1) * (2 * unit) := by exact_mod_cast hhigh
    rw [← units_div_unit, div_lt_iff₀ hpos]
    linarith
  constructor
  · rw [Int.cast_natCast, abs_le]
    constructor <;> linarith
  · rw [Int.cast_natCast]
    intro htie
    have hbelow : d.size = n - 1 / 2 := by
      rcases (abs_eq (by norm_num)).mp htie with h | h <;> linarith
    rw [abs_of_nonneg hnonneg, abs_of_nonneg n.cast_nonneg, hbelow]
    linarith

/-- Rounding is exact: it gives an integer if and only if the double stands for a number to which this
integer is the nearest. -/
theorem roundAway_eq_some_iff {n : Int} :
    d.roundAway = some n ↔ ∃ x, d.value? = some x ∧ NearestAway x n := by
  rw [roundAway_eq, value?_eq]
  cases d.isFinite with
  | false => simp
  | true =>
    have hnearest : NearestAway (if d.negative then -d.size else d.size)
        (if d.negative then -(d.roundedMagnitude : Int) else d.roundedMagnitude) := by
      split
      · exact d.nearestAway_roundedMagnitude.neg
      · exact d.nearestAway_roundedMagnitude
    simp only [if_true, Option.some.injEq, exists_eq_left']
    exact ⟨fun h => h ▸ hnearest, fun h => hnearest.eq h⟩

theorem toInt64?_eq_some_iff {n : Int} :
    d.toInt64?.map Int64.toInt = some n ↔ d.roundAway = some n ∧ -(2 ^ 63) ≤ n ∧ n < 2 ^ 63 := by
  have hmin : Int64.minValue.toInt = -(2 ^ 63) := rfl
  have hmax : Int64.maxValue.toInt = 2 ^ 63 - 1 := rfl
  simp only [toInt64?, hmin, hmax]
  cases d.roundAway with
  | none => simp
  | some m =>
    simp only [Option.some.injEq]
    split
    · rename_i hrange
      rw [Option.map_some, Option.some.injEq, Int64.toInt_ofInt_of_le hrange.1 (by omega)]
      exact ⟨fun h => ⟨h, by omega⟩, fun h => h.1⟩
    · rename_i hrange
      refine ⟨nofun, fun ⟨h, hn⟩ => absurd hn ?_⟩
      omega

end Parts

end Double

namespace Value

/-- A double is read as an integer if and only if it stands for a number that has this integer for its
nearest, a half away from zero, and the integer fits 64 bits. Every other double, an infinity or NaN
included, is refused. -/
theorem asInteger_double (d : Double) :
    (∀ n : Int, (double d).asInteger.map Int64.toInt = .ok n ↔
      ∃ x, d.value? = some x ∧ NearestAway x n ∧ -(2 ^ 63) ≤ n ∧ n < 2 ^ 63) ∧
    ((∃ n, (double d).asInteger = .ok n) ∨
      (double d).asInteger = .error (.conversion .double .integer)) := by
  have hconversion : (double d).asInteger = (double d).orConversion .integer d.toInt64? := rfl
  rw [hconversion]
  refine ⟨fun n => ?_, ?_⟩
  · have hsome : ((double d).orConversion .integer d.toInt64?).map Int64.toInt = .ok n ↔
        d.toInt64?.map Int64.toInt = some n := by
      cases d.toInt64? <;> simp [orConversion, Except.map]
    rw [hsome, Double.toInt64?_eq_some_iff, Double.roundAway_eq_some_iff]
    tauto
  · cases d.toInt64? with
    | none => exact .inr rfl
    | some n => exact .inl ⟨n, rfl⟩

/-- Just below a half, three and a half below zero, and the ends of the range. -/
example :
    (double ⟨0x3FDFFFFFFFFFFFFF⟩).asInteger = .ok 0 ∧
    (double ⟨0xC00C000000000000⟩).asInteger = .ok (-4) ∧
    (double ⟨0xC3E0000000000000⟩).asInteger = .ok Int64.minValue ∧
    (double ⟨0x43E0000000000000⟩).asInteger = .error (.conversion .double .integer) := by
  decide

end Value

end Patchbay
