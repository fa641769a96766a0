import Mathlib.Algebra.Order.Field.Power
import Mathlib.Data.Rat.Cast.Order
import Mathlib.Tactic.Linarith
import Mathlib.Tactic.Positivity
import Patchbay.Proofs.Rounding

/-!
# The shortest decimal reads back

A decimal is taken from a grid only if it lies in the rounding interval of the double, so it reads back as
that double. There always is one: with seventeen digits the grid is finer than the interval, and one of
the two points next to the centre has to lie in it.
-/

namespace Patchbay.Double

theorem unit_pos : 0 < unit := by decide

theorem quarters_pos : 0 < 4 * unit := by
  have := unit_pos
  omega

section Digits

theorem lt_pow_digitCount (n : Nat) : n < 10 ^ digitCount n :=
  (Nat.length_toDigits_le_iff (by decide) (List.length_pos_of_ne_nil Nat.toDigits_ne_nil)).mp le_rfl

theorem pow_digitCount_le {n : Nat} (h : n ≠ 0) : 10 ^ (digitCount n - 1) ≤ n := by
  by_contra hlt
  rcases Nat.eq_zero_or_pos (digitCount n - 1) with hzero | hpos
  · rw [hzero] at hlt
    omega
  · have := (Nat.length_toDigits_le_iff (by decide) hpos).mpr (Nat.not_le.mp hlt)
    simp only [digitCount] at this hpos
    omega

theorem digitCount_pos (n : Nat) : 0 < digitCount n :=
  List.length_pos_of_ne_nil Nat.toDigits_ne_nil

theorem pow_pointPosition_le {a b : Nat} (ha : 0 < a) (hb : 0 < b) :
    (10 : ℚ) ^ (pointPosition a b - 1) ≤ a / b := by
  have hpos : (0 : ℚ) < b := Nat.cast_pos.mpr hb
  simp only [pointPosition]
  split
  · rename_i hle
    have hdigits := pow_digitCount_le (Nat.div_pos hle hb).ne'
    have hcount := digitCount_pos (a / b)
    rw [show ((digitCount (a / b) : ℕ) : ℤ) - 1 = ((digitCount (a / b) - 1 : ℕ) : ℤ) by omega,
      zpow_natCast, le_div_iff₀ hpos]
    exact_mod_cast (Nat.mul_le_mul_right b hdigits).trans (Nat.div_mul_le_self a b)
  · have hdigits := lt_pow_digitCount ((b - 1) / a)
    have hle : b ≤ a * 10 ^ digitCount ((b - 1) / a) := by
      rw [Nat.div_lt_iff_lt_mul ha] at hdigits
      rw [Nat.mul_comm]
      omega
    rw [show (1 : ℤ) - digitCount ((b - 1) / a) - 1 = -(digitCount ((b - 1) / a) : ℤ) by omega, zpow_neg,
      zpow_natCast, inv_le_iff_one_le_mul₀ (by positivity), div_mul_eq_mul_div, one_le_div₀ hpos]
    exact_mod_cast hle

end Digits

/-- The value of a decimal. -/
def Decimal.value (x : Decimal) : ℚ :=
  x.coefficient * 10 ^ x.exponent

theorem pow_toNat_div (z : Int) : (10 : ℚ) ^ z.toNat / 10 ^ (-z).toNat = 10 ^ z := by
  rcases Int.le_total 0 z with h | h
  · rw [Int.toNat_of_nonpos (show -z ≤ 0 by omega), pow_zero, div_one, ← zpow_natCast,
      Int.toNat_of_nonneg h]
  · rw [Int.toNat_of_nonpos h, pow_zero, one_div, ← zpow_natCast, Int.toNat_of_nonneg (by omega),
      zpow_neg, inv_inv]

/-- The value lies in the interval of what rounds to a double. -/
def Interval.Contains (i : Interval) (v : ℚ) : Prop :=
  if i.closed then i.low ≤ v ∧ v ≤ i.high else i.low < v ∧ v < i.high

theorem Interval.holds_iff {i : Interval} {n a b : Nat} (ha : 0 < a) :
    i.holds n a b = true ↔ i.Contains (n * b / a) := by
  have hpos : (0 : ℚ) < a := Nat.cast_pos.mpr ha
  simp only [holds, Contains]
  split
  · rw [decide_eq_true_eq, le_div_iff₀ hpos, div_le_iff₀ hpos]
    norm_cast
  · rw [decide_eq_true_eq, lt_div_iff₀ hpos, div_lt_iff₀ hpos]
    norm_cast

theorem Interval.Contains.bounds {i : Interval} {v : ℚ} (h : i.Contains v) : i.low ≤ v ∧ v ≤ i.high := by
  simp only [Contains] at h
  split at h
  · exact h
  · exact ⟨h.1.le, h.2.le⟩

theorem Interval.holds_of_pick {i : Interval} {tie : Tie} {n a b x : Nat}
    (h : i.pick tie n a b = some x) : i.holds x a b = true := by
  simp only [pick] at h
  split at h
  · rename_i hbelow _
    cases h
    exact hbelow
  · rename_i habove
    cases h
    exact habove
  · cases h
  · rename_i hbelow habove
    split_ifs at h <;> cases h <;> assumption

theorem Interval.contains_of_onGrid {i : Interval} {tie : Tie} {point : Int} {count : Nat} {x : Decimal}
    (h : i.onGrid tie point count = some x) : i.Contains (4 * unit * x.value) := by
  simp only [onGrid] at h
  obtain ⟨n, hpick, rfl⟩ := Option.map_eq_some_iff.mp h
  have hcontains := (holds_iff (Nat.pow_pos (by decide))).mp (holds_of_pick hpick)
  simp only [Nat.pow_eq, Nat.cast_mul, Nat.cast_pow, Nat.cast_ofNat] at hcontains
  rw [Decimal.value, ← pow_toNat_div]
  convert hcontains using 1
  ring

/-- Two points on either side of an interval are no nearer to each other than its ends. -/
theorem Interval.width_le {i : Interval} {x v y : ℚ} (hv : i.Contains v) (hx : x ≤ v) (hy : v ≤ y)
    (hbelow : ¬i.Contains x) (habove : ¬i.Contains y) : (i.high : ℚ) - i.low ≤ y - x := by
  have hlow : x ≤ i.low := by
    by_contra h
    refine hbelow ?_
    simp only [Contains] at hv ⊢
    split_ifs at hv ⊢
    · exact ⟨by linarith, hx.trans hv.2⟩
    · exact ⟨by linarith, hx.trans_lt hv.2⟩
  have hhigh : i.high ≤ y := by
    by_contra h
    refine habove ?_
    simp only [Contains] at hv ⊢
    split_ifs at hv ⊢
    · exact ⟨hv.1.trans hy, by linarith⟩
    · exact ⟨hv.1.trans_le hy, by linarith⟩
  linarith

theorem Interval.holds_of_pick_eq_none {i : Interval} {tie : Tie} {n a b : Nat}
    (h : i.pick tie n a b = none) : i.holds n a b = false ∧ i.holds (n + 1) a b = false := by
  simp only [pick] at h
  split at h
  · cases h
  · cases h
  · rename_i hbelow habove
    exact ⟨hbelow, habove⟩
  · split_ifs at h

/-- A grid finer than the interval has a point in it next to its centre. -/
theorem Interval.exists_onGrid {i : Interval} (tie : Tie) {point : Int} {count : Nat}
    (hcentre : i.Contains i.centre)
    (hfine : (4 * unit : ℚ) * 10 ^ (point - count) < i.high - i.low) :
    ∃ x, i.onGrid tie point count = some x := by
  obtain ⟨z, hz⟩ : ∃ z : Int, point - count = z := ⟨_, rfl⟩
  obtain ⟨a, ha⟩ : ∃ a, Nat.pow 10 (-z).toNat = a := ⟨_, rfl⟩
  obtain ⟨b, hb⟩ : ∃ b, 4 * unit * Nat.pow 10 z.toNat = b := ⟨_, rfl⟩
  have hapos : 0 < a := ha ▸ Nat.pow_pos (by decide)
  have hbpos : 0 < b := hb ▸ Nat.mul_pos quarters_pos (Nat.pow_pos (by decide))
  have hapos' : (0 : ℚ) < a := Nat.cast_pos.mpr hapos
  have hstep : (4 * unit : ℚ) * 10 ^ z = b / a := by
    rw [← ha, ← hb, ← pow_toNat_div]
    simp only [Nat.pow_eq, Nat.cast_mul, Nat.cast_pow, Nat.cast_ofNat]
    ring
  simp only [onGrid, hz, ha, hb]
  cases hpick : i.pick tie (i.centre * a / b) a b with
  | some n => exact ⟨_, rfl⟩
  | none =>
    -- with both neighbours of the centre outside, a step of the grid is as wide as the interval
    obtain ⟨hbelow, habove⟩ := holds_of_pick_eq_none hpick
    have hle : ((i.centre * a / b : Nat) : ℚ) * b / a ≤ i.centre := by
      rw [div_le_iff₀ hapos']
      exact_mod_cast Nat.div_mul_le_self _ b
    have hge : (i.centre : ℚ) ≤ ((i.centre * a / b + 1 : Nat) : ℚ) * b / a := by
      rw [le_div_iff₀ hapos']
      exact_mod_cast ((Nat.div_lt_iff_lt_mul hbpos).mp (Nat.lt_succ_self _)).le
    rw [← Bool.not_eq_true, holds_iff hapos] at hbelow habove
    have hwidth := width_le hcentre hle hge hbelow habove
    have hgap : ((i.centre * a / b + 1 : Nat) : ℚ) * b / a - ((i.centre * a / b : Nat) : ℚ) * b / a
        = b / a := by
      push_cast
      ring
    rw [hgap, ← hstep, ← hz] at hwidth
    exact absurd hfine (not_lt.mpr hwidth)

section Finite
variable {d : Double}

theorem significand_pos (hd : d.isZero = false) : 0 < d.significand := by
  simp only [isZero, beq_eq_false_iff_ne, ne_eq] at hd
  simp only [significand, Nat.shiftLeft_eq]
  split <;> omega

theorem pow_scale_le_units (hd : d.isZero = false) : 2 ^ d.scale ≤ d.units := by
  rw [units_eq]
  exact Nat.le_mul_of_pos_left _ (significand_pos hd)

theorem two_le_low (hd : d.isZero = false) : 2 ≤ d.interval.low := by
  have := d.le_low_interval
  have := pow_scale_le_units hd
  have := Nat.two_pow_pos d.scale
  omega

theorem contains_centre (hd : d.isZero = false) : d.interval.Contains d.interval.centre := by
  have hstep := pow_scale_le_units hd
  have hpos := Nat.two_pow_pos d.scale
  have hlow : d.interval.low < d.interval.centre := by
    simp only [interval, Nat.shiftLeft_eq, Nat.one_mul]
    split <;> omega
  have hhigh : d.interval.centre < d.interval.high := by
    simp only [interval, Nat.shiftLeft_eq, Nat.one_mul]
    omega
  have hlow' : (d.interval.low : ℚ) < d.interval.centre := Nat.cast_lt.mpr hlow
  have hhigh' : (d.interval.centre : ℚ) < d.interval.high := Nat.cast_lt.mpr hhigh
  simp only [Interval.Contains]
  split
  · exact ⟨hlow'.le, hhigh'.le⟩
  · exact ⟨hlow', hhigh'⟩

/-- The interval is more than one part in `10 ^ 16` of its centre wide. -/
theorem centre_lt_width (hd : d.isZero = false) :
    d.interval.centre + 10 ^ 16 * d.interval.low < 10 ^ 16 * d.interval.high := by
  have hpos := Nat.two_pow_pos d.scale
  have hstep := pow_scale_le_units hd
  have hs := d.significand_lt
  have hunits := d.units_eq
  have hmost : d.significand * 2 ^ d.scale ≤ (2 ^ 53 - 1) * 2 ^ d.scale :=
    Nat.mul_le_mul_right _ (by omega)
  simp only [interval, Nat.shiftLeft_eq, Nat.one_mul]
  split
  · rename_i hedge
    rw [hedge.1] at hunits
    omega
  · omega

/-- Seventeen digits are always enough. -/
theorem contains_shortest (tie : Tie) (hd : d.isZero = false) :
    d.interval.Contains (4 * unit * (shortest tie d).value) := by
  obtain ⟨point, hpoint⟩ : ∃ z, pointPosition d.interval.centre (4 * unit) = z := ⟨_, rfl⟩
  have hcentre : 0 < d.interval.centre := by
    have := pow_scale_le_units hd
    have := Nat.two_pow_pos d.scale
    simp only [interval]
    omega
  have hunit : (0 : ℚ) < (4 * unit : Nat) := Nat.cast_pos.mpr quarters_pos
  have hscaled : (4 * unit : ℚ) * 10 ^ (point - 1) ≤ d.interval.centre := by
    have h := pow_pointPosition_le hcentre quarters_pos
    rwa [hpoint, le_div_iff₀ hunit, mul_comm, Nat.cast_mul, Nat.cast_ofNat] at h
  have hfine : (4 * unit : ℚ) * 10 ^ (point - (16 + 1 : Nat)) < d.interval.high - d.interval.low := by
    have hwidth : (d.interval.centre : ℚ) + 10 ^ 16 * d.interval.low < 10 ^ 16 * d.interval.high := by
      exact_mod_cast centre_lt_width hd
    have hshift : (10 : ℚ) ^ (point - 1) = 10 ^ (16 : Nat) * 10 ^ (point - (16 + 1 : Nat)) := by
      rw [← zpow_natCast, ← zpow_add₀ (by norm_num)]
      congr 1
      omega
    rw [hshift] at hscaled
    linarith
  obtain ⟨x, hx⟩ := Interval.exists_onGrid tie (contains_centre hd) hfine
  simp only [shortest, hpoint]
  cases hfound : (List.range 17).findSome? fun n => d.interval.onGrid tie point (n + 1) with
  | some y =>
    obtain ⟨n, _, hn⟩ := List.exists_of_findSome?_eq_some hfound
    exact Interval.contains_of_onGrid hn
  | none =>
    have hlast := List.findSome?_eq_none_iff.mp hfound 16 (by decide)
    rw [hx] at hlast
    cases hlast

theorem two_mul_unit_lt : 2 * unit < 10 ^ 331 := by decide +kernel

theorem pow_lt_unit_mul {k : Nat} (h : k = 2045) : 2 ^ 55 * 2 ^ k < 4 * unit * 10 ^ 310 := by
  subst h
  decide +kernel

theorem high_lt (hd : d.isFinite = true) : d.interval.high < 4 * unit * 10 ^ 310 := by
  -- the largest scale stays a variable, so that its power is computed in one place only
  obtain ⟨k, hk⟩ : ∃ k, k = 2045 := ⟨_, rfl⟩
  have hscale : 2 ^ d.scale ≤ 2 ^ k :=
    Nat.pow_le_pow_right Nat.two_pos (by have := scale_lt d hd; omega)
  have hmost : d.significand * 2 ^ d.scale ≤ (2 ^ 53 - 1) * 2 ^ d.scale :=
    Nat.mul_le_mul_right _ (by have := d.significand_lt; omega)
  calc d.interval.high ≤ 2 ^ 55 * 2 ^ d.scale := by
        rw [high_interval, units_eq]
        omega
    _ ≤ 2 ^ 55 * 2 ^ k := Nat.mul_le_mul_left _ hscale
    _ < 4 * unit * 10 ^ 310 := pow_lt_unit_mul hk

theorem value_pos_of_contains (hzero : d.isZero = false) {x : Decimal}
    (h : d.interval.Contains (4 * unit * x.value)) : 0 < x.value := by
  have hunit : (0 : ℚ) < 4 * unit := by exact_mod_cast quarters_pos
  have htwo : (2 : ℚ) ≤ d.interval.low := by exact_mod_cast two_le_low hzero
  exact pos_of_mul_pos_right (by linarith [h.bounds.1]) hunit.le

theorem coefficient_ne_zero_of_contains (hzero : d.isZero = false) {x : Decimal}
    (h : d.interval.Contains (4 * unit * x.value)) : x.coefficient ≠ 0 := by
  intro hx
  have hpos := value_pos_of_contains hzero h
  simp [Decimal.value, hx] at hpos

/-- A decimal in the rounding interval of a finite double reads back as it. -/
theorem ofDecimal_of_contains (hd : d.isFinite = true) (hzero : d.isZero = false) {x : Decimal}
    (h : d.interval.Contains (4 * unit * x.value)) : ofDecimal d.negative x = d := by
  have hunit : (0 : ℚ) < 4 * unit := by exact_mod_cast quarters_pos
  obtain ⟨hlow, hhigh⟩ := h.bounds
  have hcoefficient := coefficient_ne_zero_of_contains hzero h
  obtain ⟨point, hpoint⟩ : ∃ z : Int, digitCount x.coefficient + x.exponent = z := ⟨_, rfl⟩
  have hbelow : x.value < 10 ^ point := by
    have hten : (0 : ℚ) < 10 ^ x.exponent := by positivity
    rw [Decimal.value, ← hpoint, zpow_add₀ (by norm_num), zpow_natCast]
    exact mul_lt_mul_of_pos_right (by exact_mod_cast lt_pow_digitCount _) hten
  have habove : 10 ^ (point - 1) ≤ x.value := by
    have hcount := digitCount_pos x.coefficient
    have hten : (0 : ℚ) ≤ 10 ^ x.exponent := by positivity
    rw [Decimal.value, ← hpoint, show (digitCount x.coefficient : ℤ) + x.exponent - 1 =
      (digitCount x.coefficient - 1 : ℕ) + x.exponent by omega, zpow_add₀ (by norm_num), zpow_natCast]
    exact mul_le_mul_of_nonneg_right (by exact_mod_cast pow_digitCount_le hcoefficient) hten
  -- the reader gives up on tiny and huge numbers early, but not on one that is near a finite double
  have hleast : -330 ≤ point := by
    by_contra hlt
    have htiny : x.value < 10 ^ (-331 : Int) :=
      hbelow.trans_le (zpow_le_zpow_right₀ (by norm_num) (by omega))
    have htwo : (2 : ℚ) ≤ d.interval.low := by exact_mod_cast two_le_low hzero
    have hlt := (htwo.trans hlow).trans_lt (mul_lt_mul_of_pos_left htiny hunit)
    rw [zpow_neg, ← div_eq_mul_inv, lt_div_iff₀ (zpow_pos (by norm_num) _)] at hlt
    have hle : 2 * 10 ^ 331 < 4 * unit := by exact_mod_cast hlt
    have := two_mul_unit_lt
    omega
  have hmost : point ≤ 310 := by
    by_contra hlt
    have hhuge : 10 ^ (310 : Int) ≤ x.value :=
      (zpow_le_zpow_right₀ (by norm_num) (by omega)).trans habove
    have hle := (mul_le_mul_of_nonneg_left hhuge hunit.le).trans hhigh
    have hge : 4 * unit * 10 ^ 310 ≤ d.interval.high := by exact_mod_cast hle
    exact absurd (high_lt hd) (not_lt.mpr hge)
  simp only [ofDecimal, hpoint]
  rw [if_neg (by omega), if_neg (by omega)]
  have hdenominator : 0 < Nat.pow 10 (-x.exponent).toNat := Nat.pow_pos (by decide)
  have hholds : d.interval.holds (x.coefficient * Nat.pow 10 x.exponent.toNat)
      (Nat.pow 10 (-x.exponent).toNat) (4 * unit) = true := by
    rw [Interval.holds_iff hdenominator]
    simp only [Nat.pow_eq, Nat.cast_mul, Nat.cast_pow, Nat.cast_ofNat]
    rw [Decimal.value, ← pow_toNat_div] at h
    convert h using 1
    ring
  rw [nearest, (roundsTo_of_holds hholds).nearestBits hdenominator hd, signed_self]

end Finite

end Patchbay.Double
