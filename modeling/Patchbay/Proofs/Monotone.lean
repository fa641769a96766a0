import Mathlib.Data.Nat.Log
import Patchbay.Proofs.Shortest

/-!
# Rounding keeps the order

Rounding to the nearest double, the magnitude of a double as a number of units, and rounding that to the
nearest integer are all monotone. So where two neighbouring doubles are known, with what rounds to them,
every number beyond is on the same side of their integers.
-/

namespace Patchbay.Double

/-- The unit as a power with a variable exponent, so that the power is not computed. -/
theorem exists_unit_eq : ∃ e, e = 1074 ∧ unit = 2 ^ e := by
  obtain ⟨e, he⟩ : ∃ e, e = 1074 := ⟨_, rfl⟩
  refine ⟨e, he, ?_⟩
  rw [unit, ← he, Nat.one_shiftLeft]

theorem le_divEven (a b : Nat) : a / b ≤ divEven a b := by
  simp only [divEven]
  split <;> omega

theorem divEven_le (a b : Nat) : divEven a b ≤ a / b + 1 := by
  simp only [divEven]
  split <;> omega

theorem divEven_mono {a a' : Nat} (b : Nat) (h : a ≤ a') : divEven a b ≤ divEven a' b := by
  rcases Nat.lt_or_eq_of_le (Nat.div_le_div_right (c := b) h) with hlt | heq
  · calc divEven a b ≤ a / b + 1 := divEven_le a b
      _ ≤ a' / b := hlt
      _ ≤ divEven a' b := le_divEven a' b
  · -- with the same quotient the remainders are in order
    have ha := Nat.div_add_mod a b
    have ha' := Nat.div_add_mod a' b
    rw [← heq] at ha'
    have hrest : a % b ≤ a' % b := by omega
    simp only [divEven, ← heq]
    split_ifs <;> omega

theorem divEven_mul_right {c : Nat} (hc : 0 < c) (a b : Nat) :
    divEven (a * c) (b * c) = divEven a b := by
  have hlt : 2 * (a % b * c) < b * c ↔ 2 * (a % b) < b := by
    rw [← Nat.mul_assoc, Nat.mul_lt_mul_right hc]
  have heq : 2 * (a % b * c) = b * c ↔ 2 * (a % b) = b := by
    rw [← Nat.mul_assoc, Nat.mul_left_inj hc.ne']
  simp only [divEven, Nat.mul_mod_mul_right, Nat.mul_div_mul_right _ _ hc, hlt, heq]

/-- From one power of two to the next, doubles are equally far apart. -/
theorem nearestBits_of_binade {a k : Nat} (hlow : 2 ^ (52 + k) ≤ a) (hhigh : a < 2 ^ (53 + k)) :
    nearestBits a 1 = min (((1074 + k) <<< 52) + divEven a (2 ^ k)) infinityBits := by
  obtain ⟨e, he, hunit⟩ := exists_unit_eq
  have ha : a ≠ 0 := ((Nat.two_pow_pos _).trans_le hlow).ne'
  have hlog : Nat.log2 (a * 2 ^ e / 1) = 52 + k + e := by
    rw [Nat.div_one, Nat.log2_eq_iff (Nat.mul_ne_zero ha (Nat.two_pow_pos e).ne')]
    constructor
    · rw [Nat.pow_add]
      exact Nat.mul_le_mul_right _ hlow
    · rw [show 52 + k + e + 1 = 53 + k + e by omega, Nat.pow_add]
      exact Nat.mul_lt_mul_of_pos_right hhigh (Nat.two_pow_pos e)
  have hscale : 52 + k + e - 52 = e + k := by omega
  have hround : divEven (a * 2 ^ e) (1 <<< (e + k)) = divEven a (2 ^ k) := by
    rw [Nat.one_shiftLeft, Nat.add_comm, Nat.pow_add, divEven_mul_right (Nat.two_pow_pos e)]
  rw [← he, nearestBits, hunit, hlog, hscale, hround]

/-- Below the top of its binade a number is rounded to a significand, or to the next power of two. -/
theorem divEven_shift_le {x b e : Nat} (h : Nat.log2 (x / b) - 52 = e) :
    divEven x (b <<< e) ≤ 2 ^ 53 := by
  have hlt : x / b < 2 ^ (53 + e) := by
    rcases Nat.eq_zero_or_pos (x / b) with hzero | hpos
    · rw [hzero]
      exact Nat.two_pow_pos _
    · exact (Nat.log2_lt hpos.ne').mp (by omega)
  have hquotient : x / (b <<< e) < 2 ^ 53 := by
    rw [Nat.shiftLeft_eq, ← Nat.div_div_eq_div_mul]
    exact Nat.div_lt_of_lt_mul (by rwa [Nat.mul_comm, ← Nat.pow_add])
  exact (divEven_le x _).trans hquotient

theorem le_divEven_shift {x b e : Nat} (h : Nat.log2 (x / b) - 52 = e) (he : 0 < e) :
    2 ^ 52 ≤ divEven x (b <<< e) := by
  have hpos : x / b ≠ 0 := by
    intro hzero
    rw [hzero, Nat.log2_zero] at h
    omega
  have hge : 2 ^ (52 + e) ≤ x / b := (Nat.le_log2 hpos).mp (by omega)
  refine le_trans ?_ (le_divEven x _)
  rw [Nat.shiftLeft_eq, ← Nat.div_div_eq_div_mul, Nat.le_div_iff_mul_le (Nat.two_pow_pos e),
    ← Nat.pow_add]
  exact hge

theorem nearestBits_mono {a a' : Nat} (b : Nat) (h : a ≤ a') :
    nearestBits a b ≤ nearestBits a' b := by
  have hx : a * unit ≤ a' * unit := Nat.mul_le_mul_right unit h
  have hlog : Nat.log2 (a * unit / b) ≤ Nat.log2 (a' * unit / b) := by
    rw [Nat.log2_eq_log_two, Nat.log2_eq_log_two]
    exact Nat.log_mono_right (Nat.div_le_div_right hx)
  obtain ⟨e, he⟩ : ∃ e, Nat.log2 (a * unit / b) - 52 = e := ⟨_, rfl⟩
  obtain ⟨e', he'⟩ : ∃ e', Nat.log2 (a' * unit / b) - 52 = e' := ⟨_, rfl⟩
  simp only [nearestBits, he, he']
  refine min_le_min_right _ ?_
  rcases Nat.lt_or_eq_of_le (show e ≤ e' by omega) with hlt | rfl
  · -- the next binade begins where this one ends
    have hlow := divEven_shift_le he
    have hhigh := le_divEven_shift he' (by omega)
    simp only [Nat.shiftLeft_eq _ 52]
    omega
  · exact Nat.add_le_add_left (divEven_mono _ hx) _

theorem nearestBits_le (a b : Nat) : nearestBits a b ≤ infinityBits := Nat.min_le_right ..

theorem units_mono {d d' : Double} (h : d.magnitude ≤ d'.magnitude) : d.units ≤ d'.units := by
  have hlt := d.significand_lt
  have hlt' := d'.significand_lt
  have hle := d.le_significand
  have hle' := d'.le_significand
  rw [magnitude_eq, magnitude_eq] at h
  rw [units_eq, units_eq]
  rcases Nat.lt_trichotomy d.scale d'.scale with hscale | hscale | hscale
  · calc d.significand * 2 ^ d.scale ≤ 2 ^ 53 * 2 ^ d.scale := Nat.mul_le_mul_right _ hlt.le
      _ = 2 ^ 52 * 2 ^ (d.scale + 1) := by ring
      _ ≤ 2 ^ 52 * 2 ^ d'.scale := Nat.mul_le_mul_left _ (Nat.pow_le_pow_right Nat.two_pos hscale)
      _ ≤ d'.significand * 2 ^ d'.scale := Nat.mul_le_mul_right _ (hle' (by omega))
  · rw [hscale] at h ⊢
    exact Nat.mul_le_mul_right _ (by omega)
  · have := hle (by omega)
    omega

theorem magnitude_signed {negative : Bool} {m : Nat} (h : m < 2 ^ 63) :
    (signed negative m).magnitude = m := by
  simp only [magnitude, signed, Nat.shiftLeft_eq, UInt64.toNat_ofNat']
  split <;> omega

/-- The magnitude rounded to the nearest integer, half of one up. -/
def roundedMagnitude (d : Double) : Nat :=
  (2 * d.units + unit) / (2 * unit)

theorem roundedMagnitude_mono {d d' : Double} (h : d.magnitude ≤ d'.magnitude) :
    d.roundedMagnitude ≤ d'.roundedMagnitude := by
  have := units_mono h
  exact Nat.div_le_div_right (by omega)

theorem roundAway_eq (d : Double) :
    d.roundAway = if d.isFinite then
      some (if d.negative then -(d.roundedMagnitude : Int) else d.roundedMagnitude) else none := rfl

end Patchbay.Double
