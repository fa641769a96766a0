import Mathlib.Tactic.Ring
import Patchbay.Double.Decimal

/-!
# Rounding to a double

Whatever lies in the rounding interval of a finite double, with the ends if its significand is even, is
rounded to that double. Just below the least significand of a binade the doubles lie twice as dense, so
the interval is narrower there, and what lies in that part is rounded in the binade below and carried
over.
-/

namespace Patchbay.Double

/-- A quotient no further than a half from `s` is rounded to `s`, if it is nearer or `s` is even. -/
theorem divEven_eq {a b s : Nat} (hb : 0 < b) (hlow : 2 * s * b ≤ 2 * a + b)
    (hhigh : 2 * a ≤ 2 * s * b + b)
    (hodd : s % 2 = 1 → 2 * s * b ≠ 2 * a + b ∧ 2 * a ≠ 2 * s * b + b) : divEven a b = s := by
  have hr : a % b < b := Nat.mod_lt a hb
  have hsplit : b * (a / b) + a % b = a := Nat.div_add_mod a b
  generalize hq : a / b = q at hsplit
  generalize hrest : a % b = r at hsplit hr
  have hle : q ≤ s := by
    by_contra h
    have : (s + 1) * b ≤ q * b := Nat.mul_le_mul_right b (by omega)
    grind
  have hge : s ≤ q + 1 := by
    by_contra h
    have : (q + 2) * b ≤ s * b := Nat.mul_le_mul_right b (by omega)
    grind
  simp only [divEven, hq, hrest]
  rcases Nat.lt_or_ge q s with hlt | hge'
  · obtain rfl : s = q + 1 := by omega
    have htwice : b ≤ 2 * r := by grind
    rw [if_neg]
    rintro (h | ⟨h, heven⟩)
    · omega
    · have := (hodd (by omega)).1
      grind
  · obtain rfl : q = s := by omega
    have htwice : 2 * r ≤ b := by grind
    rw [if_pos]
    rcases Nat.lt_or_eq_of_le htwice with h | h
    · exact .inl h
    · refine .inr ⟨h, ?_⟩
      by_contra heven
      have := (hodd (by omega)).2
      grind

section Parts
variable (d : Double)

theorem magnitude_eq : d.magnitude = d.scale * 2 ^ 52 + d.significand := by
  simp only [scale, significand, Nat.shiftRight_eq_div_pow, Nat.shiftLeft_eq]
  split <;> omega

theorem significand_lt : d.significand < 2 ^ 53 := by
  simp only [significand, Nat.shiftLeft_eq]
  split <;> omega

theorem le_significand (h : 0 < d.scale) : 2 ^ 52 ≤ d.significand := by
  simp only [scale, significand, Nat.shiftRight_eq_div_pow, Nat.shiftLeft_eq] at h ⊢
  split <;> omega

theorem units_eq : d.units = d.significand * 2 ^ d.scale := Nat.shiftLeft_eq ..

theorem scale_lt (h : d.isFinite = true) : d.scale < 2046 := by
  simp only [isFinite, infinityBits, decide_eq_true_eq, Nat.shiftLeft_eq] at h
  simp only [scale, Nat.shiftRight_eq_div_pow]
  omega

theorem signed_self : signed d.negative d.magnitude = d := by
  have hbits : d.bits.toNat < 2 ^ 64 := d.bits.toNat_lt
  cases d with | mk bits =>
  simp only [signed, negative, magnitude, Nat.shiftLeft_eq, decide_eq_true_eq, mk.injEq] at hbits ⊢
  rw [← UInt64.toNat_inj, UInt64.toNat_ofNat']
  split <;> omega

end Parts

section Ends
variable (d : Double)

theorem high_interval : d.interval.high = 4 * d.units + 2 * 2 ^ d.scale := by
  simp only [interval, Nat.shiftLeft_eq, Nat.one_mul]

theorem le_low_interval : 4 * d.units ≤ d.interval.low + 2 * 2 ^ d.scale := by
  simp only [interval, Nat.shiftLeft_eq, Nat.one_mul]
  split <;> omega

/-- Below the least significand the doubles lie twice as dense. -/
theorem le_low_interval_of_edge (h : 0 < d.scale) (hedge : d.significand = 2 ^ 52) :
    4 * d.units ≤ d.interval.low + 2 ^ d.scale := by
  simp only [interval, Nat.shiftLeft_eq, Nat.one_mul, hedge, h, and_self, if_true]
  omega

theorem closed_interval : d.interval.closed = decide (d.significand % 2 = 0) := rfl

end Ends

/-- `x / b` units lie in the rounding interval of the double. -/
structure RoundsTo (d : Double) (x b : Nat) : Prop where
  low : 4 * d.units * b ≤ 4 * x + 2 * 2 ^ d.scale * b
  high : 4 * x ≤ 4 * d.units * b + 2 * 2 ^ d.scale * b
  odd : d.significand % 2 = 1 →
    4 * d.units * b ≠ 4 * x + 2 * 2 ^ d.scale * b ∧ 4 * x ≠ 4 * d.units * b + 2 * 2 ^ d.scale * b
  edge : 0 < d.scale → d.significand = 2 ^ 52 → 4 * d.units * b ≤ 4 * x + 2 ^ d.scale * b

theorem roundsTo_of_holds {d : Double} {a b : Nat}
    (h : d.interval.holds a b (4 * unit) = true) :
    d.RoundsTo (a * unit) b := by
  have hx : a * (4 * unit) = 4 * (a * unit) := by ring
  have hlow := Nat.mul_le_mul_right b d.le_low_interval
  simp only [Interval.holds, hx, d.high_interval, d.closed_interval, decide_eq_true_eq, Nat.add_mul]
    at h hlow
  refine ⟨?_, ?_, ?_, fun hscale hedge => ?_⟩
  · split at h <;> simp only [decide_eq_true_eq] at h <;> omega
  · split at h <;> simp only [decide_eq_true_eq] at h <;> omega
  · intro hodd
    rw [if_neg (by omega)] at h
    simp only [decide_eq_true_eq] at h
    omega
  · have hlow := Nat.mul_le_mul_right b (d.le_low_interval_of_edge hscale hedge)
    rw [Nat.add_mul] at hlow
    split at h <;> simp only [decide_eq_true_eq] at h <;> omega

theorem log2_div_sub {x b e : Nat} (hb : 0 < b) (hlow : e = 0 ∨ 2 ^ (52 + e) * b ≤ x)
    (hhigh : x < 2 ^ (53 + e) * b) : Nat.log2 (x / b) - 52 = e := by
  have hhigh' : x / b < 2 ^ (53 + e) := Nat.div_lt_of_lt_mul (by rwa [Nat.mul_comm])
  rcases Nat.eq_zero_or_pos (x / b) with hzero | hpos
  · rw [hzero, Nat.log2_zero]
    rcases hlow with rfl | hlow
    · rfl
    · have hle : 2 ^ (52 + e) ≤ x / b := (Nat.le_div_iff_mul_le hb).mpr hlow
      have := Nat.two_pow_pos (52 + e)
      omega
  · have hlt : Nat.log2 (x / b) < 53 + e := (Nat.log2_lt hpos.ne').mpr hhigh'
    rcases hlow with rfl | hlow
    · omega
    · have hle : 52 + e ≤ Nat.log2 (x / b) :=
        (Nat.le_log2 hpos.ne').mpr ((Nat.le_div_iff_mul_le hb).mpr hlow)
      omega

/-- What lies in the rounding interval of a finite double is rounded to it. -/
theorem RoundsTo.nearestBits {d : Double} {a b : Nat} (h : d.RoundsTo (a * unit) b) (hb : 0 < b)
    (hd : d.isFinite = true) : nearestBits a b = d.magnitude := by
  have hfinite : d.magnitude < infinityBits := by
    simpa [isFinite] using hd
  have hunits := d.units_eq
  have hs := d.significand_lt
  have hle := d.le_significand
  obtain ⟨hlow, hhigh, hodd, hedge⟩ := h
  simp only [Double.nearestBits]
  rw [d.magnitude_eq] at hfinite ⊢
  generalize a * unit = x at *
  generalize d.significand = s at *
  generalize d.scale = e at *
  obtain ⟨t, ht⟩ : ∃ t, t = 2 ^ e * b := ⟨_, rfl⟩
  have htpos : 0 < t := ht ▸ Nat.mul_pos (Nat.two_pow_pos e) hb
  have hpow (k : Nat) : 2 ^ (k + e) * b = 2 ^ k * t := by rw [ht, Nat.pow_add, Nat.mul_assoc]
  have hst : 4 * (s * 2 ^ e) * b = 4 * (s * t) := by rw [ht]; ring
  simp only [hunits, hst, Nat.mul_assoc 2 (2 ^ e), ← ht] at hlow hhigh hodd hedge
  have hmost : s * t ≤ (2 ^ 53 - 1) * t := Nat.mul_le_mul_right t (by omega)
  by_cases hbinade : e = 0 ∨ 2 ^ (52 + e) * b ≤ x
  · have he : Nat.log2 (x / b) - 52 = e :=
      log2_div_sub hb hbinade (by rw [hpow]; omega)
    have hround : divEven x (b <<< e) = s := by
      rw [Nat.shiftLeft_eq, Nat.mul_comm b, ← ht]
      have hassoc : 2 * s * t = 2 * (s * t) := Nat.mul_assoc ..
      exact divEven_eq htpos (by omega) (by omega) fun h => by have := hodd h; omega
    rw [he, hround, Nat.shiftLeft_eq]
    exact Nat.min_eq_left hfinite.le
  · -- below the least significand of its binade only the edge of the interval is left
    obtain ⟨hpos, hbelow⟩ : 0 < e ∧ x < 2 ^ 52 * t := by
      rw [not_or, hpow] at hbinade
      omega
    obtain rfl : s = 2 ^ 52 := by
      refine Nat.le_antisymm (Nat.not_lt.mp fun hlt => ?_) (hle hpos)
      have : (2 ^ 52 + 1) * t ≤ s * t := Nat.mul_le_mul_right t hlt
      omega
    have hnear := hedge hpos rfl
    obtain ⟨e, rfl⟩ : ∃ k, e = k + 1 := ⟨e - 1, by omega⟩
    obtain ⟨c, hc⟩ : ∃ c, c = 2 ^ e * b := ⟨_, rfl⟩
    have htwice : t = 2 * c := by rw [ht, hc]; ring
    have hpow' (k : Nat) : 2 ^ (k + e) * b = 2 ^ k * c := by rw [hc, Nat.pow_add, Nat.mul_assoc]
    have he : Nat.log2 (x / b) - 52 = e :=
      log2_div_sub hb (.inr (by rw [hpow']; omega)) (by rw [hpow']; omega)
    have hround : divEven x (b <<< e) = 2 ^ 53 := by
      rw [Nat.shiftLeft_eq, Nat.mul_comm b, ← hc]
      exact divEven_eq (by omega) (by omega) (by omega) fun h => by omega
    have hcarry : e * 2 ^ 52 + 2 ^ 53 = (e + 1) * 2 ^ 52 + 2 ^ 52 := by omega
    rw [he, hround, Nat.shiftLeft_eq, hcarry]
    exact Nat.min_eq_left hfinite.le

end Patchbay.Double
