import Patchbay.Proofs.Literal
import Patchbay.Proofs.Publication
import Patchbay.Proofs.Whole

/-!
# Integers that pass through doubles

An integer that is written to a slot of doubles is rounded to the nearest double, ties to the even
significand, and is read back as the nearest integer. Up to `2 ^ 53` doubles are no further apart than
integers, so nothing is lost. Below `2 ^ 63` they are no further apart than `1024`, so no more than half of
that is lost. The last integers before `2 ^ 63` are rounded to it and cannot be read back, from the one
that is half way to it, a tie, on.
-/

namespace Patchbay

variable {ρ ν : Type}

namespace Double

theorem divEven_near {a b : Nat} (hb : 0 < b) :
    2 * a ≤ 2 * (divEven a b * b) + b ∧ 2 * (divEven a b * b) ≤ 2 * a + b := by
  have hrest := Nat.mod_lt a hb
  have hsplit := Nat.div_add_mod' a b
  simp only [divEven]
  split
  · omega
  · rw [Nat.add_mul]
    omega

theorem divEven_of_dvd {a b : Nat} (h : b ∣ a) : divEven a b * b = a := by
  rcases Nat.eq_zero_or_pos b with rfl | hb
  · rw [Nat.zero_dvd.mp h, Nat.mul_zero]
  · rw [divEven, Nat.mod_eq_zero_of_dvd h, if_pos (by omega), Nat.div_mul_cancel h]

section Signed
variable {negative : Bool} {m : Nat}

theorem negative_signed (h : m < 2 ^ 63) : (signed negative m).negative = negative := by
  simp only [Double.negative, signed, Nat.shiftLeft_eq, UInt64.toNat_ofNat']
  cases negative
  · rw [if_neg Bool.false_ne_true, decide_eq_false_iff_not]
    omega
  · rw [if_pos rfl, decide_eq_true_eq]
    omega

/-- The magnitude bits of a significand and a scale, where the significand may have been carried to the
next power of two. -/
theorem units_signed {e q : Nat} (hq : q ≤ 2 ^ 53) (hscale : e = 0 ∨ 2 ^ 52 ≤ q)
    (hlt : (e <<< 52) + q < 2 ^ 63) : (signed negative ((e <<< 52) + q)).units = q * 2 ^ e := by
  rw [Nat.shiftLeft_eq] at hlt ⊢
  simp only [units, significand, scale, magnitude_signed hlt, Nat.shiftLeft_eq,
    Nat.shiftRight_eq_div_pow]
  rcases Nat.lt_or_ge q (2 ^ 52) with hsmall | hlarge
  · obtain rfl : e = 0 := hscale.resolve_right (by omega)
    rw [if_pos (by omega), show (0 * 2 ^ 52 + q) / 2 ^ 52 - 1 = 0 by omega]
    omega
  · rw [if_neg (by omega)]
    rcases Nat.lt_or_eq_of_le hq with hq | rfl
    · rw [show (e * 2 ^ 52 + q) / 2 ^ 52 - 1 = e by omega]
      congr 1
      omega
    · rw [show (e * 2 ^ 52 + 2 ^ 53) / 2 ^ 52 - 1 = e + 1 by omega,
        show (e * 2 ^ 52 + 2 ^ 53) % (1 * 2 ^ 52) = 0 by omega, Nat.pow_succ]
      omega

end Signed

section Whole
variable (negative : Bool) {a : Nat}

/-- How far the doubles around a natural number are apart, as a power of two in units. -/
def spacing (a : Nat) : Nat := Nat.log2 (a * unit) - 52

theorem spacing_le {k : Nat} (h : a < 2 ^ (53 + k)) : 2 ^ spacing a ≤ 2 ^ k * unit := by
  obtain ⟨e, he, hunit⟩ := exists_unit_eq
  rw [hunit, ← Nat.pow_add]
  refine Nat.pow_le_pow_right Nat.two_pos ?_
  rw [spacing, hunit]
  rcases Nat.eq_zero_or_pos a with rfl | ha
  · rw [Nat.zero_mul, Nat.log2_zero]
    omega
  · have hpos : a * 2 ^ e ≠ 0 := (Nat.mul_pos ha (Nat.two_pow_pos e)).ne'
    have hlt : a * 2 ^ e < 2 ^ (53 + k + e) := by
      rw [Nat.pow_add 2 (53 + k)]
      exact Nat.mul_lt_mul_of_pos_right h (Nat.two_pow_pos e)
    have hlog := (Nat.log2_lt hpos).mpr hlt
    omega

theorem nearestBits_lt (h : a ≤ 2 ^ 63) : nearestBits a 1 < infinityBits := by
  have hedge : edge < infinityBits := by decide
  exact (nearestBits_mono 1 h).trans_lt (nearestBits_edge ▸ hedge)

theorem units_nearest (h : a ≤ 2 ^ 63) :
    (nearest negative a 1).units = divEven (a * unit) (2 ^ spacing a) * 2 ^ spacing a := by
  have hlt := nearestBits_lt h
  have hspacing : Nat.log2 (a * unit / 1) - 52 = spacing a := by rw [Nat.div_one, spacing]
  have hround : nearestBits a 1 =
      min ((spacing a <<< 52) + divEven (a * unit) (1 <<< spacing a)) infinityBits := by
    simp only [nearestBits, hspacing]
  have hq := divEven_shift_le hspacing
  have hlow (hpos : 0 < spacing a) := le_divEven_shift hspacing hpos
  rw [Nat.one_shiftLeft] at hround hq hlow
  have hbits : nearestBits a 1 = (spacing a <<< 52) + divEven (a * unit) (2 ^ spacing a) := by
    rw [hround]
    exact Nat.min_eq_left (by omega)
  rw [nearest, hbits]
  refine units_signed hq ?_ (hbits ▸ hlt.trans infinityBits_lt)
  exact (Nat.eq_zero_or_pos _).imp_right hlow

def readBack (a : Nat) : Nat := (nearest false a 1).roundedMagnitude

theorem roundedMagnitude_nearest (h : a ≤ 2 ^ 63) :
    (nearest negative a 1).roundedMagnitude = readBack a := by
  simp only [readBack, roundedMagnitude, units_nearest _ h]

theorem readBack_mono {a a' : Nat} (h : a ≤ a') : readBack a ≤ readBack a' := by
  apply roundedMagnitude_mono
  have hlt (a : Nat) : nearestBits a 1 < 2 ^ 63 := (nearestBits_le a 1).trans_lt infinityBits_lt
  rw [nearest, nearest, magnitude_signed (hlt a), magnitude_signed (hlt a')]
  exact nearestBits_mono 1 h

theorem readBack_top : readBack (2 ^ 63) = 2 ^ 63 := by
  rw [readBack, nearest, nearestBits_edge]
  decide

/-- Half way to the power of two the tie goes to it, as it has the even significand. -/
theorem readBack_tie : readBack (2 ^ 63 - 512) = 2 ^ 63 := by
  rw [readBack, nearest, nearestBits_of_binade (k := 10) (by decide) (by decide)]
  decide

theorem readBack_last : readBack (2 ^ 63 - 513) = 2 ^ 63 - 1024 := by
  rw [readBack, nearest, nearestBits_of_binade (k := 10) (by decide) (by decide)]
  decide

theorem readBack_lt_iff : readBack a < 2 ^ 63 ↔ a < 2 ^ 63 - 512 := by
  constructor
  · intro hlt
    by_contra hle
    have hmono := readBack_mono (Nat.not_lt.mp hle)
    rw [readBack_tie] at hmono
    omega
  · intro hlt
    have hmono := readBack_mono (Nat.le_sub_one_of_lt hlt)
    rw [show 2 ^ 63 - 512 - 1 = 2 ^ 63 - 513 from rfl, readBack_last] at hmono
    omega

theorem readBack_near (h : a ≤ 2 ^ 63) : readBack a ≤ a + 512 ∧ a ≤ readBack a + 512 := by
  rcases Nat.lt_or_eq_of_le h with hlt | rfl
  · have hunit := unit_pos
    -- Below `2 ^ 63` the doubles are at most `2 ^ 10` apart, so rounding moves by half of that at most.
    have hspacing := spacing_le (k := 10) hlt
    obtain ⟨hlow, hhigh⟩ := divEven_near (a := a * unit) (Nat.two_pow_pos (spacing a))
    rw [← units_nearest false h] at hlow hhigh
    simp only [readBack, roundedMagnitude]
    generalize (nearest false a 1).units = u at hlow hhigh ⊢
    constructor
    · rw [← Nat.lt_succ_iff, Nat.div_lt_iff_lt_mul (by omega)]
      simp only [Nat.succ_eq_add_one, Nat.add_mul, Nat.mul_left_comm a 2]
      omega
    · rw [← Nat.sub_le_iff_le_add, Nat.le_div_iff_mul_le (by omega), Nat.sub_mul,
        Nat.mul_left_comm a 2]
      omega
  · rw [readBack_top]
    omega

/-- Up to `2 ^ 53` every natural number is a double. -/
theorem readBack_of_le (h : a ≤ 2 ^ 53) : readBack a = a := by
  rcases Nat.lt_or_eq_of_le h with hlt | rfl
  · have hunit := unit_pos
    obtain ⟨e, _, hpow⟩ := exists_unit_eq
    have hdvd : 2 ^ spacing a ∣ a * unit := by
      refine Nat.dvd_mul_left_of_dvd ?_ a
      have hle := spacing_le (k := 0) hlt
      rw [Nat.pow_zero, Nat.one_mul, hpow, Nat.pow_le_pow_iff_right Nat.one_lt_two] at hle
      rw [hpow]
      exact Nat.pow_dvd_pow 2 hle
    rw [readBack, roundedMagnitude, units_nearest false (by omega), divEven_of_dvd hdvd,
      Nat.div_eq_iff (by omega)]
    simp only [Nat.mul_left_comm a 2]
    omega
  · rw [readBack, nearest, nearestBits_of_binade (k := 1) (by decide) (by decide)]
    decide

end Whole

def passed (n : Int) : Int :=
  if n < 0 then -(readBack n.natAbs : Int) else readBack n.natAbs

section Integers
variable {n m : Int}

theorem roundAway_ofInt (h : n.natAbs ≤ 2 ^ 63) : (ofInt n).roundAway = some (passed n) := by
  have hlt := nearestBits_lt h
  have hbound := hlt.trans infinityBits_lt
  have hfinite : (ofInt n).isFinite = true := by
    rw [isFinite, ofInt, nearest, magnitude_signed hbound, decide_eq_true hlt]
  have hnegative : (ofInt n).negative = decide (n < 0) := negative_signed hbound
  have hrounded : (ofInt n).roundedMagnitude = readBack n.natAbs := roundedMagnitude_nearest _ h
  rw [roundAway_eq, hfinite, hnegative, hrounded, passed]
  simp only [if_true, decide_eq_true_eq]

theorem passed_mono (h : n ≤ m) : passed n ≤ passed m := by
  simp only [passed]
  split_ifs with hn hm
  · have := readBack_mono (show m.natAbs ≤ n.natAbs by omega)
    omega
  · omega
  · omega
  · have := readBack_mono (show n.natAbs ≤ m.natAbs by omega)
    omega

theorem passed_near (h : n.natAbs ≤ 2 ^ 63) : |passed n - n| ≤ 512 := by
  have hnear := readBack_near h
  rw [abs_le, passed]
  split_ifs <;> omega

theorem passed_of_le (h : |n| ≤ 2 ^ 53) : passed n = n := by
  rw [abs_le] at h
  rw [passed, readBack_of_le (by omega)]
  split_ifs <;> omega

theorem passed_fits_iff (hlow : -(2 ^ 63) ≤ n) (hhigh : n < 2 ^ 63) :
    -(2 ^ 63) ≤ passed n ∧ passed n < 2 ^ 63 ↔ n < 2 ^ 63 - 512 := by
  have hmost := readBack_mono (show n.natAbs ≤ 2 ^ 63 by omega)
  rw [readBack_top] at hmost
  have hfits := readBack_lt_iff (a := n.natAbs)
  rw [passed]
  split_ifs <;> omega

end Integers

end Double

namespace Value
open Double

/-- What an integer is read back as when it was written as a double. -/
def throughDouble (i : Int64) : Except Fault Int64 :=
  (double (ofInt i.toInt)).asInteger

theorem throughDouble_eq (i : Int64) :
    throughDouble i = if i.toInt < 2 ^ 63 - 512 then .ok (Int64.ofInt (passed i.toInt))
      else .error (.conversion .double .integer) := by
  have hlow : -(2 ^ 63) ≤ i.toInt := Int64.minValue_le_toInt i
  have hhigh : i.toInt ≤ 2 ^ 63 - 1 := Int64.toInt_le i
  have hfits := passed_fits_iff hlow (by omega)
  have hmin : Int64.minValue.toInt = -(2 ^ 63) := rfl
  have hmax : Int64.maxValue.toInt = 2 ^ 63 - 1 := rfl
  rw [throughDouble, asInteger, toInteger?, toInt64?, roundAway_ofInt (by omega)]
  simp only [hmin, hmax]
  by_cases h : i.toInt < 2 ^ 63 - 512
  · rw [if_pos h, if_pos (by omega)]
    rfl
  · rw [if_neg h, if_neg (by omega)]
    rfl

theorem throughDouble_eq_ok {i r : Int64} (h : throughDouble i = .ok r) :
    i.toInt < 2 ^ 63 - 512 ∧ r.toInt = passed i.toInt := by
  have hlow : -(2 ^ 63) ≤ i.toInt := Int64.minValue_le_toInt i
  have hhigh : i.toInt ≤ 2 ^ 63 - 1 := Int64.toInt_le i
  rw [throughDouble_eq] at h
  split at h
  · rename_i hlt
    have hfits := (passed_fits_iff hlow (by omega)).mpr hlt
    cases h
    exact ⟨hlt, Int64.toInt_ofInt_of_le hfits.1 hfits.2⟩
  · cases h

end Value

def Registry.readInteger (r : Registry ρ) (kind : SlotKind) (name : String) : Except Fault Int64 :=
  (r.read kind name).bind Value.asInteger

/-- Whoever is called leaves the slot as it is. -/
def React.Leaves (react : React ρ ν) (kind : SlotKind) (name : String) : Prop :=
  ∀ who firing s,
    (react who firing s).agent.registry.find? kind name = s.agent.registry.find? kind name

theorem React.Leaves.keeps {react : React ρ ν} {kind : SlotKind} {name : String}
    (h : react.Leaves kind name) (found : Option Slot) :
    react.Keeps fun s => s.agent.registry.find? kind name = found :=
  fun who firing s hs => (h who firing s).trans hs

namespace Registry
variable {r : Registry ρ} {kind : SlotKind} {name : String} {slot : Slot}

theorem get_of_find? (h : r.find? kind name = some slot) : r.get kind name = .ok slot := by
  rw [get, Interface.get, show r.table.find? kind name = some slot from h]

theorem readInteger_of_find? (h : r.find? kind name = some slot) :
    r.readInteger kind name = slot.value.asInteger := by
  rw [readInteger, read, get_of_find? h]
  rfl

/-- An integer is written to a slot of doubles as the nearest double. -/
theorem writeAs_integer (hslot : r.find? kind name = some slot) (htype : slot.type = .double)
    (i : Int64) :
    ∃ after pending, r.writeAs kind name (.integer i) = .ok (after, pending) ∧
      after.find? kind name = some { slot with value := .double (.ofInt i.toInt) } := by
  have hfits : (Value.double (.ofInt i.toInt)).type = slot.type := htype.symm
  obtain ⟨after, pending, hwrite⟩ := write_of_find? hslot hfits
  refine ⟨after, pending, ?_, ?_⟩
  · have htyped : r.type kind name = .ok .double := by
      rw [type, get_of_find? hslot, ← htype]
      rfl
    rw [writeAs, htyped]
    exact hwrite
  · rw [find?_write hwrite, if_pos ⟨rfl, rfl⟩, hslot]
    rfl

end Registry

namespace Session
open Value

/-- An integer can be written to any slot of doubles that may be written. Once it is stored, and afterwards
if whoever is called leaves the slot alone, it is read back as one integer. It cannot be read back if and
only if it is at least `2 ^ 63 - 512`. What is read back is no further than `512` from the integer, up to
`2 ^ 53` it is the integer itself, and greater integers are never read back as lesser ones. -/
theorem integers_through_double {s : Session ρ ν} {kind : SlotKind} {name : String} {slot : Slot}
    (hslot : s.agent.registry.find? kind name = some slot) (htype : slot.type = .double)
    (hwritable : s.agent.checkWritable kind = .ok ()) (react : React ρ ν) :
    (∀ i, ∃ registry pending,
      s.writeAs react kind name (.integer i) =
        ((s.store kind name registry).notify react pending, .ok ()) ∧
      registry.readInteger kind name = throughDouble i ∧
      (react.Leaves kind name →
        (s.writeAs react kind name (.integer i)).1.agent.registry.readInteger kind name =
          throughDouble i)) ∧
    (∀ i, throughDouble i = .error (.conversion .double .integer) ↔ 2 ^ 63 - 512 ≤ i.toInt) ∧
    (∀ i, i.toInt < 2 ^ 63 - 512 → ∃ r, throughDouble i = .ok r ∧ |r.toInt - i.toInt| ≤ 512 ∧
      (|i.toInt| ≤ 2 ^ 53 → r = i)) ∧
    ∀ i j r q, i ≤ j → throughDouble i = .ok r → throughDouble j = .ok q → r ≤ q := by
  refine ⟨fun i => ?_, fun i => ?_, fun i hi => ?_, fun i j r q hij hr hq => ?_⟩
  · obtain ⟨registry, pending, hwriteAs, hfind⟩ := Registry.writeAs_integer hslot htype i
    have hstored : registry.readInteger kind name = throughDouble i :=
      Registry.readInteger_of_find? hfind
    have hwritten : s.writeAs react kind name (.integer i) =
        ((s.store kind name registry).notify react pending, .ok ()) := by
      rw [writeAs, hwritable, hwriteAs]
      rfl
    have hstore : (s.store kind name registry).agent.registry.find? kind name = _ := hfind
    refine ⟨registry, pending, hwritten, hstored, fun hleaves => ?_⟩
    rw [hwritten]
    exact Registry.readInteger_of_find? (notify_keeps (hleaves.keeps _) pending hstore)
  · rw [throughDouble_eq]
    split
    · exact iff_of_false (fun h => by cases h) (by omega)
    · exact iff_of_true rfl (by omega)
  · have hlow : -(2 ^ 63) ≤ i.toInt := Int64.minValue_le_toInt i
    have hok := throughDouble_eq i
    rw [if_pos hi] at hok
    obtain ⟨-, hpassed⟩ := throughDouble_eq_ok hok
    refine ⟨_, hok, ?_, fun hsmall => ?_⟩
    · rw [hpassed]
      exact Double.passed_near (by omega)
    · rw [← Int64.toInt_inj, hpassed, Double.passed_of_le hsmall]
  · rw [Int64.le_iff_toInt_le] at hij ⊢
    rw [(throughDouble_eq_ok hr).2, (throughDouble_eq_ok hq).2]
    exact Double.passed_mono hij

/-- The scale has an output of doubles. -/
def scale : Session Unit Unit :=
  ({ agent := { config := { name := "scale" }, definition := { name := "scale" } } } :
      Session Unit Unit).performAll (Behaviour.idle.react 0)
    [.createSlot .output "weight" .double none, .observe .output "weight" ()]

/-- The last integer that is read back, half of 1024 less than the one it becomes. -/
theorem weight_read_back :
    scale.agent.registry.find? .output "weight" =
        some { name := "weight", type := .double, value := .double .zero } ∧
      scale.agent.checkWritable .output = .ok () ∧
      (Behaviour.idle.react 1 : React Unit Unit).Leaves .output "weight" ∧
      (scale.writeAs (Behaviour.idle.react 1) .output "weight"
        (.integer 9223372036854775295)).1.agent.registry.readInteger .output "weight" =
          .ok 9223372036854774784 ∧
      (scale.writeAs (Behaviour.idle.react 1) .output "weight"
        (.integer 9223372036854775296)).1.agent.registry.readInteger .output "weight" =
          .error (.conversion .double .integer) := by
  have hslot : scale.agent.registry.find? .output "weight" =
      some { name := "weight", type := .double, value := .double .zero } := by decide
  have hwritable : scale.agent.checkWritable .output = .ok () := rfl
  have hleaves : (Behaviour.idle.react 1 : React Unit Unit).Leaves .output "weight" :=
    fun _ _ _ => rfl
  obtain ⟨hread, hfails, -, -⟩ :=
    integers_through_double hslot rfl hwritable (Behaviour.idle.react 1)
  refine ⟨hslot, hwritable, hleaves, ?_, ?_⟩
  · obtain ⟨_, _, _, _, hafter⟩ := hread 9223372036854775295
    rw [hafter hleaves]
    decide +kernel
  · obtain ⟨_, _, _, _, hafter⟩ := hread 9223372036854775296
    rw [hafter hleaves]
    exact (hfails _).mpr (by decide)

end Session

end Patchbay
