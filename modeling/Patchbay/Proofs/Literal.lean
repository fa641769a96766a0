import Patchbay.Proofs.Monotone
import Patchbay.Proofs.Numeral
import Patchbay.Value.Convert

/-!
# Whole numbers in text

A literal is what people write for a whole number: digits, as many as they like, after an optional sign.
One that fits 64 bits is read as it is. Any other goes through the nearest double, and since rounding
keeps the order it is on the same side of the range as before, with one exception: what is no more than
half a step of the doubles below the least integer is rounded onto it.
-/

namespace Patchbay
open Double

/-- A whole number as people write it. -/
inductive Literal : List Char → Int → Prop
  | plain {ds : List Char} : ds ≠ [] → AllDigits ds → Literal ds (Nat.ofDigitChars 10 ds 0)
  | plus {ds : List Char} : ds ≠ [] → AllDigits ds → Literal ('+' :: ds) (Nat.ofDigitChars 10 ds 0)
  | minus {ds : List Char} :
      ds ≠ [] → AllDigits ds → Literal ('-' :: ds) (-(Nat.ofDigitChars 10 ds 0 : Nat))

namespace Double

theorem splitSign_of_digits {ds : List Char} (hds : AllDigits ds) : splitSign ds = (false, ds) := by
  cases ds with
  | nil => rfl
  | cons c ds =>
    have hc := hds c List.mem_cons_self
    unfold splitSign
    split
    · rename_i h
      cases h
      cases hc
    · rename_i h
      cases h
      cases hc
    · rfl

/-- What a text says of a whole number. -/
structure Splits (cs : List Char) (negative : Bool) (m : Nat) (ds : List Char) : Prop where
  sign : splitSign cs = (negative, ds)
  nonempty : ds ≠ []
  digits : AllDigits ds
  value : digitsValue ds = m

variable {cs ds : List Char} {negative : Bool} {m : Nat}

theorem decimalOfText?_of_digits (hne : ds ≠ []) (hds : AllDigits ds) :
    decimalOfText? ds = some ⟨digitsValue ds, 0⟩ := by
  have hrest : ∀ c ∈ ([] : List Char).head?, c.isDigit = false := by simp
  obtain ⟨htake, hdrop⟩ := Json.span_digits hds hrest
  rw [List.append_nil] at htake hdrop
  simp [decimalOfText?, htake, hdrop, hne, exponentOfText?]

theorem toLower_of_isDigit {c : Char} (h : c.isDigit = true) : c.toLower = c := by
  simp only [Char.isDigit, Bool.and_eq_true, decide_eq_true_eq, ge_iff_le, UInt32.le_iff_toNat_le] at h
  unfold Char.toLower
  rw [dif_neg]
  rintro ⟨hlow, -⟩
  rw [ge_iff_le, UInt32.le_iff_toNat_le] at hlow
  exact absurd (hlow.trans h.2) (by decide)

theorem lower_of_digits (hds : AllDigits ds) : Text.lower ds = ds :=
  (List.map_congr_left fun c hc => toLower_of_isDigit (hds c hc)).trans (List.map_id ds)

/-- Digits are none of the words for the infinities and for NaN. -/
theorem Splits.ofText? (h : Splits cs negative m ds) : ofText? cs = some (ofDecimal negative ⟨m, 0⟩) := by
  have hword (c : Char) (word : List Char) (hc : c.isDigit = false) :
      ¬String.ofList ds = String.ofList (c :: word) := by
    rw [String.ofList_inj]
    intro heq
    have hdigit := h.digits c (heq ▸ List.mem_cons_self)
    rw [hc] at hdigit
    cases hdigit
  have hinf : ¬String.ofList ds = "inf" := hword 'i' ['n', 'f'] rfl
  have hinfinity : ¬String.ofList ds = "infinity" := hword 'i' ['n', 'f', 'i', 'n', 'i', 't', 'y'] rfl
  have hnan : ¬String.ofList ds = "nan" := hword 'n' ['a', 'n'] rfl
  simp [Double.ofText?, h.sign, lower_of_digits h.digits, hinf, hinfinity, hnan,
    decimalOfText?_of_digits h.nonempty h.digits, h.value]

/-- Digits that fit 64 bits are read as they are. -/
theorem Splits.integerOfText? (h : Splits cs negative m ds) :
    integerOfText? cs =
      let n : Int := if negative then -m else m
      if -(2 ^ 63) ≤ n ∧ n < 2 ^ 63 then some (Int64.ofInt n) else none := by
  have hall : ds.all Char.isDigit = true := List.all_eq_true.mpr h.digits
  have hnonempty : ds.isEmpty = false := by
    cases ds with
    | nil => exact absurd rfl h.nonempty
    | cons => rfl
  have hbound (n : Int) : n ≤ Int64.maxValue.toInt ↔ n < 2 ^ 63 := by
    change n ≤ 2 ^ 63 - 1 ↔ _
    omega
  simp only [Patchbay.integerOfText?, h.sign, hall, hnonempty, h.value, hbound]
  rfl

section Beyond
/-- Two to the power of 63 as the magnitude bits of a double. -/
def edge : Nat := 1086 <<< 52

theorem nearestBits_edge : nearestBits (2 ^ 63) 1 = edge := by
  rw [nearestBits_of_binade (k := 11) (by decide) (by decide)]
  decide

/-- Half way to the next double the tie goes to the even significand, which is that of the power of two. -/
theorem nearestBits_half : nearestBits (2 ^ 63 + 1024) 1 = edge := by
  rw [nearestBits_of_binade (k := 11) (by decide) (by decide)]
  decide

theorem nearestBits_next : nearestBits (2 ^ 63 + 1025) 1 = edge + 1 := by
  rw [nearestBits_of_binade (k := 11) (by decide) (by decide)]
  decide

theorem roundedMagnitude_next (negative : Bool) :
    (signed negative (edge + 1)).roundedMagnitude = 2 ^ 63 + 2048 := by
  cases negative <;> decide

theorem infinityBits_lt : infinityBits < 2 ^ 63 := by decide

theorem toInt64?_eq_none {d : Double} (h : 2 ^ 63 < d.roundedMagnitude) : d.toInt64? = none := by
  have hmin : Int64.minValue.toInt = -(2 ^ 63) := rfl
  have hmax : Int64.maxValue.toInt = 2 ^ 63 - 1 := rfl
  rw [toInt64?, roundAway_eq]
  cases d.isFinite
  · rfl
  · cases d.negative
    · exact if_neg (by omega)
    · exact if_neg (by omega)

theorem toInt64?_edge (negative : Bool) :
    (signed negative edge).toInt64? = if negative then some Int64.minValue else none := by
  cases negative <;> decide

/-- A number beyond the range is rounded out of it, unless onto its lower end. -/
theorem toInt64?_nearest (h : 2 ^ 63 ≤ m) :
    (nearest negative m 1).toInt64? =
      if negative = true ∧ m ≤ 2 ^ 63 + 1024 then some Int64.minValue else none := by
  rw [nearest]
  rcases Nat.lt_or_ge (2 ^ 63 + 1024) m with hbeyond | hnear
  · have hbits : edge + 1 ≤ nearestBits m 1 := nearestBits_next ▸ nearestBits_mono 1 hbeyond
    have hlt : nearestBits m 1 < 2 ^ 63 := (nearestBits_le m 1).trans_lt infinityBits_lt
    have hmagnitude :
        (signed negative (edge + 1)).magnitude ≤ (signed negative (nearestBits m 1)).magnitude := by
      rw [magnitude_signed (hbits.trans_lt hlt), magnitude_signed hlt]
      exact hbits
    have hrounded := roundedMagnitude_mono hmagnitude
    rw [roundedMagnitude_next] at hrounded
    rw [toInt64?_eq_none (by omega), if_neg (by omega)]
  · have hbits : nearestBits m 1 = edge :=
      Nat.le_antisymm (nearestBits_half ▸ nearestBits_mono 1 hnear)
        (nearestBits_edge ▸ nearestBits_mono 1 h)
    rw [hbits, toInt64?_edge]
    cases negative
    · rfl
    · exact (if_pos ⟨rfl, hnear⟩).symm

theorem toInt64?_ofDecimal (h : 2 ^ 63 ≤ m) :
    (ofDecimal negative ⟨m, 0⟩).toInt64? =
      if negative = true ∧ m ≤ 2 ^ 63 + 1024 then some Int64.minValue else none := by
  have hm : m ≠ 0 := by omega
  simp only [ofDecimal]
  rw [if_neg (by omega)]
  split
  · -- what the reader takes for an infinity has more than three hundred digits
    have hlarge : 10 ^ 20 ≤ m :=
      (Nat.pow_le_pow_right (by decide) (by omega)).trans (pow_digitCount_le hm)
    rw [if_neg fun h => absurd (hlarge.trans h.2) (by decide)]
    cases negative <;> decide
  · have hnearest : (nearest negative m 1).toInt64? = _ := toInt64?_nearest h
    simpa using hnearest

end Beyond

end Double

theorem Literal.splits {cs : List Char} {n : Int} (h : Literal cs n) :
    ∃ negative m ds, Splits cs negative m ds ∧ n = if negative then -(m : Int) else m := by
  cases h with
  | plain hne hds => exact ⟨false, _, cs, ⟨splitSign_of_digits hds, hne, hds, rfl⟩, rfl⟩
  | @plus ds hne hds => exact ⟨false, _, ds, ⟨rfl, hne, hds, rfl⟩, rfl⟩
  | @minus ds hne hds => exact ⟨true, _, ds, ⟨rfl, hne, hds, rfl⟩, rfl⟩

namespace Value

/-- A literal is read as its number if that fits 64 bits. Otherwise it is refused, unless half a step of
the doubles below the least integer or nearer: then it is read as the least integer. -/
theorem asInteger_literal {s : String} {n : Int} (h : Literal (Text.trim s.toList) n) :
    (string s).asInteger.map Int64.toInt =
      if -(2 ^ 63) ≤ n ∧ n < 2 ^ 63 then .ok n
      else if -(2 ^ 63) - 1024 ≤ n ∧ n < 0 then .ok (-(2 ^ 63))
      else .error (.conversion .string .integer) := by
  obtain ⟨negative, m, ds, hsplits, hn⟩ := h.splits
  simp only [asInteger, toInteger?, hsplits.integerOfText?, hsplits.ofText?, ← hn, Option.bind_some]
  by_cases hfits : -(2 ^ 63) ≤ n ∧ n < 2 ^ 63
  · rw [if_pos hfits, if_pos hfits]
    exact congrArg Except.ok (Int64.toInt_ofInt_of_le hfits.1 hfits.2)
  · rw [if_neg hfits, if_neg hfits]
    have hlarge : 2 ^ 63 ≤ m := by
      split at hn <;> omega
    simp only [toInt64?_ofDecimal hlarge]
    by_cases hnear : negative = true ∧ m ≤ 2 ^ 63 + 1024
    · rw [if_pos hnear, if_pos]
      · rfl
      · rw [hnear.1, if_pos rfl] at hn
        omega
    · rw [if_neg hnear, if_neg]
      · rfl
      · cases negative with
        | false =>
          rw [if_neg Bool.false_ne_true] at hn
          omega
        | true =>
          rw [if_pos rfl] at hn
          have hfar : ¬m ≤ 2 ^ 63 + 1024 := fun h => hnear ⟨rfl, h⟩
          omega

theorem asInteger_above :
    Literal (Text.trim " +9223372036854775808\n".toList) (2 ^ 63) ∧
      (string " +9223372036854775808\n").asInteger.map Int64.toInt =
        .error (.conversion .string .integer) := by
  have h : Literal (Text.trim " +9223372036854775808\n".toList) (2 ^ 63) :=
    @Literal.plus "9223372036854775808".toList (by decide) (by decide)
  exact ⟨h, asInteger_literal h⟩

/-- One less than the least integer is read as the least integer. -/
theorem asInteger_below :
    Literal (Text.trim "-9223372036854775809".toList) (-(2 ^ 63) - 1) ∧
      (string "-9223372036854775809").asInteger = .ok Int64.minValue :=
  ⟨@Literal.minus "9223372036854775809".toList (by decide) (by decide), by decide +kernel⟩

end Value

end Patchbay
