import Patchbay.Json.Printer
import Patchbay.Json.Reader
import Patchbay.Proofs.Shortest

/-!
# Numbers that are written read back

A `Numeral` is what a text says of a number: its sign, its digits before and after the point, and its
exponent. A well-formed numeral is read out of its own text up to the next character that cannot go on
with it. Whole numbers that fit 64 bits and finite doubles are written as well-formed numerals of their
value, so they read back as what they are.
-/

namespace Patchbay

namespace Double

/-- Digits of the notation with base ten. -/
def AllDigits (cs : List Char) : Prop := ∀ c ∈ cs, c.isDigit = true

instance (cs : List Char) : Decidable (AllDigits cs) :=
  List.decidableBAll (fun c : Char => c.isDigit = true) cs

theorem allDigits_toDigits (n : Nat) : AllDigits (Nat.toDigits 10 n) :=
  fun _ hc => Nat.isDigit_of_mem_toDigits (by decide) (by decide) hc

@[simp] theorem length_zeros (n : Nat) : (zeros n).length = n := List.length_replicate

theorem allDigits_zeros (n : Nat) : AllDigits (zeros n) := by
  intro c hc
  rw [List.eq_of_mem_replicate hc]
  rfl

theorem AllDigits.append {xs ys : List Char} (hx : AllDigits xs) (hy : AllDigits ys) :
    AllDigits (xs ++ ys) :=
  fun c hc => (List.mem_append.mp hc).elim (hx c) (hy c)

theorem digitsValue_append (xs ys : List Char) :
    digitsValue (xs ++ ys) = digitsValue xs * 10 ^ ys.length + digitsValue ys := by
  change Nat.ofDigitChars 10 (xs ++ ys) 0 = _
  rw [Nat.ofDigitChars_append, Nat.ofDigitChars_eq_ofDigitChars_zero, Nat.mul_comm]
  rfl

theorem digitsValue_zeros (n : Nat) : digitsValue (zeros n) = 0 := by
  change Nat.ofDigitChars 10 (List.replicate n '0') 0 = 0
  rw [Nat.ofDigitChars_replicate_zero, Nat.mul_zero]

theorem digitsValue_toDigits (n : Nat) : digitsValue (Nat.toDigits 10 n) = n :=
  Nat.ofDigitChars_ten_toDigits

theorem head?_toDigits {n : Nat} (h : n ≠ 0) : (Nat.toDigits 10 n).head? ≠ some '0' := by
  induction n using Nat.strongRecOn with
  | ind n ih =>
    rcases Nat.lt_or_ge n 10 with hlt | hge
    · rw [Nat.toDigits_of_lt_base hlt, List.head?_cons, ne_eq, Option.some.injEq, Nat.digitChar_eq_zero]
      exact h
    · rw [Nat.toDigits_of_base_le (by decide) hge, List.head?_append_of_ne_nil _ Nat.toDigits_ne_nil]
      exact ih (n / 10) (by omega) (by omega)

section Stripped
variable (n : Nat)

/-- Stripping takes nothing but zeros off the end. -/
theorem exists_toDigits_eq : ∃ k, Nat.toDigits 10 n = strippedDigits n ++ zeros k := by
  let ds := (Nat.toDigits 10 n).reverse
  have hzeros : ds.takeWhile (· == '0') = zeros (ds.takeWhile (· == '0')).length := by
    refine List.eq_replicate_of_mem fun c hc => ?_
    exact beq_iff_eq.mp (List.all_eq_true.mp List.all_takeWhile c hc)
  refine ⟨(ds.takeWhile (· == '0')).length, ?_⟩
  calc Nat.toDigits 10 n = ds.reverse := (List.reverse_reverse _).symm
    _ = (ds.takeWhile (· == '0') ++ ds.dropWhile (· == '0')).reverse := by
      rw [List.takeWhile_append_dropWhile]
    _ = strippedDigits n ++ (ds.takeWhile (· == '0')).reverse := by
      rw [List.reverse_append]
      rfl
    _ = strippedDigits n ++ zeros (ds.takeWhile (· == '0')).length := by
      conv_lhs => rw [hzeros]
      rw [zeros, List.reverse_replicate]

theorem allDigits_strippedDigits : AllDigits (strippedDigits n) := by
  obtain ⟨k, hk⟩ := exists_toDigits_eq n
  intro c hc
  exact allDigits_toDigits n c (hk ▸ List.mem_append_left _ hc)

variable {n}

theorem strippedDigits_ne_nil (h : n ≠ 0) : strippedDigits n ≠ [] := by
  obtain ⟨k, hk⟩ := exists_toDigits_eq n
  intro hnil
  have hvalue := digitsValue_toDigits n
  rw [hk, hnil, List.nil_append, digitsValue_zeros] at hvalue
  exact h hvalue.symm

theorem head?_strippedDigits (h : n ≠ 0) : (strippedDigits n).head? ≠ some '0' := by
  obtain ⟨k, hk⟩ := exists_toDigits_eq n
  have hhead := head?_toDigits h
  rwa [hk, List.head?_append_of_ne_nil _ (strippedDigits_ne_nil h)] at hhead

/-- The stripped digits after the point that stands `digitCount n` before the end of all digits. -/
theorem digitsValue_strippedDigits (z : Int) :
    (n : ℚ) * 10 ^ z =
      digitsValue (strippedDigits n) * 10 ^ (digitCount n + z - (strippedDigits n).length) := by
  obtain ⟨k, hk⟩ := exists_toDigits_eq n
  have hvalue : n = digitsValue (strippedDigits n) * 10 ^ k := by
    conv_lhs => rw [← digitsValue_toDigits n, hk]
    rw [digitsValue_append, digitsValue_zeros, Nat.add_zero, length_zeros]
  have hcount : digitCount n = (strippedDigits n).length + k := by
    rw [digitCount, hk, List.length_append, length_zeros]
  have hshift : (digitCount n : Int) + z - (strippedDigits n).length = k + z := by omega
  rw [hshift, zpow_add₀ (by norm_num), zpow_natCast, ← mul_assoc]
  congr 1
  exact_mod_cast hvalue

end Stripped

end Double

namespace Json
open Double

/-- A text that cannot go on with a number. -/
def Stops (rest : List Char) : Prop :=
  ∀ c ∈ rest.head?, c.isDigit = false ∧ c ≠ '.' ∧ c ≠ 'e' ∧ c ≠ 'E'

theorem span_digits {ds rest : List Char} (hds : AllDigits ds)
    (hrest : ∀ c ∈ rest.head?, c.isDigit = false) :
    (ds ++ rest).takeWhile Char.isDigit = ds ∧ (ds ++ rest).dropWhile Char.isDigit = rest := by
  rw [List.takeWhile_append_of_pos hds, List.dropWhile_append_of_pos hds]
  cases rest with
  | nil => exact ⟨List.append_nil _, rfl⟩
  | cons c rest =>
    have hc := hrest c rfl
    rw [List.takeWhile_cons_of_neg (by rw [hc]; decide),
      List.dropWhile_cons_of_neg (by rw [hc]; decide)]
    exact ⟨List.append_nil _, rfl⟩

namespace Numeral

def fractionText : Option (List Char) → List Char
  | none => []
  | some ds => '.' :: ds

def exponentText : Option Int → List Char
  | none => []
  | some e => 'e' :: (if e < 0 then '-' else '+') :: Nat.toDigits 10 e.natAbs

def unsignedText (n : Numeral) : List Char :=
  n.whole ++ (fractionText n.fraction ++ exponentText n.exponent)

def text (n : Numeral) : List Char :=
  if n.negative then '-' :: n.unsignedText else n.unsignedText

/-- Digits before the point, without a leading zero but a lone one, and digits after the point if there
is one. -/
structure Proper (n : Numeral) : Prop where
  digits : AllDigits n.whole
  nonempty : n.whole ≠ []
  leading : n.whole.head? = some '0' → n.whole.length = 1
  fraction : ∀ ds ∈ n.fraction, AllDigits ds ∧ ds ≠ []

end Numeral

theorem scanFraction_fractionText {fraction : Option (List Char)}
    (h : ∀ ds ∈ fraction, AllDigits ds ∧ ds ≠ []) {rest : List Char}
    (hrest : ∀ c ∈ rest.head?, c.isDigit = false ∧ c ≠ '.') :
    scanFraction (Numeral.fractionText fraction ++ rest) = some (fraction, rest) := by
  cases fraction with
  | none =>
    simp only [Numeral.fractionText, List.nil_append]
    unfold scanFraction
    split
    · exact absurd rfl (hrest '.' rfl).2
    · rfl
  | some ds =>
    obtain ⟨hds, hne⟩ := h ds rfl
    obtain ⟨htake, hdrop⟩ := span_digits hds fun c hc => (hrest c hc).1
    simp only [Numeral.fractionText, List.cons_append, scanFraction, htake, hdrop, List.isEmpty_iff, hne,
      if_false]

theorem scanExponent_exponentText (exponent : Option Int) {rest : List Char} (hrest : Stops rest) :
    scanExponent (Numeral.exponentText exponent ++ rest) = some (exponent, rest) := by
  cases exponent with
  | none =>
    cases rest with
    | nil => rfl
    | cons c rest =>
      obtain ⟨-, -, he, hE⟩ := hrest c rfl
      simp [Numeral.exponentText, scanExponent, he, hE]
  | some e =>
    obtain ⟨htake, hdrop⟩ := span_digits (allDigits_toDigits e.natAbs) fun c hc => (hrest c hc).1
    have hne : (Nat.toDigits 10 e.natAbs).isEmpty = false :=
      List.isEmpty_eq_false_iff.mpr Nat.toDigits_ne_nil
    by_cases hneg : e < 0
    · simp [Numeral.exponentText, scanExponent, splitSign, hneg, htake, hdrop, hne,
        digitsValue_toDigits, abs_of_neg hneg]
    · simp [Numeral.exponentText, scanExponent, splitSign, hneg, htake, hdrop, hne,
        digitsValue_toDigits, abs_of_nonneg (not_lt.mp hneg)]

namespace Numeral
variable {n : Numeral} {rest : List Char}

theorem head?_exponentText (exponent : Option Int) (hrest : Stops rest) :
    ∀ c ∈ (exponentText exponent ++ rest).head?, c.isDigit = false ∧ c ≠ '.' := by
  intro c hc
  cases exponent with
  | none => exact ⟨(hrest c hc).1, (hrest c hc).2.1⟩
  | some e =>
    cases hc
    decide

theorem head?_fractionText (fraction : Option (List Char))
    (hrest : ∀ c ∈ rest.head?, c.isDigit = false) :
    ∀ c ∈ (fractionText fraction ++ rest).head?, c.isDigit = false := by
  intro c hc
  cases fraction with
  | none => exact hrest c hc
  | some ds =>
    cases hc
    decide

/-- What `scanNumeral` does after the sign. -/
def scanUnsigned (negative : Bool) (cs : List Char) : Option (Numeral × List Char) := do
  let whole := cs.takeWhile Char.isDigit
  if whole.isEmpty || (whole.head? == some '0' && whole.length != 1) then none
  let (fraction, cs) ← scanFraction (cs.dropWhile Char.isDigit)
  let (exponent, cs) ← scanExponent cs
  return (⟨negative, whole, fraction, exponent⟩, cs)

theorem scanNumeral_minus (cs : List Char) : scanNumeral ('-' :: cs) = scanUnsigned true cs := rfl

theorem scanNumeral_of_digit {cs : List Char} (h : ∀ c ∈ cs.head?, c.isDigit = true) :
    scanNumeral cs = scanUnsigned false cs := by
  unfold scanNumeral
  split
  rename_i heq
  split at heq
  · have := h '-' rfl
    contradiction
  · cases heq
    rfl

theorem Proper.scanUnsigned (h : n.Proper) (hrest : Stops rest) :
    scanUnsigned n.negative (n.unsignedText ++ rest) = some (n, rest) := by
  have hexponent := head?_exponentText n.exponent hrest
  obtain ⟨htake, hdrop⟩ := span_digits h.digits
    (head?_fractionText n.fraction fun c hc => (hexponent c hc).1)
  have hlone : (n.whole.isEmpty || (n.whole.head? == some '0' && n.whole.length != 1)) = false := by
    simpa [h.nonempty] using h.leading
  simp only [Numeral.scanUnsigned, unsignedText, List.append_assoc, htake, hdrop, hlone,
    Bool.false_eq_true, if_false, scanFraction_fractionText h.fraction hexponent, Option.bind_eq_bind,
    Option.bind_some, scanExponent_exponentText n.exponent hrest]
  rfl

theorem Proper.head?_unsignedText (h : n.Proper) (rest : List Char) :
    ∀ c ∈ (n.unsignedText ++ rest).head?, c.isDigit = true := by
  obtain ⟨c, cs, hcs⟩ := List.exists_cons_of_ne_nil h.nonempty
  have hc := h.digits c (hcs ▸ List.mem_cons_self)
  simp only [unsignedText, hcs, List.cons_append, List.head?_cons, Option.mem_some_iff]
  rintro _ rfl
  exact hc

/-- A proper numeral is read out of its own text. -/
theorem Proper.scan (h : n.Proper) (hrest : Stops rest) :
    scanNumeral (n.text ++ rest) = some (n, rest) := by
  have hscan := h.scanUnsigned hrest
  cases hnegative : n.negative with
  | true =>
    rw [hnegative] at hscan
    simpa only [text, hnegative, if_true, List.cons_append, scanNumeral_minus] using hscan
  | false =>
    rw [hnegative] at hscan
    simpa only [text, hnegative, Bool.false_eq_true, if_false,
      scanNumeral_of_digit (h.head?_unsignedText rest)] using hscan

/-- The decimal that a numeral stands for, without its sign. -/
def decimal (n : Numeral) : Decimal :=
  ⟨digitsValue (n.whole ++ n.fraction.getD []), n.exponent.getD 0 - (n.fraction.getD []).length⟩

def ofInt (n : Int) : Numeral :=
  { negative := decide (n < 0), whole := Nat.toDigits 10 n.natAbs, fraction := none, exponent := none }

theorem proper_ofInt (n : Int) : (ofInt n).Proper where
  digits := allDigits_toDigits n.natAbs
  nonempty := Nat.toDigits_ne_nil
  leading := by
    intro hzero
    by_cases h : n.natAbs = 0
    · rw [ofInt, h]
      rfl
    · exact absurd hzero (head?_toDigits h)
  fraction := by
    intro ds hds
    cases hds

theorem text_ofInt (n : Int) : (ofInt n).text = (toString n).toList := by
  cases n with
  | ofNat n =>
    change _ = (toString n).toList
    rw [Nat.toString_eq_ofList_toDigits, String.toList_ofList]
    simp [text, unsignedText, ofInt, fractionText, exponentText]
  | negSucc n =>
    change _ = ("-" ++ toString (n + 1)).toList
    rw [Nat.toString_eq_ofList_toDigits, String.toList_append, String.toList_ofList]
    simp [text, unsignedText, ofInt, fractionText, exponentText]

theorem value_ofInt {n : Int} (hlow : -(2 ^ 63) ≤ n) (hhigh : n < 2 ^ 64) :
    (ofInt n).value = .int n := by
  have hsize : UInt64.size = 2 ^ 64 := rfl
  by_cases hneg : n < 0
  · have hrange : 0 < n.natAbs ∧ n.natAbs ≤ 2 ^ 63 := by omega
    have hvalue : -(n.natAbs : Int) = n := by omega
    simp only [value, ofInt, Option.isNone_none, Bool.and_self, if_true, digitsValue_toDigits,
      hneg, decide_true, Nat.shiftLeft_eq, Nat.one_mul, hrange, and_self, hvalue]
  · have hrange : n.natAbs < 2 ^ 64 := by omega
    have hvalue : (n.natAbs : Int) = n := by omega
    simp only [value, ofInt, Option.isNone_none, Bool.and_self, if_true, digitsValue_toDigits,
      hneg, decide_false, Bool.false_eq_true, if_false, hsize, hrange, hvalue]

/-- The numeral has a point or an exponent, is written as `cs` after its sign, and is worth `v`. -/
structure Renders (n : Numeral) (cs : List Char) (v : ℚ) : Prop where
  proper : n.Proper
  text : n.unsignedText = cs
  inexact : (n.fraction.isNone && n.exponent.isNone) = false
  value : n.decimal.value = v

section Layouts
variable {digits : List Char} (hdigits : AllDigits digits) (hne : digits ≠ [])
  (hhead : digits.head? ≠ some '0') (negative : Bool)
include hdigits hne hhead

omit hhead in
/-- Everything stands after the point. -/
theorem renders_small {point : Int} (hpoint : point ≤ 0) :
    Renders ⟨negative, ['0'], some (zeros (-point).toNat ++ digits), none⟩
      (positionalText .document digits point) (digitsValue digits * 10 ^ (point - digits.length)) where
  proper := by
    refine ⟨allDigits_zeros 1, List.cons_ne_nil _ _, fun _ => rfl, ?_⟩
    rintro _ ⟨⟩
    exact ⟨(allDigits_zeros _).append hdigits, List.append_ne_nil_of_right_ne_nil _ hne⟩
  text := by simp [unsignedText, fractionText, exponentText, positionalText, hpoint]
  inexact := rfl
  value := by
    have hvalue : digitsValue (zeros 1 ++ (zeros (-point).toNat ++ digits)) = digitsValue digits := by
      simp only [digitsValue_append, digitsValue_zeros, Nat.zero_mul, Nat.zero_add]
    have hexponent : (0 : Int) - (zeros (-point).toNat ++ digits).length = point - digits.length := by
      rw [List.length_append, length_zeros]
      omega
    simp only [Decimal.value, decimal, Option.getD_some, Option.getD_none, hexponent]
    exact congrArg (fun n : Nat => (n : ℚ) * _) hvalue

/-- The point stands among the digits. -/
theorem renders_inside {point : Int} (hlow : ¬point ≤ 0) (hhigh : point < digits.length) :
    Renders ⟨negative, digits.take point.toNat, some (digits.drop point.toNat), none⟩
      (positionalText .document digits point) (digitsValue digits * 10 ^ (point - digits.length)) where
  proper := by
    refine ⟨fun c hc => hdigits c (List.mem_of_mem_take hc), ?_, fun hzero => ?_, ?_⟩
    · simp only [ne_eq, List.take_eq_nil_iff, hne, or_false]
      omega
    · rw [List.head?_take, if_neg (by omega)] at hzero
      exact absurd hzero hhead
    · rintro _ ⟨⟩
      refine ⟨fun c hc => hdigits c (List.mem_of_mem_drop hc), ?_⟩
      simp only [ne_eq, List.drop_eq_nil_iff]
      omega
  text := by simp [unsignedText, fractionText, exponentText, positionalText, hlow, hhigh]
  inexact := rfl
  value := by
    have hexponent : (0 : Int) - (digits.drop point.toNat).length = point - digits.length := by
      rw [List.length_drop]
      omega
    simp only [Decimal.value, decimal, Option.getD_some, Option.getD_none, hexponent,
      List.take_append_drop]

/-- Everything stands before the point, which is followed by a zero. -/
theorem renders_large {point : Int} (hlow : ¬point ≤ 0) (hhigh : ¬point < digits.length) :
    Renders ⟨negative, digits ++ zeros (point.toNat - digits.length), some ['0'], none⟩
      (positionalText .document digits point) (digitsValue digits * 10 ^ (point - digits.length)) where
  proper := by
    refine ⟨hdigits.append (allDigits_zeros _), List.append_ne_nil_of_left_ne_nil hne _,
      fun hzero => ?_, ?_⟩
    · rw [List.head?_append_of_ne_nil _ hne] at hzero
      exact absurd hzero hhead
    · rintro _ ⟨⟩
      exact ⟨allDigits_zeros 1, List.cons_ne_nil _ _⟩
  text := by
    simp [unsignedText, fractionText, exponentText, positionalText, hlow, hhigh, Layout.document]
  inexact := rfl
  value := by
    have hvalue : digitsValue (digits ++ zeros (point.toNat - digits.length) ++ zeros 1) =
        digitsValue digits * 10 ^ (point.toNat - digits.length + 1) := by
      simp only [digitsValue_append, digitsValue_zeros, Nat.add_zero, length_zeros, Nat.pow_succ,
        Nat.mul_assoc, Nat.pow_zero, Nat.one_mul]
    have hexponent : point - digits.length =
        ((point.toNat - digits.length + 1 : Nat) : Int) + (0 - 1) := by
      omega
    rw [hexponent, zpow_add₀ (by norm_num), zpow_natCast, ← mul_assoc]
    refine congrArg (· * _) ?_
    exact_mod_cast hvalue

theorem exists_renders_positional (point : Int) :
    ∃ n : Numeral, n.negative = negative ∧ n.Renders (positionalText .document digits point)
      (digitsValue digits * 10 ^ (point - digits.length)) := by
  by_cases hlow : point ≤ 0
  · exact ⟨_, rfl, renders_small hdigits hne negative hlow⟩
  · by_cases hhigh : point < digits.length
    · exact ⟨_, rfl, renders_inside hdigits hne hhead negative hlow hhigh⟩
    · exact ⟨_, rfl, renders_large hdigits hne hhead negative hlow hhigh⟩

omit hhead in
theorem exists_renders_exponent (point : Int) :
    ∃ n : Numeral, n.negative = negative ∧ n.Renders (Double.exponentText .document digits point)
      (digitsValue digits * 10 ^ (point - digits.length)) := by
  obtain ⟨c, rest, rfl⟩ := List.exists_cons_of_ne_nil hne
  have hc : AllDigits [c] := fun d hd => hdigits d (List.mem_singleton.mp hd ▸ List.mem_cons_self)
  have hlone : [c].head? = some '0' → [c].length = 1 := fun _ => rfl
  cases rest with
  | nil =>
    refine ⟨⟨negative, [c], none, some (point - 1)⟩, rfl,
      ⟨hc, List.cons_ne_nil _ _, hlone, ?_⟩, ?_, rfl, ?_⟩
    · rintro _ ⟨⟩
    · by_cases hneg : point - 1 < 0 <;>
        simp [unsignedText, fractionText, exponentText, Double.exponentText, Layout.document, hneg]
    · simp [Decimal.value, decimal]
  | cons d rest =>
    refine ⟨⟨negative, [c], some (d :: rest), some (point - 1)⟩, rfl,
      ⟨hc, List.cons_ne_nil _ _, hlone, ?_⟩, ?_, rfl, ?_⟩
    · rintro _ ⟨⟩
      exact ⟨fun e he => hdigits e (List.mem_cons_of_mem _ he), List.cons_ne_nil _ _⟩
    · by_cases hneg : point - 1 < 0 <;>
        simp [unsignedText, fractionText, exponentText, Double.exponentText, Layout.document, hneg]
    · have hexponent : point - 1 - (d :: rest).length = point - (c :: d :: rest).length := by
        simp only [List.length_cons]
        omega
      simp only [Decimal.value, decimal, Option.getD_some, hexponent]
      rfl

end Layouts

theorem Renders.value_eq {n : Numeral} {cs : List Char} {v : ℚ} (h : n.Renders cs v) {d : Double}
    (hd : d.isFinite = true) (hread : ofDecimal n.negative n.decimal = d) : n.value = .double d := by
  simp only [decimal] at hread
  simp only [Numeral.value, h.inexact, hread, hd, Bool.false_eq_true, if_false, if_true]

theorem renders_zero (negative : Bool) :
    Renders ⟨negative, ['0'], some ['0'], none⟩ ['0', '.', '0'] 0 where
  proper := by
    refine ⟨allDigits_zeros 1, List.cons_ne_nil _ _, fun _ => rfl, ?_⟩
    rintro _ ⟨⟩
    exact ⟨allDigits_zeros 1, List.cons_ne_nil _ _⟩
  text := rfl
  inexact := rfl
  value := by simp [Decimal.value, decimal, digitsValue]

/-- The magnitude of a finite double is written as a numeral that reads back as the double. -/
theorem exists_renders {d : Double} (hd : d.isFinite = true) :
    ∃ n : Numeral, n.negative = d.negative ∧ ofDecimal n.negative n.decimal = d ∧
      ∃ v, n.Renders (magnitudeText .document d) v := by
  cases hzero : d.isZero with
  | true =>
    have hmagnitude : d.magnitude = 0 := beq_iff_eq.mp hzero
    refine ⟨⟨d.negative, ['0'], some ['0'], none⟩, rfl, ?_, 0, ?_⟩
    · have hsigned := d.signed_self
      rw [hmagnitude] at hsigned
      simpa [ofDecimal, decimal, digitsValue] using hsigned
    · simpa [magnitudeText, hzero, Layout.document] using renders_zero d.negative
  | false =>
    have hcontains := contains_shortest .even hzero
    -- all that matters of the shortest decimal is that it lies in the interval
    obtain ⟨x, hx⟩ : ∃ x, shortest .even d = x := ⟨_, rfl⟩
    rw [hx] at hcontains
    have hcoefficient := coefficient_ne_zero_of_contains hzero hcontains
    have hdigits := allDigits_strippedDigits x.coefficient
    have hne := strippedDigits_ne_nil hcoefficient
    rw [Decimal.value, digitsValue_strippedDigits] at hcontains
    obtain ⟨n, hnegative, hn⟩ : ∃ n : Numeral, n.negative = d.negative ∧
        n.Renders (magnitudeText .document d) _ := by
      simp only [magnitudeText, hzero, Bool.false_eq_true, if_false]
      rw [show Layout.document.tie = .even from rfl, hx]
      simp only [Layout.document]
      split
      · exact exists_renders_positional hdigits hne (head?_strippedDigits hcoefficient) d.negative _
      · exact exists_renders_exponent hdigits hne d.negative _
    rw [← hn.value] at hcontains
    exact ⟨n, hnegative, hnegative ▸ ofDecimal_of_contains hd hzero hcontains, _, hn⟩

/-- A finite double is written as a numeral that reads back as it. -/
theorem exists_of_double {d : Double} (hd : d.isFinite = true) :
    ∃ n : Numeral, n.Proper ∧ n.text = doubleText d ∧ n.value = .double d := by
  obtain ⟨n, hnegative, hread, v, hn⟩ := exists_renders hd
  refine ⟨n, hn.proper, ?_, hn.value_eq hd hread⟩
  have hnan : d.isNaN = false := by
    simp only [isFinite, isNaN, decide_eq_true_eq, decide_eq_false_iff_not] at hd ⊢
    omega
  simp only [doubleText, hd, if_true, Double.text, hnan, Bool.false_eq_true, if_false,
    String.toList_ofList, text, hnegative, hn.text]

end Numeral

end Json

end Patchbay
