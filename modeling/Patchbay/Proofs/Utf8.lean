import Patchbay.Value.Wire

/-!
# Well-formed UTF-8

The byte sequences of UTF-8 as a grammar. A character takes one to four bytes, of which the first tells how
many. The bounds on the second byte leave every character a single form, the shortest, and leave none to
surrogates and to numbers beyond the last code point. What `Bytes.text?` reads are the sequences of the
grammar and no others.
-/

namespace Patchbay
namespace Utf8

/-- A byte that continues a character. -/
def Tail (b : UInt8) : Prop :=
  0x80 ≤ b.toNat ∧ b.toNat ≤ 0xBF

/-- The bytes of one character. -/
inductive Character : List UInt8 → Prop
  | one {a : UInt8} (first : a.toNat ≤ 0x7F) : Character [a]
  | two {a b : UInt8} (first : 0xC2 ≤ a.toNat ∧ a.toNat ≤ 0xDF) (second : Tail b) : Character [a, b]
  | three {a b c : UInt8} (first : 0xE0 ≤ a.toNat ∧ a.toNat ≤ 0xEF) (second : Tail b) (third : Tail c)
      (shortest : a.toNat = 0xE0 → 0xA0 ≤ b.toNat) (surrogate : a.toNat = 0xED → b.toNat ≤ 0x9F) :
      Character [a, b, c]
  | four {a b c d : UInt8} (first : 0xF0 ≤ a.toNat ∧ a.toNat ≤ 0xF4) (second : Tail b) (third : Tail c)
      (fourth : Tail d) (shortest : a.toNat = 0xF0 → 0x90 ≤ b.toNat)
      (last : a.toNat = 0xF4 → b.toNat ≤ 0x8F) : Character [a, b, c, d]

inductive WellFormed : List UInt8 → Prop
  | nil : WellFormed []
  | cons {first rest : List UInt8} (hfirst : Character first) (hrest : WellFormed rest) :
      WellFormed (first ++ rest)

theorem exists_char_of_valid {n : Nat} (h : n.isValidChar) : ∃ c : Char, c.val.toNat = n :=
  ⟨Char.ofNatAux n h, rfl⟩

theorem ofNat_eq {n : Nat} {b : UInt8} (h : n = b.toNat) : UInt8.ofNat n = b := by
  rw [h, UInt8.ofNat_toNat]

theorem toNat_ofNat {n : Nat} (h : n < 256) : (UInt8.ofNat n).toNat = n := by
  rw [UInt8.toNat_ofNat', Nat.mod_eq_of_lt h]

/-- The number of a character is put together from the low bits of its bytes. -/
theorem Character.exists_char {bytes : List UInt8} (h : Character bytes) :
    ∃ c : Char, bytes = String.utf8EncodeChar c := by
  cases h with
  | @one a first =>
    obtain ⟨c, hc⟩ := exists_char_of_valid (n := a.toNat) (by simp only [Nat.isValidChar]; omega)
    refine ⟨c, ?_⟩
    simp only [String.utf8EncodeChar, hc]
    rw [if_pos first, ofNat_eq rfl]
  | @two a b first second =>
    simp only [Tail] at second
    obtain ⟨c, hc⟩ := exists_char_of_valid (n := (a.toNat - 0xC0) * 64 + (b.toNat - 0x80))
      (by simp only [Nat.isValidChar]; omega)
    refine ⟨c, ?_⟩
    simp only [String.utf8EncodeChar, hc]
    rw [if_neg (by omega), if_pos (by omega), ofNat_eq (b := a) (by omega), ofNat_eq (b := b) (by omega)]
  | @three a b c first second third shortest surrogate =>
    simp only [Tail] at second third
    obtain ⟨x, hx⟩ := exists_char_of_valid
      (n := (a.toNat - 0xE0) * 4096 + (b.toNat - 0x80) * 64 + (c.toNat - 0x80))
      (by simp only [Nat.isValidChar]; omega)
    refine ⟨x, ?_⟩
    simp only [String.utf8EncodeChar, hx]
    rw [if_neg (by omega), if_neg (by omega), if_pos (by omega), ofNat_eq (b := a) (by omega),
      ofNat_eq (b := b) (by omega), ofNat_eq (b := c) (by omega)]
  | @four a b c d first second third fourth shortest last =>
    simp only [Tail] at second third fourth
    obtain ⟨x, hx⟩ := exists_char_of_valid (n := (a.toNat - 0xF0) * 262144 + (b.toNat - 0x80) * 4096 +
        (c.toNat - 0x80) * 64 + (d.toNat - 0x80)) (by simp only [Nat.isValidChar]; omega)
    refine ⟨x, ?_⟩
    simp only [String.utf8EncodeChar, hx]
    rw [if_neg (by omega), if_neg (by omega), if_neg (by omega), ofNat_eq (b := a) (by omega),
      ofNat_eq (b := b) (by omega), ofNat_eq (b := c) (by omega), ofNat_eq (b := d) (by omega)]

/-- Six bits make a byte that continues a character. -/
theorem tail_low (n : Nat) : Tail (UInt8.ofNat (n % 0x40 + 0x80)) := by
  simp only [Tail]
  rw [toNat_ofNat (by omega)]
  omega

theorem character_utf8EncodeChar (c : Char) : Character (String.utf8EncodeChar c) := by
  have hvalid : c.val.toNat < 0xD800 ∨ 0xDFFF < c.val.toNat ∧ c.val.toNat < 0x110000 := c.valid
  simp only [String.utf8EncodeChar]
  generalize c.val.toNat = n at hvalid
  split
  · refine .one ?_
    rw [toNat_ofNat (by omega)]
    omega
  · split
    · refine .two ?_ (tail_low n)
      rw [toNat_ofNat (by omega)]
      omega
    · split
      · refine .three ?_ (tail_low _) (tail_low n) ?_ ?_
        all_goals
          repeat rw [toNat_ofNat (by omega)]
          omega
      · refine .four ?_ (tail_low _) (tail_low _) (tail_low n) ?_ ?_
        all_goals
          repeat rw [toNat_ofNat (by omega)]
          omega

theorem wellFormed_iff {bytes : List UInt8} :
    WellFormed bytes ↔ ∃ cs : List Char, bytes = cs.flatMap String.utf8EncodeChar := by
  constructor
  · intro h
    induction h with
    | nil => exact ⟨[], rfl⟩
    | cons hfirst _ ih =>
      obtain ⟨c, rfl⟩ := hfirst.exists_char
      obtain ⟨cs, rfl⟩ := ih
      exact ⟨c :: cs, rfl⟩
  · rintro ⟨cs, rfl⟩
    induction cs with
    | nil => exact .nil
    | cons c rest ih =>
      rw [List.flatMap_cons]
      exact .cons (character_utf8EncodeChar c) ih

end Utf8

namespace Bytes

theorem text?_toUTF8 (s : String) : text? s.toUTF8.data.toList = some s := by
  simp only [text?, Array.toArray_toList, String.fromUTF8?, String.toUTF8_eq_toByteArray]
  rw [dif_pos s.isValidUTF8]
  rfl

theorem toUTF8_of_text? {bytes : List UInt8} {s : String} (h : text? bytes = some s) :
    s.toUTF8.data.toList = bytes := by
  simp only [text?, String.fromUTF8?] at h
  split at h
  · cases h
    rfl
  · cases h

/-- A text is read from exactly the well-formed sequences. -/
theorem exists_text?_iff {bytes : List UInt8} : (∃ s, text? bytes = some s) ↔ Utf8.WellFormed bytes := by
  have hvalid : (∃ s, text? bytes = some s) ↔ ByteArray.IsValidUTF8 ⟨bytes.toArray⟩ := by
    simp only [text?, String.fromUTF8?]
    split
    · exact iff_of_true ⟨_, rfl⟩ ‹_›
    · exact iff_of_false (by simp) ‹_›
  rw [hvalid, Utf8.wellFormed_iff]
  constructor
  · rintro ⟨cs, hcs⟩
    refine ⟨cs, ?_⟩
    have hdata := congrArg (fun b : ByteArray => b.data.toList) hcs
    rw [List.utf8Encode, List.toList_data_toByteArray] at hdata
    exact hdata
  · rintro ⟨cs, rfl⟩
    refine ⟨cs, ByteArray.ext ?_⟩
    rw [List.utf8Encode, List.data_toByteArray]

end Bytes

instance Utf8.decidableWellFormed (bytes : List UInt8) : Decidable (Utf8.WellFormed bytes) :=
  decidable_of_iff ((Bytes.text? bytes).isSome = true)
    (Option.isSome_iff_exists.trans Bytes.exists_text?_iff)

end Patchbay
