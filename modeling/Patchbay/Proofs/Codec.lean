import Patchbay.Proofs.Utf8

/-!
# The wire format

Every value is read back from the wire as it was, bit for bit. In the other direction it depends on the
type which payloads are read: eight bytes for a number, well-formed UTF-8 for a string, one byte for a
bool, and anything for an impulsion or data. A payload is what its value is written as, except that of a
bool only zero or not zero is left, and of an impulsion nothing.
-/

namespace Patchbay

namespace Bytes

theorem word?_littleEndian (w : UInt64) : word? (littleEndian 8 w.toNat) = some w := by
  have hw : w.toNat < 1 <<< (8 * 8) := w.toNat_lt
  rw [word?, if_pos (length_littleEndian 8 w.toNat), ofLittleEndian_littleEndian, Nat.mod_eq_of_lt hw,
    UInt64.ofNat_toNat]

theorem littleEndian_of_word? {bytes : List UInt8} {w : UInt64} (h : word? bytes = some w) :
    littleEndian 8 w.toNat = bytes := by
  simp only [word?] at h
  split at h
  · rename_i hlength
    cases h
    have hlt : ofLittleEndian bytes < 1 <<< (8 * bytes.length) := ofLittleEndian_lt bytes
    rw [hlength] at hlt
    have hword : (UInt64.ofNat (ofLittleEndian bytes)).toNat = ofLittleEndian bytes := by
      rw [UInt64.toNat_ofNat']
      exact Nat.mod_eq_of_lt hlt
    rw [hword, ← hlength]
    exact littleEndian_ofLittleEndian bytes
  · cases h

theorem exists_word?_iff {bytes : List UInt8} : (∃ w, word? bytes = some w) ↔ bytes.length = 8 := by
  simp only [word?]
  split
  · exact iff_of_true ⟨_, rfl⟩ ‹_›
  · exact iff_of_false (by simp) ‹_›

end Bytes

namespace Value

/-- The payloads that are read as values of a type. -/
def Fits : ValueType → List UInt8 → Prop
  | .integer, bytes => bytes.length = 8
  | .double, bytes => bytes.length = 8
  | .string, bytes => Utf8.WellFormed bytes
  | .bool, bytes => bytes.length = 1
  | .impulsion, _ => True
  | .data, _ => True

/-- What a payload comes to when it is read and written again. -/
def rewritten : ValueType → List UInt8 → List UInt8
  | .bool, bytes => bytes.map fun b => if b = 0 then 0 else 1
  | .impulsion, _ => []
  | .integer, bytes => bytes
  | .double, bytes => bytes
  | .string, bytes => bytes
  | .data, bytes => bytes

theorem ofWire_eq_ok_iff {t : ValueType} {bytes : List UInt8} {v : Value} :
    ofWire t bytes = .ok v ↔ decode? t bytes = some v := by
  simp only [ofWire]
  cases decode? t bytes <;> simp

theorem decode?_wire (v : Value) : decode? v.type v.wire = some v := by
  cases v with
  | integer n =>
    simp only [type, wire, decode?, Bytes.word?_littleEndian, Option.map_some, Int64.toInt64_toUInt64]
  | double d => simp only [type, wire, decode?, Bytes.word?_littleEndian, Option.map_some]
  | string s => simp only [type, wire, decode?, Bytes.text?_toUTF8, Option.map_some]
  | bool b => cases b <;> rfl
  | impulsion => rfl
  | data bytes => rfl

theorem exists_decode?_iff {t : ValueType} {bytes : List UInt8} :
    (∃ v, decode? t bytes = some v) ↔ Fits t bytes := by
  rw [← Option.isSome_iff_exists]
  cases t with
  | integer | double =>
    rw [decode?, Option.isSome_map, Option.isSome_iff_exists]
    exact Bytes.exists_word?_iff
  | string =>
    rw [decode?, Option.isSome_map, Option.isSome_iff_exists]
    exact Bytes.exists_text?_iff
  | bool =>
    rw [Fits]
    cases bytes with
    | nil => simp [decode?]
    | cons b rest => cases rest <;> simp [decode?]
  | impulsion => exact iff_of_true rfl trivial
  | data => exact iff_of_true rfl trivial

theorem wire_of_decode? {t : ValueType} {bytes : List UInt8} {v : Value} (h : decode? t bytes = some v) :
    v.wire = rewritten t bytes := by
  cases t with
  | integer =>
    obtain ⟨w, hw, rfl⟩ := Option.map_eq_some_iff.mp h
    rw [wire, UInt64.toUInt64_toInt64]
    exact Bytes.littleEndian_of_word? hw
  | double =>
    obtain ⟨w, hw, rfl⟩ := Option.map_eq_some_iff.mp h
    exact Bytes.littleEndian_of_word? hw
  | string =>
    obtain ⟨s, hs, rfl⟩ := Option.map_eq_some_iff.mp h
    exact Bytes.toUTF8_of_text? hs
  | bool =>
    cases bytes with
    | nil => cases h
    | cons b rest =>
      cases rest with
      | nil =>
        cases h
        by_cases hb : b = 0 <;> simp [wire, rewritten, hb]
      | cons c rest => cases h
  | impulsion =>
    cases h
    rfl
  | data =>
    cases h
    rfl

theorem rewritten_eq {t : ValueType} (hbool : t ≠ .bool) (himpulsion : t ≠ .impulsion)
    (bytes : List UInt8) : rewritten t bytes = bytes := by
  cases t with
  | bool => exact absurd rfl hbool
  | impulsion => exact absurd rfl himpulsion
  | _ => rfl

/-- A value is read back from the wire as it was, and takes as many bytes as its size says. A payload is
read as a value of a type if and only if it fits the type. The value then has that type, and is written as
the payload, or as what is left of it for bools and impulsions; so for the other types no two payloads are
read as one value. -/
theorem wire_codec :
    (∀ v : Value, ofWire v.type v.wire = .ok v ∧ v.wire.length = v.size) ∧
    ∀ t bytes, ((∃ v, ofWire t bytes = .ok v) ↔ Fits t bytes) ∧
      (∀ v, ofWire t bytes = .ok v → v.type = t ∧ v.wire = rewritten t bytes) ∧
      (t ≠ .bool → t ≠ .impulsion → rewritten t bytes = bytes ∧
        ∀ v other, ofWire t bytes = .ok v → ofWire t other = .ok v → bytes = other) := by
  simp only [ofWire_eq_ok_iff]
  refine ⟨fun v => ⟨decode?_wire v, size_wire v⟩, fun t bytes => ⟨exists_decode?_iff, ?_, ?_⟩⟩
  · exact fun v h => ⟨type_of_decode? h, wire_of_decode? h⟩
  · intro hbool himpulsion
    refine ⟨rewritten_eq hbool himpulsion bytes, fun v other h hother => ?_⟩
    calc bytes = rewritten t bytes := (rewritten_eq hbool himpulsion bytes).symm
      _ = v.wire := (wire_of_decode? h).symm
      _ = rewritten t other := wire_of_decode? hother
      _ = other := rewritten_eq hbool himpulsion other

/-- An overlong form, a surrogate, a character that breaks off, and a number that is too large. -/
def garbled : List (List UInt8) :=
  [[0xC0, 0x80], [0xED, 0xA0, 0x80], [0xE2, 0x82], [0xF4, 0x90, 0x80, 0x80]]

/-- An accent keeps its two bytes and a NaN its payload, and any byte but zero is the same bool. -/
theorem accent_read :
    (∃ v, ofWire .string [0xC3, 0xA9] = .ok v ∧ v.type = .string ∧ v.wire = [0xC3, 0xA9]) ∧
      (∀ bytes ∈ garbled, ¬∃ v, ofWire .string bytes = .ok v) ∧
      ofWire .double (double ⟨0x7FF8000000000001⟩).wire = .ok (double ⟨0x7FF8000000000001⟩) ∧
      ∃ v, ofWire .bool [7] = .ok v ∧ v.wire = [1] := by
  obtain ⟨hvalues, hpayloads⟩ := wire_codec
  have haccent : Utf8.WellFormed [0xC3, 0xA9] := by decide
  have hgarbled : ∀ bytes ∈ garbled, ¬Utf8.WellFormed bytes := by decide
  obtain ⟨v, hv⟩ := (hpayloads .string [0xC3, 0xA9]).1.mpr haccent
  obtain ⟨htype, hwire⟩ := (hpayloads .string [0xC3, 0xA9]).2.1 v hv
  obtain ⟨w, hw⟩ := (hpayloads .bool [7]).1.mpr rfl
  exact ⟨⟨v, hv, htype, hwire⟩, fun bytes hmem h => hgarbled bytes hmem ((hpayloads .string bytes).1.mp h),
    (hvalues (double ⟨0x7FF8000000000001⟩)).1, w, hw, ((hpayloads .bool [7]).2.1 w hw).2⟩

end Value

end Patchbay
