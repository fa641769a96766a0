import Patchbay.Value.Basic

/-!
# Values on the wire

Numbers travel as eight bytes, the least significant first; a string as its UTF-8; a bool as one byte,
any but zero meaning true; an impulsion as nothing; data as it is. The type is not part of the
payload, so it is given when a payload is decoded.
-/

namespace Patchbay

namespace Bytes

/-- The lowest `count` bytes of a natural, the least significant first. -/
def littleEndian : Nat → Nat → List UInt8
  | 0, _ => []
  | count + 1, n => UInt8.ofNat n :: littleEndian count (n / 256)

def ofLittleEndian : List UInt8 → Nat
  | [] => 0
  | b :: bytes => b.toNat + 256 * ofLittleEndian bytes

@[simp] theorem length_littleEndian (count n : Nat) : (littleEndian count n).length = count := by
  induction count generalizing n with
  | zero => rfl
  | succ count ih => simp [littleEndian, ih]

theorem one_shiftLeft_byte (count : Nat) : 1 <<< (8 * (count + 1)) = 256 * (1 <<< (8 * count)) := by
  simp only [Nat.shiftLeft_eq, Nat.one_mul]
  rw [Nat.mul_add, Nat.pow_add, Nat.mul_comm]

theorem ofLittleEndian_lt (bytes : List UInt8) :
    ofLittleEndian bytes < 1 <<< (8 * bytes.length) := by
  induction bytes with
  | nil => decide
  | cons b bytes ih =>
    have hb := b.toNat_lt
    rw [List.length_cons, one_shiftLeft_byte, ofLittleEndian]
    omega

theorem ofLittleEndian_littleEndian (count n : Nat) :
    ofLittleEndian (littleEndian count n) = n % (1 <<< (8 * count)) := by
  induction count generalizing n with
  | zero => exact (Nat.mod_one n).symm
  | succ count ih =>
    have low : (UInt8.ofNat n).toNat = n % 256 := UInt8.toNat_ofNat'
    simp only [littleEndian, ofLittleEndian, ih, low]
    rw [one_shiftLeft_byte, Nat.mod_mul]

theorem littleEndian_ofLittleEndian (bytes : List UInt8) :
    littleEndian bytes.length (ofLittleEndian bytes) = bytes := by
  induction bytes with
  | nil => rfl
  | cons b bytes ih =>
    have hb := b.toNat_lt
    have head : UInt8.ofNat (b.toNat + 256 * ofLittleEndian bytes) = b := by
      apply UInt8.toNat_inj.mp
      simp only [UInt8.toNat_ofNat']
      omega
    have tail : (b.toNat + 256 * ofLittleEndian bytes) / 256 = ofLittleEndian bytes := by omega
    simp only [List.length_cons, ofLittleEndian, littleEndian, head, tail, ih]

def word? (bytes : List UInt8) : Option UInt64 :=
  if bytes.length = 8 then some (UInt64.ofNat (ofLittleEndian bytes)) else none

def text? (bytes : List UInt8) : Option String :=
  String.fromUTF8? ⟨bytes.toArray⟩

end Bytes

namespace Value

def wire : Value → List UInt8
  | integer n => Bytes.littleEndian 8 n.toUInt64.toNat
  | double d => Bytes.littleEndian 8 d.bits.toNat
  | string s => s.toUTF8.data.toList
  | bool b => [if b then 1 else 0]
  | impulsion => []
  | data bytes => bytes

def decode? : ValueType → List UInt8 → Option Value
  | .integer, bytes => (Bytes.word? bytes).map fun w => integer w.toInt64
  | .double, bytes => (Bytes.word? bytes).map fun w => double ⟨w⟩
  | .string, bytes => (Bytes.text? bytes).map string
  | .bool, [byte] => some (bool (byte != 0))
  | .bool, _ => none
  | .impulsion, _ => some impulsion
  | .data, bytes => some (data bytes)

/-- Decodes a payload as a value of the type; a payload that does not fit counts as data that cannot
be converted. -/
def ofWire (t : ValueType) (bytes : List UInt8) : Except Fault Value :=
  match decode? t bytes with
  | some v => .ok v
  | none => .error (.conversion .data t)

theorem size_wire (v : Value) : v.wire.length = v.size := by
  cases v <;> simp [wire, size]

theorem type_of_decode? {t : ValueType} {bytes : List UInt8} {v : Value} (h : decode? t bytes = some v) :
    v.type = t := by
  unfold decode? at h
  split at h
  case h_1 => obtain ⟨_, _, rfl⟩ := Option.map_eq_some_iff.1 h; rfl
  case h_2 => obtain ⟨_, _, rfl⟩ := Option.map_eq_some_iff.1 h; rfl
  case h_3 => obtain ⟨_, _, rfl⟩ := Option.map_eq_some_iff.1 h; rfl
  case h_4 => cases h; rfl
  case h_5 => cases h
  case h_6 => cases h; rfl
  case h_7 => cases h; rfl

end Value

end Patchbay
