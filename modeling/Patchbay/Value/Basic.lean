import Patchbay.Fault
import Patchbay.Double.Basic

/-!
# Values

A slot holds a value of one of six types. An impulsion has no content: it only says that something
happened. `Value.same` is equality as the numbers see it, where `0.0` and `-0.0` agree and a NaN
differs from itself; equality of values as such is equality of bits.
-/

namespace Patchbay

inductive Value
  | integer (n : Int64)
  | double (d : Double)
  | string (s : String)
  | bool (b : Bool)
  | impulsion
  | data (bytes : List UInt8)
  deriving DecidableEq

namespace Value

def type : Value → ValueType
  | integer _ => .integer
  | double _ => .double
  | string _ => .string
  | bool _ => .bool
  | impulsion => .impulsion
  | data _ => .data

def zero : ValueType → Value
  | .integer => integer 0
  | .double => double .zero
  | .string => string ""
  | .bool => bool false
  | .impulsion => impulsion
  | .data => data []

def size : Value → Nat
  | integer _ => 8
  | double _ => 8
  | string s => s.utf8ByteSize
  | bool _ => 1
  | impulsion => 0
  | data bytes => bytes.length

def same : Value → Value → Bool
  | double a, double b => a.same b
  | a, b => a == b

def isFinite : Value → Bool
  | double d => d.isFinite
  | _ => true

@[simp] theorem type_zero (t : ValueType) : (zero t).type = t := by cases t <;> rfl

end Value

end Patchbay
