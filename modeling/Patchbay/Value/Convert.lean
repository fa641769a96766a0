import Patchbay.Value.Wire
import Patchbay.Double.Text

/-!
# Conversions between types

`Value.convert` turns a value into one of another type as well as it can. Numbers in strings are read
after blanks are cut from both ends; a double becomes an integer by rounding to the nearest one, ties
away from zero, and never saturates; everything becomes an impulsion or data. Data become nothing
else, and an impulsion becomes only the empty string.
-/

namespace Patchbay

/-- The integer in a decimal notation with an optional sign, if it fits 64 bits. -/
def integerOfText? (cs : List Char) : Option Int64 :=
  let (negative, digits) := Double.splitSign cs
  if !digits.isEmpty && digits.all Char.isDigit then
    let n : Int := Double.digitsValue digits
    let n := if negative then -n else n
    if Int64.minValue.toInt ≤ n ∧ n ≤ Int64.maxValue.toInt then some (Int64.ofInt n) else none
  else none

namespace Value

def boolName (b : Bool) : String :=
  if b then "true" else "false"

def toInteger? : Value → Option Int64
  | integer n => some n
  | double d => d.toInt64?
  | bool b => some (if b then 1 else 0)
  | string s =>
    let cs := Text.trim s.toList
    match integerOfText? cs with
    | some n => some n
    | none => (Double.ofText? cs).bind Double.toInt64?
  | impulsion => none
  | data _ => none

def toDouble? : Value → Option Double
  | integer n => some (Double.ofInt n.toInt)
  | double d => some d
  | bool b => some (if b then .one else .zero)
  | string s => Double.ofText? (Text.trim s.toList)
  | impulsion => none
  | data _ => none

/-- Zero is false and every other number true, a NaN included. -/
def toBool? : Value → Option Bool
  | integer n => some (n != 0)
  | double d => some !d.isZero
  | bool b => some b
  | string s =>
    let cs := Text.trim s.toList
    let word := String.ofList (Text.lower cs)
    if word == boolName true then some true
    else if word == boolName false then some false
    else (Double.ofText? cs).map fun d => !d.isZero
  | impulsion => none
  | data _ => none

def toString? : Value → Option String
  | integer n => some (toString n.toInt)
  | double d => some (d.text .plain)
  | bool b => some (boolName b)
  | string s => some s
  | impulsion => some ""
  | data _ => none

def orConversion (v : Value) (target : ValueType) : Option α → Except Fault α
  | some a => .ok a
  | none => .error (.conversion v.type target)

def asInteger (v : Value) : Except Fault Int64 := v.orConversion .integer v.toInteger?

def asDouble (v : Value) : Except Fault Double := v.orConversion .double v.toDouble?

def asBool (v : Value) : Except Fault Bool := v.orConversion .bool v.toBool?

def asString (v : Value) : Except Fault String := v.orConversion .string v.toString?

def asData (v : Value) : List UInt8 := v.wire

def convert? (v : Value) : ValueType → Option Value
  | .integer => v.toInteger?.map integer
  | .double => v.toDouble?.map double
  | .string => v.toString?.map string
  | .bool => v.toBool?.map bool
  | .impulsion => some impulsion
  | .data => some (data v.asData)

def convert (v : Value) (target : ValueType) : Except Fault Value :=
  v.orConversion target (v.convert? target)

theorem convert_type (v : Value) : v.convert v.type = .ok v := by
  cases v <;> rfl

theorem type_of_convert {v w : Value} {t : ValueType} (h : v.convert t = .ok w) : w.type = t := by
  have hw : v.convert? t = some w := by
    unfold convert orConversion at h
    split at h <;> simp_all
  cases t with
  | impulsion => cases hw; rfl
  | data => cases hw; rfl
  | integer => obtain ⟨_, _, rfl⟩ := Option.map_eq_some_iff.1 hw; rfl
  | double => obtain ⟨_, _, rfl⟩ := Option.map_eq_some_iff.1 hw; rfl
  | string => obtain ⟨_, _, rfl⟩ := Option.map_eq_some_iff.1 hw; rfl
  | bool => obtain ⟨_, _, rfl⟩ := Option.map_eq_some_iff.1 hw; rfl

end Value

end Patchbay
