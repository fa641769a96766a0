import Patchbay.Text.Blank

/-!
# Kinds of slot and types of value

An agent has inputs, outputs and parameters, and every slot is declared with one of six types. Both
enumerations are written by name; a type may also be typed by hand in any case and with blanks around.
-/

namespace Patchbay

inductive SlotKind
  | input
  | output
  | parameter
  deriving DecidableEq, Inhabited

namespace SlotKind

def all : List SlotKind := [input, output, parameter]

def name : SlotKind → String
  | input => "input"
  | output => "output"
  | parameter => "parameter"

def ofName? (s : String) : Option SlotKind :=
  all.find? (·.name == s)

theorem mem_all (k : SlotKind) : k ∈ all := by cases k <;> decide

theorem ofName?_name (k : SlotKind) : ofName? k.name = some k := by cases k <;> decide

end SlotKind

inductive ValueType
  | integer
  | double
  | string
  | bool
  | impulsion
  | data
  deriving DecidableEq, Inhabited

namespace ValueType

def all : List ValueType := [integer, double, string, bool, impulsion, data]

def name : ValueType → String
  | integer => "integer"
  | double => "double"
  | string => "string"
  | bool => "bool"
  | impulsion => "impulsion"
  | data => "data"

def ofName? (s : String) : Option ValueType :=
  all.find? (·.name == s)

def ofText? (s : String) : Option ValueType :=
  ofName? (String.ofList (Text.lower (Text.trim s.toList)))

theorem mem_all (t : ValueType) : t ∈ all := by cases t <;> decide

theorem ofName?_name (t : ValueType) : ofName? t.name = some t := by cases t <;> decide

end ValueType

end Patchbay
