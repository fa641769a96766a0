import Patchbay.Value.Convert

/-!
# Slots

A slot has a name that is not blank, a declared type and a value. Whoever writes a slot gives a value
of the declared type; the mute flag matters for outputs, whose values are then kept to the agent.
-/

namespace Patchbay

structure Slot where
  name : String
  type : ValueType
  value : Value
  muted : Bool := false
  deriving DecidableEq

namespace Slot

def new (name : String) (type : ValueType) : Except Fault Slot :=
  match checkName name with
  | .ok () => .ok { name, type, value := .zero type }
  | .error fault => .error (.naming fault)

def ofValue (name : String) (value : Value) : Except Fault Slot :=
  (new name value.type).map fun s => { s with value }

def size (s : Slot) : Nat := s.value.size

def write (s : Slot) (value : Value) : Except Fault Slot :=
  if value.type = s.type then .ok { s with value }
  else .error (.mistyped s.name s.type value.type)

def clear (s : Slot) : Slot := { s with value := .zero s.type }

def same (a b : Slot) : Bool :=
  a.name == b.name && a.type == b.type && a.value.same b.value && a.muted == b.muted

/-- What holds of every slot: a name that is not blank and a value of the declared type. -/
structure Valid (s : Slot) : Prop where
  named : Text.isBlank s.name = false
  typed : s.value.type = s.type

theorem valid_of_new {name : String} {type : ValueType} {s : Slot} (h : new name type = .ok s) :
    s.Valid := by
  unfold new at h
  split at h
  · rename_i hn
    cases h
    exact ⟨checkName_eq_ok_iff.mp hn, Value.type_zero type⟩
  · cases h

theorem Valid.write {s t : Slot} {v : Value} (hs : s.Valid) (h : s.write v = .ok t) : t.Valid := by
  unfold Slot.write at h
  split at h
  · rename_i hv
    cases h
    exact ⟨hs.named, hv⟩
  · cases h

theorem Valid.clear {s : Slot} (hs : s.Valid) : s.clear.Valid :=
  ⟨hs.named, Value.type_zero s.type⟩

end Slot

end Patchbay
