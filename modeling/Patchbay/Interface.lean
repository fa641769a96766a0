import Patchbay.Slot

/-!
# Interfaces

An interface lists the inputs, outputs and parameters of something, each kind in the order of
declaration. Names are distinct within a kind, and the same name may stand in all three. The view of
an interface is `slots`; `find?` looks up a name in it.
-/

namespace Patchbay

structure Interface where
  inputs : List Slot := []
  outputs : List Slot := []
  parameters : List Slot := []
  deriving DecidableEq

namespace Interface

def empty : Interface := {}

def slots (i : Interface) : SlotKind → List Slot
  | .input => i.inputs
  | .output => i.outputs
  | .parameter => i.parameters

def withSlots (i : Interface) (kind : SlotKind) (slots : List Slot) : Interface :=
  match kind with
  | .input => { i with inputs := slots }
  | .output => { i with outputs := slots }
  | .parameter => { i with parameters := slots }

def find? (i : Interface) (kind : SlotKind) (name : String) : Option Slot :=
  (i.slots kind).find? (·.name == name)

def contains (i : Interface) (kind : SlotKind) (name : String) : Bool :=
  (i.slots kind).any (·.name == name)

def names (i : Interface) (kind : SlotKind) : List String :=
  (i.slots kind).map (·.name)

def count (i : Interface) (kind : SlotKind) : Nat :=
  (i.slots kind).length

def isEmpty (i : Interface) : Bool :=
  i.inputs.isEmpty && i.outputs.isEmpty && i.parameters.isEmpty

/-- Every slot with its kind: inputs, then outputs, then parameters. -/
def all (i : Interface) : List (SlotKind × Slot) :=
  SlotKind.all.flatMap fun kind => (i.slots kind).map (kind, ·)

def get (i : Interface) (kind : SlotKind) (name : String) : Except Fault Slot :=
  match i.find? kind name with
  | some s => .ok s
  | none => .error (.unknownSlot kind name)

def insert (i : Interface) (kind : SlotKind) (s : Slot) : Except Fault Interface :=
  if i.contains kind s.name then .error (.naming (.taken s.name))
  else .ok (i.withSlots kind (i.slots kind ++ [s]))

def erase (i : Interface) (kind : SlotKind) (name : String) : Interface :=
  i.withSlots kind ((i.slots kind).filter (·.name != name))

def remove (i : Interface) (kind : SlotKind) (name : String) : Except Fault (Slot × Interface) :=
  (i.get kind name).map fun s => (s, i.erase kind name)

def replace (i : Interface) (kind : SlotKind) (s : Slot) : Interface :=
  i.withSlots kind ((i.slots kind).map fun t => if t.name == s.name then s else t)

def update (i : Interface) (kind : SlotKind) (name : String) (change : Slot → Except Fault Slot) :
    Except Fault (Slot × Interface) := do
  let s ← i.get kind name
  let t ← change s
  return (t, i.replace kind t)

/-- Equality that heeds neither the order of declaration nor the sign of zero. -/
def same (a b : Interface) : Bool :=
  SlotKind.all.all fun kind =>
    (a.slots kind).length == (b.slots kind).length &&
      (a.slots kind).all fun s => (b.find? kind s.name).any s.same

@[simp] theorem slots_withSlots_self (i : Interface) (kind : SlotKind) (ss : List Slot) :
    (i.withSlots kind ss).slots kind = ss := by
  cases kind <;> rfl

theorem slots_withSlots_of_ne {i : Interface} {kind other : SlotKind} {ss : List Slot}
    (h : other ≠ kind) : (i.withSlots kind ss).slots other = i.slots other := by
  cases kind <;> cases other <;> first | rfl | exact absurd rfl h

theorem contains_eq_isSome_find? (i : Interface) (kind : SlotKind) (name : String) :
    i.contains kind name = (i.find? kind name).isSome := by
  simp [contains, find?, List.isSome_find?]

theorem contains_iff_mem_names {i : Interface} {kind : SlotKind} {name : String} :
    i.contains kind name = true ↔ name ∈ i.names kind := by
  simp only [contains, names, List.any_eq_true, List.mem_map, beq_iff_eq]

theorem mem_all {i : Interface} {kind : SlotKind} {s : Slot} :
    (kind, s) ∈ i.all ↔ s ∈ i.slots kind := by
  constructor
  · intro h
    obtain ⟨k, _, hs⟩ := List.mem_flatMap.mp h
    obtain ⟨t, ht, heq⟩ := List.mem_map.mp hs
    cases heq
    exact ht
  · intro h
    exact List.mem_flatMap.mpr ⟨kind, SlotKind.mem_all kind, List.mem_map.mpr ⟨s, h, rfl⟩⟩

end Interface

end Patchbay
