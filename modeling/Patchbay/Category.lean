import Patchbay.Interface

/-!
# Categories

A category is a named and versioned bundle of slots that definitions adopt as a whole. Its slots are
templates: they give names, types and first values.
-/

namespace Patchbay

structure Category where
  name : String
  version : String := ""
  slots : Interface := {}
  deriving DecidableEq

namespace Category

def new (name version : String) : Except Fault Category :=
  match checkName name with
  | .ok () => .ok { name, version }
  | .error fault => .error (.naming fault)

def withSlot (c : Category) (kind : SlotKind) (s : Slot) : Except Fault Category :=
  (c.slots.insert kind s).map fun slots => { c with slots }

def same (a b : Category) : Bool :=
  a.name == b.name && a.version == b.version && a.slots.same b.slots

end Category

end Patchbay
