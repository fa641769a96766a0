import Patchbay.Definition.Basic

/-!
# Compatibility of definitions

A definition satisfies a category if its effective set has a slot of the same name, kind and type for
every template; values, mute flags and versions do not matter, and further slots do no harm. Two
definitions are identical if they have the same name and version, the same calls and the same slots by
name, kind and type, however these are declared.
-/

namespace Patchbay

inductive Scope
  | everything
  | outputs
  | inputs
  deriving DecidableEq

namespace Scope

def all : List Scope := [everything, outputs, inputs]

def name : Scope → String
  | everything => "global"
  | outputs => "output_only"
  | inputs => "input_only"

def ofName? (s : String) : Option Scope :=
  all.find? (·.name == s)

def kinds : Scope → List SlotKind
  | everything => SlotKind.all
  | outputs => [.output]
  | inputs => [.input]

end Scope

def Slot.fits (s template : Slot) : Bool :=
  s.name == template.name && s.type == template.type

namespace Definition

def satisfies (d : Definition) (c : Category) (scope : Scope) : Bool :=
  scope.kinds.all fun kind =>
    (c.slots.slots kind).all fun template => (d.find? kind template.name).any (·.fits template)

def declarations (d : Definition) (kind : SlotKind) : List (String × ValueType) :=
  (d.effective kind).map fun s => (s.name, s.type)

def signatures (d : Definition) : List (String × List (String × ValueType)) :=
  d.calls.map fun c => (c.name, c.signature)

end Definition

def sameMembers [DecidableEq α] (a b : List α) : Bool :=
  a.all (· ∈ b) && b.all (· ∈ a)

def Definition.identical (a b : Definition) : Bool :=
  a.name == b.name && a.version == b.version && sameMembers a.signatures b.signatures &&
    SlotKind.all.all fun kind => sameMembers (a.declarations kind) (b.declarations kind)

theorem sameMembers_iff [DecidableEq α] {a b : List α} :
    sameMembers a b = true ↔ ∀ x, x ∈ a ↔ x ∈ b := by
  simp only [sameMembers, Bool.and_eq_true, List.all_eq_true, decide_eq_true_eq]
  exact ⟨fun h x => ⟨h.1 x, h.2 x⟩, fun h => ⟨fun x => (h x).mp, fun x => (h x).mpr⟩⟩

end Patchbay
