import Patchbay.Kind
import Patchbay.Text.Quoted

/-!
# Faults

What can go wrong, as causes. Each operation of the library fails with a `Fault`; a `Fault` holds the
names and types involved, and `Fault.message` is its wording.

A document fails either in its form, for which there is one cause without details, or in a rule about
what it declares.
-/

namespace Patchbay

inductive NameFault
  | blank (name : String)
  | taken (name : String)
  deriving DecidableEq

inductive Flaw
  /-- The text is not JSON, or not of the form that was asked for. -/
  | form
  | naming (fault : NameFault)
  | mistyped (name : String) (expected actual : ValueType)
  deriving DecidableEq

inductive Malformed
  | nameless
  | categoryTwice (category : String)
  | call (call : String) (fault : NameFault)
  | callTwice (call : String)
  | collision (kind : SlotKind) (name category : String)
  | contributed (kind : SlotKind) (name category : String)
  | document (flaw : Flaw)
  deriving DecidableEq

inductive Fault
  | naming (fault : NameFault)
  | unknownSlot (kind : SlotKind) (name : String)
  | mistyped (name : String) (expected actual : ValueType)
  | conversion (source target : ValueType)
  | unknownCall (name : String)
  | unknownArgument (call argument : String)
  | unknownEntry (id : Nat)
  | unknownFeed (input agent output : String)
  | malformed (why : Malformed)
  | frozen
  | unknownType (text : String)
  | document (flaw : Flaw)
  deriving DecidableEq

namespace NameFault

def message : NameFault → String
  | blank name => s!"invalid name: {Text.quoted name}"
  | taken name => s!"duplicate name: {name}"

end NameFault

def mistypedMessage (name : String) (expected actual : ValueType) : String :=
  s!"type mismatch on {name}: expected {expected.name}, got {actual.name}"

def malformedMessage (why : String) : String :=
  s!"malformed definition: {why}"

namespace Flaw

def message : Flaw → String
  | form => "unreadable document"
  | naming fault => fault.message
  | mistyped name expected actual => malformedMessage (mistypedMessage name expected actual)

end Flaw

namespace Malformed

def message : Malformed → String
  | nameless => "definition name is empty"
  | categoryTwice category => s!"category {category} referenced twice"
  | call name fault => s!"call {name}: {fault.message}"
  | callTwice name => s!"call {name} declared twice"
  | collision kind name category =>
    s!"{kind.name} {name} from category {category} collides with another declaration"
  | contributed kind name category => s!"{kind.name} {name} is declared by category {category}"
  | document flaw => flaw.message

end Malformed

namespace Fault

def message : Fault → String
  | naming fault => fault.message
  | unknownSlot kind name => s!"unknown {kind.name}: {name}"
  | mistyped name expected actual => mistypedMessage name expected actual
  | conversion source target => s!"cannot convert {source.name} value to {target.name}"
  | unknownCall name => s!"unknown call: {name}"
  | unknownArgument call argument => s!"unknown argument {argument} of call {call}"
  | unknownEntry id => s!"unknown mapping entry: {id}"
  | unknownFeed input agent output => s!"unknown mapping entry: {input} <- {agent}.{output}"
  | malformed why => malformedMessage why.message
  | frozen => "agent is frozen"
  | unknownType text => s!"serialization error: unknown value type: {text}"
  | document flaw => s!"serialization error: {flaw.message}"

def isForm (fault : Fault) : Bool :=
  fault == .document .form || fault == .malformed (.document .form)

end Fault

def checkName (name : String) : Except NameFault Unit :=
  if Text.isBlank name then .error (.blank name) else .ok ()

theorem checkName_eq_ok_iff {name : String} : checkName name = .ok () ↔ Text.isBlank name = false := by
  unfold checkName; split <;> simp_all

end Patchbay
