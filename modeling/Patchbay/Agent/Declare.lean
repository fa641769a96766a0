import Patchbay.Agent.Basic
import Patchbay.Document.Definition

/-!
# Declaring the interface of an agent

The operations on the definition of an agent, its categories, calls and slots. Definition and live
slots are changed side by side, and the wiring is resolved whenever inputs or categories may have
changed.
-/

namespace Patchbay.Agent

variable {ρ : Type}

/-- Replaces the definition. The live slots start from its values; observers and rules stay. -/
def loadDefinition (a : Agent ρ) (d : Definition) : Act ρ (List Change) :=
  match d.validate with
  | .error fault => a.fail fault
  | .ok () =>
    match d.interface with
    | .error why => a.fail (.malformed why)
    | .ok table => resolve { a with definition := d, registry := a.registry.withTable table }

def loadDefinitionText (a : Agent ρ) (s : String) : Act ρ (List Change) :=
  match Definition.ofText s with
  | .error fault => a.fail fault
  | .ok d => a.loadDefinition d

def clearDefinition (a : Agent ρ) : Act ρ (List Change) :=
  match Definition.new a.definition.name with
  | .error fault => a.fail fault
  | .ok d => resolve { a with definition := d, registry := a.registry.withTable {} }

def setDefinitionName (a : Agent ρ) (name : String) : Act ρ Unit :=
  match checkName name with
  | .error fault => a.fail (.naming fault)
  | .ok () => done { a with definition := { a.definition with name } } ()

def describeDefinition (a : Agent ρ) (description version : String) : Agent ρ :=
  { a with definition := { a.definition with description, version } }

def addCategory (a : Agent ρ) (c : Category) : Act ρ (List Change) :=
  match a.definition.addCategory c with
  | .error fault => a.fail fault
  | .ok d =>
    match Registry.createAll c.slots.all a.registry with
    | (registry, .error fault) => fail { a with definition := d, registry } fault
    | (registry, .ok ()) => resolve { a with definition := d, registry }

def registerCategory (a : Agent ρ) (c : Category) : Act ρ (List Change) :=
  resolve { a with catalog := a.catalog.register c }

def unregisterCategory (a : Agent ρ) (name : String) : Act ρ (List Change) :=
  match a.catalog.find? name with
  | none => a.done []
  | some _ => resolve { a with catalog := a.catalog.unregister name }

def withDefinition (a : Agent ρ) : Except Fault Definition → Act ρ Unit
  | .error fault => a.fail fault
  | .ok d => done { a with definition := d } ()

def addCall (a : Agent ρ) (c : Call) : Act ρ Unit :=
  a.withDefinition (a.definition.addCall c)

def removeCall (a : Agent ρ) (name : String) : Act ρ Call :=
  match a.definition.removeCall name with
  | .error fault => a.fail fault
  | .ok (c, d) => done { a with definition := d } c

def addArgument (a : Agent ρ) (call argument : String) (type : ValueType) : Act ρ Unit :=
  a.withDefinition (a.definition.addArgument call argument type)

def removeArgument (a : Agent ρ) (call argument : String) : Act ρ Unit :=
  a.withDefinition (a.definition.removeArgument call argument)

/-- Resolves after a change of slots of the given kind, of which only inputs matter for links. -/
def resolveFor (a : Agent ρ) (kind : SlotKind) : Act ρ (List Change) :=
  if kind = .input then a.resolve else a.done []

def createSlot (a : Agent ρ) (kind : SlotKind) (name : String) (type : ValueType)
    (initial : Option Value) : Act ρ (List Change) :=
  match a.registry.create kind name type initial with
  | .error fault => a.fail fault
  | .ok (s, registry) =>
    match a.definition.addSlot kind s with
    | .ok d => resolveFor { a with definition := d, registry } kind
    | .error fault =>
      match registry.remove kind name with
      | .ok (_, registry) => fail { a with registry } fault
      | .error fault => fail { a with registry } fault

def removeSlot (a : Agent ρ) (kind : SlotKind) (name : String) : Act ρ (List Change) :=
  match a.definition.removeSlot kind name with
  | .error fault => a.fail fault
  | .ok (_, d) =>
    match a.registry.remove kind name with
    | .error fault => fail { a with definition := d } fault
    | .ok (_, registry) => resolveFor { a with definition := d, registry } kind

def withRegistry (a : Agent ρ) : Except Fault (Registry ρ) → Act ρ Unit
  | .error fault => a.fail fault
  | .ok registry => done { a with registry } ()

/-- Goes back to the first value of the type, of which nobody hears. -/
def clearSlot (a : Agent ρ) (kind : SlotKind) (name : String) : Act ρ Unit :=
  a.withRegistry (a.registry.clear kind name)

def setOutputMuted (a : Agent ρ) (name : String) (muted : Bool) : Act ρ Unit :=
  a.withRegistry (a.registry.setMuted .output name muted)

def observe (a : Agent ρ) (kind : SlotKind) (name : String) (who : ρ) : Act ρ Nat :=
  match a.registry.observe kind name who with
  | .error fault => a.fail fault
  | .ok (id, registry) => done { a with registry } id

def observeAll (a : Agent ρ) (who : ρ) : Act ρ Nat :=
  let (id, registry) := a.registry.observeAll who
  done { a with registry } id

def observeMute (a : Agent ρ) (who : ρ) : Act ρ Nat :=
  let (id, registry) := a.registry.reserve
  done { a with registry, muteObservers := a.muteObservers ++ [⟨id, who⟩] } id

def observeFreeze (a : Agent ρ) (who : ρ) : Act ρ Nat :=
  let (id, registry) := a.registry.reserve
  done { a with registry, freezeObservers := a.freezeObservers ++ [⟨id, who⟩] } id

def unobserve (a : Agent ρ) (id : Nat) : Act ρ Bool :=
  if a.registry.hasObserver id then done { a with registry := a.registry.unobserve id } true
  else
    let known := a.muteObservers.any (·.id == id) || a.freezeObservers.any (·.id == id)
    done { a with
      muteObservers := a.muteObservers.filter (·.id != id)
      freezeObservers := a.freezeObservers.filter (·.id != id) } known

end Patchbay.Agent
