import Patchbay.Registry
import Patchbay.Wiring.Basic

/-!
# Agents

An agent has a definition, the live slots that the definition declares, the wiring of its inputs, and
what it knows of peers and categories. `ρ` is how observers are told apart. After every change of what
links depend on, the agent resolves its wiring; what it then asks of the network follows from the
changes of its subscriptions.

An operation that ends in a fault returns the agent as it stands then. `Act` keeps both, with the
effects in their order.
-/

namespace Patchbay

structure Config where
  name : String
  eventBuffer : Nat := 1024
  /-- Resolve again when a value arrives whose type is not that of the input. -/
  resolveOnMismatch : Bool := true
  /-- Ask each publisher newly subscribed to send its present value. -/
  requestOutputs : Bool := false
  deriving DecidableEq

structure FlagObserver (ρ : Type) where
  id : Nat
  who : ρ

structure Agent (ρ : Type) where
  config : Config
  definition : Definition
  registry : Registry ρ := {}
  wiring : Wiring := {}
  peers : Peers := .empty
  catalog : Catalog := .empty
  state : String := ""
  muted : Bool := false
  frozen : Bool := false
  muteObservers : List (FlagObserver ρ) := []
  freezeObservers : List (FlagObserver ρ) := []

/-- The outcome of an operation: the agent afterwards, what was asked of the network, and the result. -/
structure Act (ρ α : Type) where
  agent : Agent ρ
  sent : List Effect
  result : Except Fault α

def Change.effects (changes : List Change) : List Effect :=
  changes.map .subscription

def Change.requests (changes : List Change) : List Effect :=
  (changes.filter (·.active)).map fun c => .request c.agent c.output

namespace Agent

variable {ρ α : Type}

def done (a : Agent ρ) (x : α) : Act ρ α := ⟨a, [], .ok x⟩

def fail (a : Agent ρ) (fault : Fault) : Act ρ α := ⟨a, [], .error fault⟩

def scene (a : Agent ρ) : Scene :=
  ⟨a.registry.table, a.peers, a.catalog⟩

def resolve (a : Agent ρ) : Act ρ (List Change) :=
  let (wiring, changes) := a.wiring.resolve a.scene
  { agent := { a with wiring }
    sent := Change.effects changes ++
      if a.config.requestOutputs then Change.requests changes else []
    result := .ok changes }

def setState (a : Agent ρ) (state : String) : Agent ρ :=
  { a with state }

def setRequestOutputs (a : Agent ρ) (enabled : Bool) : Agent ρ :=
  { a with config := { a.config with requestOutputs := enabled } }

def checkWritable (a : Agent ρ) (kind : SlotKind) : Except Fault Unit :=
  if a.frozen && kind == .input then .error .frozen else .ok ()

def publication (a : Agent ρ) (kind : SlotKind) (name : String) : List Effect :=
  if kind = .output then
    match a.registry.find? kind name with
    | none => []
    | some s => if a.muted || s.muted then [] else [.publish s.name s.type s.value.wire]
  else []

/-- The definition with the values and mute flags that the agent's own slots have now. -/
def exportDefinition (a : Agent ρ) : Except Fault Definition := do
  let d ← Definition.new a.definition.name
  let d := { d with description := a.definition.description, version := a.definition.version }
  let d ← a.definition.categories.foldlM Definition.addCategory d
  let d ← a.definition.calls.foldlM Definition.addCall d
  a.definition.own.all.foldlM (fun d (kind, s) =>
    d.addSlot kind ((a.registry.find? kind s.name).getD s)) d

end Agent

end Patchbay
