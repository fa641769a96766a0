import Patchbay.Document.Definition
import Patchbay.Event

/-!
# Documents of events

An event is an object that names its type in a field of its own, wherever that field stands, or an
array that starts with the type and gives the fields in their order. All of it is taken up whole.
-/

namespace Patchbay

namespace Json

structure Tagged where
  tag : Option String := none
  kept : List (String × Json) := []

def Tagged.field (t : Tagged) : String → Json → Except Flaw Tagged
  | "type", j => (once asText t.tag j).map fun tag => { t with tag }
  | key, j => (keep t.kept key j).map fun kept => { t with kept }

def asTagged : Decoder (String × Json)
  | object fields => do
    let t ← foldFields Tagged.field {} fields
    return (← required t.tag, object t.kept)
  | array (tag :: items) => do
    let tag ← asText tag
    if items.all isReadable then return (tag, array items) else throw .form
  | _ => .error .form

end Json

structure EventDraft where
  agent : Option String := none
  output : Option String := none
  type : Option ValueType := none
  payload : Option (List UInt8) := none
  active : Option Bool := none
  definition : Option (Option Definition) := none

namespace EventDraft

def field (names : List String) (d : EventDraft) (key : String) (j : Json) :
    Except Flaw EventDraft :=
  if key ∈ names then
    match key with
    | "agent" => (Json.once Json.asText d.agent j).map fun agent => { d with agent }
    | "output" => (Json.once Json.asText d.output j).map fun output => { d with output }
    | "value_type" => (Json.once (ValueType.ofJson .kept) d.type j).map fun type => { d with type }
    | "payload" =>
      (Json.once (Json.asList Json.asByte) d.payload j).map fun payload => { d with payload }
    | "active" => (Json.once Json.asBool d.active j).map fun active => { d with active }
    | "definition" =>
      (Json.once (Json.asOption (Definition.ofJson .kept)) d.definition j).map fun definition =>
        { d with definition }
    | _ => .ok d
  else .ok d

def read (names : List String) : Json.Decoder EventDraft :=
  Json.foldRecord names (field names) {}

end EventDraft

namespace Effect

def toJson : Effect → Json
  | publish output type payload =>
    .object [("type", .ofString "publish_requested"), ("output", .ofString output),
      ("value_type", type.toJson), ("payload", .ofBytes payload)]
  | subscription change =>
    .object [("type", .ofString "subscription_changed"), ("agent", .ofString change.agent),
      ("output", .ofString change.output), ("active", .bool change.active)]
  | request agent output =>
    .object [("type", .ofString "output_requested"), ("agent", .ofString agent),
      ("output", .ofString output)]

def ofJson : Json.Decoder Effect := fun j => do
  match ← Json.asTagged j with
  | ("publish_requested", record) =>
    let d ← EventDraft.read ["output", "value_type", "payload"] record
    return publish (← Json.required d.output) (← Json.required d.type) (← Json.required d.payload)
  | ("subscription_changed", record) =>
    let d ← EventDraft.read ["agent", "output", "active"] record
    return subscription
      ⟨← Json.required d.agent, ← Json.required d.output, ← Json.required d.active⟩
  | ("output_requested", record) =>
    let d ← EventDraft.read ["agent", "output"] record
    return request (← Json.required d.agent) (← Json.required d.output)
  | _ => throw .form

end Effect

namespace Inbound

def toJson : Inbound → Json
  | peer agent definition =>
    .object ([("type", .ofString "peer_definition_changed"), ("agent", .ofString agent)] ++
      (definition.map fun d => ("definition", d.toJson)).toList)
  | value agent output type payload =>
    .object [("type", .ofString "value_received"), ("agent", .ofString agent),
      ("output", .ofString output), ("value_type", type.toJson), ("payload", .ofBytes payload)]

def ofJson : Json.Decoder Inbound := fun j => do
  match ← Json.asTagged j with
  | ("peer_definition_changed", record) =>
    let d ← EventDraft.read ["agent", "definition"] record
    return peer (← Json.required d.agent) (d.definition.getD none)
  | ("value_received", record) =>
    let d ← EventDraft.read ["agent", "output", "value_type", "payload"] record
    return value (← Json.required d.agent) (← Json.required d.output) (← Json.required d.type)
      (← Json.required d.payload)
  | _ => throw .form

end Inbound

end Patchbay
