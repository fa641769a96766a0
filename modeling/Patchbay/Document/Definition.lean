import Patchbay.Definition.Compatibility
import Patchbay.Json.Decode
import Patchbay.Json.Printer

/-!
# Documents of slots, categories and definitions

The JSON form of values, slots, interfaces, calls, categories and definitions, each written by
`toJson` and read by `ofJson`. Empty lists, empty descriptions of calls and the flag of a slot that is
not muted are left out. The lists of an interface stand among the other fields of the category or
definition that has it; such a record is an object that keeps its unknown fields until its end, and
the interface is read out of these.
-/

namespace Patchbay

def Json.fieldUnless (isDefault : Bool) (key : String) (j : Json) : List (String × Json) :=
  if isDefault then [] else [(key, j)]

namespace ValueType

def toJson (t : ValueType) : Json := .ofString t.name

def ofJson : Json.Origin → Json.Decoder ValueType := Json.asMember ofName?

def ofTag : Json.Origin → Json.Decoder ValueType := Json.asTag ofName? all

end ValueType

namespace SlotKind

def ofJson : Json.Decoder SlotKind := Json.asMember ofName? .direct

end SlotKind

namespace Scope

def ofJson : Json.Decoder Scope := Json.asMember ofName? .direct

end Scope

namespace Value

def content? : Value → Option Json
  | integer n => some (.int n.toInt)
  | double d => some (.double d)
  | string s => some (.text s)
  | bool b => some (.bool b)
  | impulsion => none
  | data bytes => some (.ofBytes bytes)

def toJson (v : Value) : Json :=
  .object (("type", v.type.toJson) :: (v.content?.map (("value", ·))).toList)

/-- Reads the content of a value; that of an impulsion is missing or `null`. -/
def ofContent : ValueType → Option Json → Except Flaw Value
  | .integer, some j => j.asInt64.map integer
  | .double, some j => j.asDouble.map double
  | .string, some j => j.asText.map string
  | .bool, some j => j.asBool.map bool
  | .impulsion, none => .ok impulsion
  | .impulsion, some .null => .ok impulsion
  | .data, some j => (Json.asList Json.asByte j).map data
  | _, _ => .error .form

structure Draft where
  type : Option ValueType := none
  content : Option Json := none

def Draft.field (o : Json.Origin) (d : Draft) : String → Json → Except Flaw Draft
  | "type", j => (Json.once (ValueType.ofJson o) d.type j).map fun type => { d with type }
  | "value", j => (Json.once .ok d.content j).map fun content => { d with content }
  | _, j => (Json.skip j).map fun _ => d

def Draft.finish (d : Draft) : Except Flaw Value := do
  ofContent (← Json.required d.type) d.content

/-- A value is an object with its type and content, or the array of the two. -/
def ofJson (o : Json.Origin) : Json.Decoder Value
  | .object fields => do (← Json.foldFields (Draft.field o) {} fields).finish
  | .array [type, content] => do ofContent (← ValueType.ofTag o type) (some content)
  | _ => .error .form

end Value

namespace Slot

def toJson (s : Slot) : Json :=
  .object ([("name", .ofString s.name), ("type", s.type.toJson), ("value", s.value.toJson)] ++
    Json.fieldUnless (!s.muted) "muted" (.bool true))

structure Draft where
  name : Option String := none
  type : Option ValueType := none
  value : Option (Option Value) := none
  muted : Option Bool := none

def Draft.field (o : Json.Origin) (d : Draft) : String → Json → Except Flaw Draft
  | "name", j => (Json.once Json.asText d.name j).map fun name => { d with name }
  | "type", j => (Json.once (ValueType.ofJson o) d.type j).map fun type => { d with type }
  | "value", j =>
    (Json.once (Json.asOption (Value.ofJson o)) d.value j).map fun value => { d with value }
  | "muted", j => (Json.once Json.asBool d.muted j).map fun muted => { d with muted }
  | _, j => (Json.skip j).map fun _ => d

def declare (name : String) (type : ValueType) (value : Option Value) (muted : Bool) :
    Except Flaw Slot :=
  match checkName name with
  | .error fault => .error (.naming fault)
  | .ok () =>
    let value := value.getD (.zero type)
    if value.type = type then .ok { name, type, value, muted }
    else .error (.mistyped name type value.type)

def Draft.finish (d : Draft) : Except Flaw Slot := do
  let name ← Json.required d.name
  let type ← Json.required d.type
  declare name type (d.value.getD none) (d.muted.getD false)

def ofJson (o : Json.Origin) : Json.Decoder Slot := fun j => do
  (← Json.foldRecord ["name", "type", "value", "muted"] (Draft.field o) {} j).finish

end Slot

namespace Interface

def repeated? : List String → List String → Option String
  | _, [] => none
  | seen, name :: rest => if name ∈ seen then some name else repeated? (name :: seen) rest

def slotsOfJson (o : Json.Origin) : Json.Decoder (List Slot) := fun j => do
  let slots ← Json.asList (Slot.ofJson o) j
  match repeated? [] (slots.map (·.name)) with
  | some name => throw (.naming (.taken name))
  | none => return slots

def jsonFields (i : Interface) : List (String × Json) :=
  let slots (kind : SlotKind) := Json.array ((i.slots kind).map Slot.toJson)
  Json.fieldUnless i.inputs.isEmpty "inputs" (slots .input) ++
    Json.fieldUnless i.outputs.isEmpty "outputs" (slots .output) ++
    Json.fieldUnless i.parameters.isEmpty "parameters" (slots .parameter)

def toJson (i : Interface) : Json := .object i.jsonFields

structure Draft where
  inputs : Option (List Slot) := none
  outputs : Option (List Slot) := none
  parameters : Option (List Slot) := none

def Draft.field (o : Json.Origin) (d : Draft) : String → Json → Except Flaw Draft
  | "inputs", j => (Json.once (slotsOfJson o) d.inputs j).map fun inputs => { d with inputs }
  | "outputs", j => (Json.once (slotsOfJson o) d.outputs j).map fun outputs => { d with outputs }
  | "parameters", j =>
    (Json.once (slotsOfJson o) d.parameters j).map fun parameters => { d with parameters }
  | _, j => (Json.skip j).map fun _ => d

def Draft.finish (d : Draft) : Interface :=
  { inputs := d.inputs.getD [], outputs := d.outputs.getD [], parameters := d.parameters.getD [] }

def ofJson (o : Json.Origin) : Json.Decoder Interface := fun j =>
  (Json.foldRecord ["inputs", "outputs", "parameters"] (Draft.field o) {} j).map Draft.finish

def ofFields (fields : List (String × Json)) : Except Flaw Interface :=
  (Json.foldFields (Draft.field .kept) {} fields).map Draft.finish

end Interface

def Json.keep (kept : List (String × Json)) (key : String) (j : Json) :
    Except Flaw (List (String × Json)) :=
  if j.isReadable then .ok (kept ++ [(key, j)]) else .error .form

namespace Call

def argumentToJson (a : Argument) : Json :=
  .object [("name", .ofString a.name), ("type", a.type.toJson)]

structure ArgumentDraft where
  name : Option String := none
  type : Option ValueType := none

def ArgumentDraft.field (o : Json.Origin) (d : ArgumentDraft) :
    String → Json → Except Flaw ArgumentDraft
  | "name", j => (Json.once Json.asText d.name j).map fun name => { d with name }
  | "type", j => (Json.once (ValueType.ofJson o) d.type j).map fun type => { d with type }
  | _, j => (Json.skip j).map fun _ => d

def ArgumentDraft.finish (d : ArgumentDraft) : Except Flaw Argument := do
  return ⟨← Json.required d.name, ← Json.required d.type⟩

def argumentOfJson (o : Json.Origin) : Json.Decoder Argument := fun j => do
  (← Json.foldRecord ["name", "type"] (ArgumentDraft.field o) {} j).finish

def toJson (c : Call) : Json :=
  .object ([("name", .ofString c.name)] ++
    Json.fieldUnless c.description.isEmpty "description" (.ofString c.description) ++
    Json.fieldUnless c.arguments.isEmpty "arguments" (.array (c.arguments.map argumentToJson)))

structure Draft where
  name : Option String := none
  description : Option String := none
  arguments : Option (List Argument) := none

def Draft.field (o : Json.Origin) (d : Draft) : String → Json → Except Flaw Draft
  | "name", j => (Json.once Json.asText d.name j).map fun name => { d with name }
  | "description", j =>
    (Json.once Json.asText d.description j).map fun description => { d with description }
  | "arguments", j =>
    (Json.once (Json.asList (argumentOfJson o)) d.arguments j).map fun arguments =>
      { d with arguments }
  | _, j => (Json.skip j).map fun _ => d

def Draft.finish (d : Draft) : Except Flaw Call := do
  return {
    name := ← Json.required d.name
    description := d.description.getD ""
    arguments := d.arguments.getD [] }

def ofJson (o : Json.Origin) : Json.Decoder Call := fun j => do
  (← Json.foldRecord ["name", "description", "arguments"] (Draft.field o) {} j).finish

end Call

namespace Category

def toJson (c : Category) : Json :=
  .object ([("name", .ofString c.name), ("version", .ofString c.version)] ++ c.slots.jsonFields)

structure Draft where
  name : Option String := none
  version : Option String := none
  kept : List (String × Json) := []

def Draft.field (d : Draft) : String → Json → Except Flaw Draft
  | "name", j => (Json.once Json.asText d.name j).map fun name => { d with name }
  | "version", j => (Json.once Json.asText d.version j).map fun version => { d with version }
  | key, j => (Json.keep d.kept key j).map fun kept => { d with kept }

def Draft.finish (d : Draft) : Except Flaw Category := do
  let name ← Json.required d.name
  let slots ← Interface.ofFields d.kept
  return { name, version := d.version.getD "", slots }

def ofJson : Json.Decoder Category
  | .object fields => do (← Json.foldFields Draft.field {} fields).finish
  | _ => .error .form

def ofText (s : String) : Except Fault Category :=
  match Json.decode ofJson s with
  | .error flaw => .error (.malformed (.document flaw))
  | .ok c =>
    match checkName c.name with
    | .error fault => .error (.naming fault)
    | .ok () => .ok c

def toText (c : Category) : String := c.toJson.pretty

end Category

namespace Definition

def toJson (d : Definition) : Json :=
  .object ([("name", .ofString d.name), ("description", .ofString d.description),
      ("version", .ofString d.version)] ++
    Json.fieldUnless d.categories.isEmpty "categories" (.array (d.categories.map Category.toJson)) ++
    Json.fieldUnless d.calls.isEmpty "calls" (.array (d.calls.map Call.toJson)) ++
    d.own.jsonFields)

structure Draft where
  name : Option String := none
  description : Option String := none
  version : Option String := none
  categories : Option (List Category) := none
  calls : Option (List Call) := none
  kept : List (String × Json) := []

def Draft.field (o : Json.Origin) (d : Draft) : String → Json → Except Flaw Draft
  | "name", j => (Json.once Json.asText d.name j).map fun name => { d with name }
  | "description", j =>
    (Json.once Json.asText d.description j).map fun description => { d with description }
  | "version", j => (Json.once Json.asText d.version j).map fun version => { d with version }
  | "categories", j =>
    (Json.once (Json.asList Category.ofJson) d.categories j).map fun categories =>
      { d with categories }
  | "calls", j =>
    (Json.once (Json.asList (Call.ofJson o)) d.calls j).map fun calls => { d with calls }
  | key, j => (Json.keep d.kept key j).map fun kept => { d with kept }

def Draft.finish (d : Draft) : Except Flaw Definition := do
  let name ← Json.required d.name
  let own ← Interface.ofFields d.kept
  return {
    name
    description := d.description.getD ""
    version := d.version.getD ""
    categories := d.categories.getD []
    calls := d.calls.getD []
    own }

/-- Reads a definition as it is declared; `check` is not part of it. -/
def ofJson (o : Json.Origin) : Json.Decoder Definition
  | .object fields => do (← Json.foldFields (Draft.field o) {} fields).finish
  | _ => .error .form

def ofText (s : String) : Except Fault Definition :=
  match Json.decode (ofJson .direct) s with
  | .error flaw => .error (.malformed (.document flaw))
  | .ok d =>
    match d.validate with
    | .error fault => .error fault
    | .ok () => .ok d

def toText (d : Definition) : String := d.toJson.pretty

end Definition

/-- Reads a document of which no more is asked than that the decoder accepts it. -/
def readDocument (decoder : Json.Decoder α) (s : String) : Except Fault α :=
  (Json.decode decoder s).mapError .document

end Patchbay
