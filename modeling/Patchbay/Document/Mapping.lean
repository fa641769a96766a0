import Patchbay.Document.Definition
import Patchbay.Rule

/-!
# Documents of rules and mappings

A rule is written as one object that holds the agent, the kind of its target and the names that this
kind asks for.
-/

namespace Patchbay

namespace EntryState

def ofJson : Json.Decoder EntryState := Json.asMember ofName? .direct

end EntryState

namespace Rule

def targetFields : Target → List (String × Json)
  | .output input output =>
    [("kind", .ofString "output"), ("input", .ofString input), ("output", .ofString output)]
  | .category category => [("kind", .ofString "category"), ("category", .ofString category)]

def jsonFields (r : Rule) : List (String × Json) :=
  ("agent", .ofString r.source.text) :: targetFields r.target

def toJson (r : Rule) : Json := .object r.jsonFields

inductive TargetKind
  | output
  | category

def TargetKind.ofName? : String → Option TargetKind
  | "output" => some output
  | "category" => some category
  | _ => none

def TargetKind.ofJson : Json.Decoder TargetKind :=
  Json.asTag ofName? [output, category] .kept

structure TargetDraft where
  kind : Option TargetKind := none
  kept : List (String × Json) := []

def TargetDraft.field (d : TargetDraft) : String → Json → Except Flaw TargetDraft
  | "kind", j => (Json.once TargetKind.ofJson d.kind j).map fun kind => { d with kind }
  | key, j => .ok { d with kept := d.kept ++ [(key, j)] }

structure NameDraft where
  input : Option String := none
  output : Option String := none
  category : Option String := none

def NameDraft.outputField (d : NameDraft) : String → Json → Except Flaw NameDraft
  | "input", j => (Json.once Json.asText d.input j).map fun input => { d with input }
  | "output", j => (Json.once Json.asText d.output j).map fun output => { d with output }
  | _, _ => .ok d

def NameDraft.categoryField (d : NameDraft) : String → Json → Except Flaw NameDraft
  | "category", j => (Json.once Json.asText d.category j).map fun category => { d with category }
  | _, _ => .ok d

def TargetDraft.finish (d : TargetDraft) : Except Flaw Target := do
  match ← Json.required d.kind with
  | .output =>
    let names ← Json.foldFields NameDraft.outputField {} d.kept
    return .output (← Json.required names.input) (← Json.required names.output)
  | .category =>
    let names ← Json.foldFields NameDraft.categoryField {} d.kept
    return .category (← Json.required names.category)

structure Draft where
  agent : Option String := none
  kept : List (String × Json) := []

def Draft.field (d : Draft) : String → Json → Except Flaw Draft
  | "agent", j => (Json.once Json.asText d.agent j).map fun agent => { d with agent }
  | key, j => (Json.keep d.kept key j).map fun kept => { d with kept }

def Draft.finish (d : Draft) : Except Flaw Rule := do
  let agent ← Json.required d.agent
  let target ← (← Json.foldFields TargetDraft.field {} d.kept).finish
  return ⟨.ofText agent, target⟩

def ofJson : Json.Decoder Rule
  | .object fields => do (← Json.foldFields Draft.field {} fields).finish
  | _ => .error .form

end Rule

namespace Mapping

def toJson (m : Mapping) : Json :=
  .object [("name", .ofString m.name), ("description", .ofString m.description),
    ("version", .ofString m.version), ("rules", .array (m.rules.map Rule.toJson))]

structure Draft where
  name : Option String := none
  description : Option String := none
  version : Option String := none
  rules : Option (List Rule) := none

def Draft.field (d : Draft) : String → Json → Except Flaw Draft
  | "name", j => (Json.once Json.asText d.name j).map fun name => { d with name }
  | "description", j =>
    (Json.once Json.asText d.description j).map fun description => { d with description }
  | "version", j => (Json.once Json.asText d.version j).map fun version => { d with version }
  | "rules", j => (Json.once (Json.asList Rule.ofJson) d.rules j).map fun rules => { d with rules }
  | _, j => (Json.skip j).map fun _ => d

def Draft.finish (d : Draft) : Mapping :=
  { name := d.name.getD ""
    description := d.description.getD ""
    version := d.version.getD ""
    rules := d.rules.getD [] }

def ofJson : Json.Decoder Mapping := fun j =>
  (Json.foldRecord ["name", "description", "version", "rules"] Draft.field {} j).map Draft.finish

def ofText (s : String) : Except Fault Mapping :=
  match readDocument ofJson s with
  | .error fault => .error fault
  | .ok m =>
    match m.check with
    | .error fault => .error fault
    | .ok () => .ok m

def toText (m : Mapping) : String := m.toJson.pretty

end Mapping

end Patchbay
