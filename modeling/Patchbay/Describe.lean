import Patchbay.Agent.Basic
import Patchbay.Text.Quoted

/-!
# Descriptions for people

One-line descriptions of values, slots, notifications, registries and agents, with all names quoted.
-/

namespace Patchbay

namespace Describe

def joined (items : List String) : String :=
  String.intercalate ", " items

def braced (items : List String) : String :=
  String.ofList ('\x7b' :: ((joined items).toList ++ ['\x7d']))

def record (name : String) (fields : List (String × String)) : String :=
  name ++ " " ++ braced [" " ++ joined (fields.map fun (key, text) => key ++ ": " ++ text) ++ " "]

def flag (b : Bool) : String := Value.boolName b

end Describe

namespace SlotKind

def describe : SlotKind → String
  | input => "Input"
  | output => "Output"
  | parameter => "Parameter"

end SlotKind

namespace ValueType

def describe : ValueType → String
  | integer => "Integer"
  | double => "Double"
  | string => "String"
  | bool => "Bool"
  | impulsion => "Impulsion"
  | data => "Data"

end ValueType

namespace Value

def describeContent? : Value → Option String
  | integer n => some (toString n.toInt)
  | double d => some (d.text .described)
  | string s => some (Text.quoted s)
  | bool b => some (boolName b)
  | impulsion => none
  | data bytes => some s!"[{Describe.joined (bytes.map fun b => toString b.toNat)}]"

def describe (v : Value) : String :=
  match v.describeContent? with
  | some content => s!"{v.type.describe}({content})"
  | none => v.type.describe

end Value

namespace Slot

def describe (s : Slot) : String :=
  Describe.record "Iop"
    [("name", Text.quoted s.name), ("value_type", s.type.describe), ("value", s.value.describe),
      ("muted", Describe.flag s.muted)]

end Slot

namespace Interface

def describeKind (i : Interface) (kind : SlotKind) : String :=
  Describe.braced ((i.slots kind).map fun s => Text.quoted s.name ++ ": " ++ s.describe)

def describe (i : Interface) : String :=
  Describe.record "IopTable"
    [("inputs", i.describeKind .input), ("outputs", i.describeKind .output),
      ("parameters", i.describeKind .parameter)]

end Interface

def Notification.describe (n : Notification ρ) : String :=
  let slot := match n.slot with
    | some s => s!"Some({Text.quoted s.name})"
    | none => "None"
  Describe.record "Notification"
    [("kind", n.kind.describe), ("iop", slot), ("observers", toString n.observers.length)]

def Registry.describe (r : Registry ρ) : String :=
  Describe.record "IopRegistry"
    [("table", r.table.describe), ("observers", toString r.observers.length)]

def Agent.describe (a : Agent ρ) : String :=
  Describe.record "Agent"
    [("name", s!"AgentName({Text.quoted a.config.name})"),
      ("definition", Text.quoted a.definition.name), ("registry", a.registry.describe),
      ("mappings", toString a.wiring.entries.length), ("peers", toString a.peers.size),
      ("state", Text.quoted a.state), ("muted", Describe.flag a.muted),
      ("frozen", Describe.flag a.frozen)]

end Patchbay
