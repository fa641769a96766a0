import Patchbay.Definition.Compatibility
import Patchbay.Ordered
import Patchbay.Rule

/-!
# Known peers and known categories

The directory of peers holds, in the order of their names, the agents that have announced a definition
that passes its check; an agent whose definition does not is absent, as one that has left. The
catalogue holds the categories that are known locally, by name.
-/

namespace Patchbay

structure Peer where
  name : String
  definition : Definition
  deriving DecidableEq

instance : Keyed Peer := ⟨fun p => [p.name]⟩

instance : Keyed Category := ⟨fun c => [c.name]⟩

abbrev Peers := Ordered Peer

namespace Peers

def find? (p : Peers) (agent : String) : Option Definition :=
  (Ordered.find? p [agent]).map (·.definition)

def contains (p : Peers) (agent : String) : Bool :=
  Ordered.contains p [agent]

def erase (p : Peers) (agent : String) : Peers :=
  Ordered.erase p [agent]

/-- Takes up the definition that an agent announces, and tells whether the directory changes by it. One
that fails its check makes the agent absent. -/
def announce (p : Peers) (agent : String) (d : Definition) : Peers × Except Fault Bool :=
  match d.validate with
  | .error fault => (p.erase agent, .error fault)
  | .ok () =>
    if (p.find? agent).any (·.same d) then (p, .ok false)
    else (Ordered.insert p ⟨agent, d⟩, .ok true)

def apply (p : Peers) (agent : String) : Option Definition → Peers × Except Fault Bool
  | some d => p.announce agent d
  | none => (p.erase agent, .ok (p.contains agent))

def selected (p : Peers) (s : Selector) : List Peer :=
  p.toList.filter fun peer => s.selects peer.name

end Peers

abbrev Catalog := Ordered Category

namespace Catalog

def find? (c : Catalog) (name : String) : Option Category :=
  Ordered.find? c [name]

def register (c : Catalog) (category : Category) : Catalog :=
  Ordered.insert c category

def unregister (c : Catalog) (name : String) : Catalog :=
  Ordered.erase c [name]

def names (c : Catalog) : List String :=
  c.toList.map (·.name)

end Catalog

end Patchbay
