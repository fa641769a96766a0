import Patchbay.Peers

/-!
# Links

What a rule comes to at a given moment. A link connects a local input with an output that a known peer
has; it is on if the types agree and incompatible if they do not. `Scene.links` gives the links of a
rule, as a function of the local inputs, the known peers and the known categories and of nothing else.
-/

namespace Patchbay

inductive Outcome
  | on
  | incompatible
  deriving DecidableEq

namespace Outcome

def name : Outcome → String
  | on => "on"
  | incompatible => "incompatible"

def ofTypes (remote localType : ValueType) : Outcome :=
  if remote = localType then on else incompatible

end Outcome

structure Link where
  agent : String
  output : String
  input : String
  outcome : Outcome
  deriving DecidableEq

instance : Keyed Link := ⟨fun l => [l.agent, l.output, l.input]⟩

structure Publisher where
  agent : String
  output : String
  deriving DecidableEq

instance : Keyed Publisher := ⟨fun p => [p.agent, p.output]⟩

abbrev Links := Ordered Link

namespace Link

def publisher (l : Link) : Publisher := ⟨l.agent, l.output⟩

def isOn (l : Link) : Bool := l.outcome == .on

end Link

namespace Links

def publishers (ls : Links) : List Publisher :=
  (ls.toList.filter Link.isOn).map Link.publisher

def agents (ls : Links) : List String :=
  (ls.toList.map (·.agent)).eraseDups

def state (ls : Links) : EntryState :=
  if ls.toList.any Link.isOn then .on
  else if ls.isEmpty then .off
  else .incompatible

end Links

structure Scene where
  inputs : Interface
  peers : Peers
  catalog : Catalog

namespace Scene

def link? (scene : Scene) (peer : Peer) (output input : String) : Option Link := do
  let localSlot ← scene.inputs.find? .input input
  let remote ← peer.definition.find? .output output
  return ⟨peer.name, output, input, .ofTypes remote.type localSlot.type⟩

/-- The template of a category for a peer: the one that is known locally, else the peer's own. -/
def template? (scene : Scene) (peer : Peer) (category : String) : Option Category :=
  match scene.catalog.find? category with
  | some c => some c
  | none => peer.definition.category? category

def memberLink? (scene : Scene) (peer : Peer) (member : Slot) : Option Link := do
  let localSlot ← scene.inputs.find? .input member.name
  return ⟨peer.name, member.name, member.name, .ofTypes member.type localSlot.type⟩

/-- The links of a category to a peer, none unless the peer has all outputs of the template. -/
def categoryLinks (scene : Scene) (category : String) (peer : Peer) : List Link :=
  match scene.template? peer category with
  | none => []
  | some c =>
    if peer.definition.satisfies c .outputs then
      (c.slots.slots .output).filterMap (scene.memberLink? peer)
    else []

def links (scene : Scene) (r : Rule) : Links :=
  let peers := scene.peers.selected r.source
  match r.target with
  | .output input output => .ofList (peers.filterMap fun peer => scene.link? peer output input)
  | .category category => .ofList (peers.flatMap (scene.categoryLinks category))

end Scene

end Patchbay
