import Patchbay.Agent.Basic
import Patchbay.Document.Mapping

/-!
# Connecting an agent to its peers

The operations on rules and on what is known of peers. Adding rules and hearing of peers resolve the
wiring; removing entries only ends the subscriptions that nobody else needs.
-/

namespace Patchbay

structure BatchReport where
  changes : List Change
  /-- The peers whose definition was refused, and why. -/
  rejected : List (String × Fault)

namespace Agent

variable {ρ : Type}

def addRule (a : Agent ρ) (r : Rule) : Act ρ Nat :=
  match a.wiring.add a.registry.table r with
  | .error fault => a.fail fault
  | .ok (id, wiring) =>
    let act := resolve { a with wiring }
    { act with result := .ok id }

def unwired (a : Agent ρ) (wiring : Wiring) (changes : List Change) : Act ρ (List Change) :=
  ⟨{ a with wiring }, Change.effects changes, .ok changes⟩

def removeEntry (a : Agent ρ) (id : Nat) : Act ρ (List Change) :=
  match a.wiring.remove id with
  | .error fault => a.fail fault
  | .ok (wiring, changes) => a.unwired wiring changes

def removeFeed (a : Agent ρ) (input agent output : String) : Act ρ (List Change) :=
  match a.wiring.removeFeed input agent output with
  | .error fault => a.fail fault
  | .ok (_, wiring, changes) => a.unwired wiring changes

def clearMappings (a : Agent ρ) : Act ρ (List Change) :=
  let (wiring, changes) := a.wiring.clear
  a.unwired wiring changes

def loadMapping (a : Agent ρ) (m : Mapping) : Act ρ (List Change) :=
  match a.wiring.load a.registry.table m with
  | .error fault => a.fail fault
  | .ok (wiring, dropped) =>
    let act := resolve { a with wiring }
    { act with
      sent := Change.effects dropped ++ act.sent
      result := act.result.map (dropped ++ ·) }

def loadMappingText (a : Agent ρ) (s : String) : Act ρ (List Change) :=
  match Mapping.ofText s with
  | .error fault => a.fail fault
  | .ok m => a.loadMapping m

def exportMapping (a : Agent ρ) : Mapping := a.wiring.toMapping

def describeMapping (a : Agent ρ) (name description version : String) : Agent ρ :=
  { a with wiring := { a.wiring with name, description, version } }

/-- Hears of a peer: a definition, or that it has left. A refused definition leaves the peer absent, and
the wiring is resolved all the same. -/
def hearPeer (a : Agent ρ) (agent : String) (d : Option Definition) : Act ρ (List Change) :=
  let (peers, applied) := a.peers.apply agent d
  let act := resolve { a with peers }
  match applied with
  | .ok _ => act
  | .error fault => { act with result := .error fault }

def hearPeerText (a : Agent ρ) (agent : String) : Option String → Act ρ (List Change)
  | none => a.hearPeer agent none
  | some s =>
    match Definition.ofText s with
    | .ok d => a.hearPeer agent (some d)
    | .error fault =>
      let act := resolve { a with peers := a.peers.erase agent }
      { act with result := .error fault }

def applyPeers : List (String × Option Definition) → Peers → Peers × List (String × Fault)
  | [], peers => (peers, [])
  | (agent, d) :: rest, peers =>
    let (peers, applied) := peers.apply agent d
    let (peers, rejected) := applyPeers rest peers
    match applied with
    | .ok _ => (peers, rejected)
    | .error fault => (peers, (agent, fault) :: rejected)

def hearPeers (a : Agent ρ) (batch : List (String × Option Definition)) : Act ρ BatchReport :=
  let (peers, rejected) := applyPeers batch a.peers
  let act := resolve { a with peers }
  { act with result := act.result.map (⟨·, rejected⟩) }

end Agent

end Patchbay
