import Patchbay.Session.Basic

/-!
# Operations

Everything that can be asked of an agent, as data, and `Session.perform`, which does it. `note` looks
at the agent and puts what it sees into the answer; the other operations are those that may change the
agent.
-/

namespace Patchbay

inductive Op (ρ ν : Type)
  | note (look : Agent ρ → Except Fault ν)
  | createSlot (kind : SlotKind) (name : String) (type : ValueType) (initial : Option Value)
  | removeSlot (kind : SlotKind) (name : String)
  | write (kind : SlotKind) (name : String) (value : Value)
  | writeAs (kind : SlotKind) (name : String) (value : Value)
  | writeImpulsion (kind : SlotKind) (name : String)
  | clearSlot (kind : SlotKind) (name : String)
  | setOutputMuted (name : String) (flag : Bool)
  | setMuted (flag : Bool)
  | setFrozen (flag : Bool)
  | observe (kind : SlotKind) (name : String) (who : ρ)
  | observeAll (who : ρ)
  | observeMute (who : ρ)
  | observeFreeze (who : ρ)
  | unobserve (id : Nat)
  | addRule (rule : Rule)
  | removeEntry (id : Nat)
  | removeFeed (input agent output : String)
  | loadMapping (mapping : Mapping)
  | loadMappingText (text : String)
  | clearMappings
  | describeMapping (name description version : String)
  | loadDefinition (definition : Definition)
  | loadDefinitionText (text : String)
  | clearDefinition
  | setDefinitionName (name : String)
  | describeDefinition (description version : String)
  | addCategory (category : Category)
  | registerCategory (category : Category)
  | unregisterCategory (name : String)
  | addCall (call : Call)
  | removeCall (name : String)
  | addArgument (call argument : String) (type : ValueType)
  | removeArgument (call argument : String)
  | hearPeer (agent : String) (definition : Option Definition)
  | hearPeerText (agent : String) (text : Option String)
  | hearPeers (batch : List (String × Option Definition))
  | deliver (agent output : String) (type : ValueType) (payload : List UInt8)
  | setState (state : String)
  | setRequestOutputs (enabled : Bool)

namespace Session

variable {ρ ν α : Type}

def reply (f : α → Reply ν) (out : Session ρ ν × Except Fault α) :
    Session ρ ν × Except Fault (Reply ν) :=
  (out.1, out.2.map f)

def become (s : Session ρ ν) (agent : Agent ρ) (answer : Reply ν) :
    Session ρ ν × Except Fault (Reply ν) :=
  ({ s with agent }, .ok answer)

def perform (react : React ρ ν) (op : Op ρ ν) (s : Session ρ ν) :
    Session ρ ν × Except Fault (Reply ν) :=
  match op with
  | .note look => (s, (look s.agent).map .noted)
  | .createSlot kind name type initial => reply .changes (s.run (·.createSlot kind name type initial))
  | .removeSlot kind name => reply .changes (s.run (·.removeSlot kind name))
  | .write kind name value => reply (fun _ => .done) (s.write react kind name value)
  | .writeAs kind name value => reply (fun _ => .done) (s.writeAs react kind name value)
  | .writeImpulsion kind name => reply (fun _ => .done) (s.writeImpulsion react kind name)
  | .clearSlot kind name => reply (fun _ => .done) (s.run (·.clearSlot kind name))
  | .setOutputMuted name flag => reply (fun _ => .done) (s.run (·.setOutputMuted name flag))
  | .setMuted flag => (s.setMuted react flag, .ok .done)
  | .setFrozen flag => (s.setFrozen react flag, .ok .done)
  | .observe kind name who => reply .id (s.run (·.observe kind name who))
  | .observeAll who => reply .id (s.run (·.observeAll who))
  | .observeMute who => reply .id (s.run (·.observeMute who))
  | .observeFreeze who => reply .id (s.run (·.observeFreeze who))
  | .unobserve id => reply .flag (s.run (·.unobserve id))
  | .addRule rule => reply .id (s.run (·.addRule rule))
  | .removeEntry id => reply .changes (s.run (·.removeEntry id))
  | .removeFeed input agent output => reply .changes (s.run (·.removeFeed input agent output))
  | .loadMapping mapping => reply .changes (s.run (·.loadMapping mapping))
  | .loadMappingText text => reply .changes (s.run (·.loadMappingText text))
  | .clearMappings => reply .changes (s.run (·.clearMappings))
  | .describeMapping name description version =>
    s.become (s.agent.describeMapping name description version) .done
  | .loadDefinition definition => reply .changes (s.run (·.loadDefinition definition))
  | .loadDefinitionText text => reply .changes (s.run (·.loadDefinitionText text))
  | .clearDefinition => reply .changes (s.run (·.clearDefinition))
  | .setDefinitionName name => reply (fun _ => .done) (s.run (·.setDefinitionName name))
  | .describeDefinition description version =>
    s.become (s.agent.describeDefinition description version) .done
  | .addCategory category => reply .changes (s.run (·.addCategory category))
  | .registerCategory category => reply .changes (s.run (·.registerCategory category))
  | .unregisterCategory name => reply .changes (s.run (·.unregisterCategory name))
  | .addCall call => reply (fun _ => .done) (s.run (·.addCall call))
  | .removeCall name => reply .call (s.run (·.removeCall name))
  | .addArgument call argument type =>
    reply (fun _ => .done) (s.run (·.addArgument call argument type))
  | .removeArgument call argument =>
    reply (fun _ => .done) (s.run (·.removeArgument call argument))
  | .hearPeer agent definition => reply .changes (s.run (·.hearPeer agent definition))
  | .hearPeerText agent text => reply .changes (s.run (·.hearPeerText agent text))
  | .hearPeers batch => reply .batch (s.run (·.hearPeers batch))
  | .deliver agent output type payload => reply .report (s.deliver react agent output type payload)
  | .setState state => s.become (s.agent.setState state) (.text state)
  | .setRequestOutputs enabled => s.become (s.agent.setRequestOutputs enabled) (.flag enabled)

/-- Performs operations one after the other, also after faults. -/
def performAll (react : React ρ ν) (ops : List (Op ρ ν)) (s : Session ρ ν) : Session ρ ν :=
  ops.foldl (fun s op => (s.perform react op).1) s

end Session

end Patchbay
