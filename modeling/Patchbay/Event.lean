import Patchbay.Definition.Basic

/-!
# Events

What an agent asks of the network, and what the network tells an agent. An agent asks for its outputs
to be published, for outputs of others to be subscribed or no longer subscribed, and for the present
value of a fresh subscription. It is told that a peer has a definition or has left, and that a value
of a peer has arrived.
-/

namespace Patchbay

structure Change where
  agent : String
  output : String
  active : Bool
  deriving DecidableEq

inductive Effect
  | publish (output : String) (type : ValueType) (payload : List UInt8)
  | subscription (change : Change)
  | request (agent output : String)
  deriving DecidableEq

namespace Effect

def change? : Effect → Option Change
  | subscription change => some change
  | _ => none

def publication? : Effect → Option (String × ValueType × List UInt8)
  | publish output type payload => some (output, type, payload)
  | _ => none

def request? : Effect → Option (String × String)
  | request agent output => some (agent, output)
  | _ => none

end Effect

inductive Inbound
  | peer (agent : String) (definition : Option Definition)
  | value (agent output : String) (type : ValueType) (payload : List UInt8)
  deriving DecidableEq

namespace Inbound

def agent : Inbound → String
  | peer agent _ => agent
  | value agent _ _ _ => agent

end Inbound

end Patchbay
