import Patchbay.Session.Operation

/-!
# Hearing from the network

Whatever the network reports enters an agent here, one event after the other. An event that fails does
not keep later ones from being handled.
-/

namespace Patchbay

inductive InboundOutcome
  | peer (changes : List Change)
  | delivery (report : Report)

namespace Session

variable {ρ ν : Type}

def handle (react : React ρ ν) (event : Inbound) (s : Session ρ ν) :
    Session ρ ν × Except Fault InboundOutcome :=
  match event with
  | .peer agent definition =>
    let (s, result) := s.run (·.hearPeer agent definition)
    (s, result.map .peer)
  | .value agent output type payload =>
    let (s, result) := s.deliver react agent output type payload
    (s, result.map .delivery)

def drain (react : React ρ ν) (events : List Inbound) (s : Session ρ ν) : Session ρ ν × Nat :=
  (events.foldl (fun s event => (s.handle react event).1) s, events.length)

end Session

end Patchbay
