import Patchbay.Agent.Connect
import Patchbay.Agent.Declare

/-!
# Sessions

A session is an agent at work: the agent as it is, what it has asked of the network, and a journal of
what was stored, who was called and what the called did. An observer is handed the session and hands
it back, so whatever it does in between is part of the operation that called it. What an observer does
is given by a `React`; `ρ` tells observers apart and `ν` is what they may note in the journal.

A value is first stored, then published, and then the observers that were registered when it was
stored are called, one after the other.
-/

namespace Patchbay

inductive Firing
  | slot (kind : SlotKind) (slot : Slot)
  | muted (flag : Bool)
  | frozen (flag : Bool)
  deriving DecidableEq

structure Report where
  written : List String := []
  failed : List (String × Fault) := []
  deriving DecidableEq

namespace Report

def isEmpty (r : Report) : Bool :=
  r.written.isEmpty && r.failed.isEmpty

end Report

inductive Reply (ν : Type)
  | done
  | changes (changes : List Change)
  | id (id : Nat)
  | flag (b : Bool)
  | text (s : String)
  | call (c : Call)
  | report (r : Report)
  | batch (r : BatchReport)
  | noted (x : ν)

inductive Note (ρ ν : Type)
  /-- A value was stored in a slot, while the agent was muted or not. -/
  | stored (kind : SlotKind) (slot : Slot) (muted : Bool)
  /-- An observer was called, with the flags of the agent at that moment. -/
  | called (who : ρ) (firing : Firing) (muted frozen : Bool)
  | did (who : ρ) (answer : Except Fault (Reply ν))

structure Session (ρ ν : Type) where
  agent : Agent ρ
  sent : List Effect := []
  journal : List (Note ρ ν) := []

abbrev React (ρ ν : Type) := ρ → Firing → Session ρ ν → Session ρ ν

namespace Session

variable {ρ ν α : Type}

def note (s : Session ρ ν) (n : Note ρ ν) : Session ρ ν :=
  { s with journal := s.journal ++ [n] }

/-- Carries out an operation that calls no observers. -/
def run (s : Session ρ ν) (f : Agent ρ → Act ρ α) : Session ρ ν × Except Fault α :=
  let act := f s.agent
  ({ s with agent := act.agent, sent := s.sent ++ act.sent }, act.result)

def call (react : React ρ ν) (firing : Firing) (observers : List ρ) (s : Session ρ ν) :
    Session ρ ν :=
  observers.foldl (fun s who => react who firing s) s

def notify (react : React ρ ν) (n : Notification ρ) (s : Session ρ ν) : Session ρ ν :=
  match n.slot with
  | none => s
  | some slot => s.call react (.slot n.kind slot) n.observers

/-- Takes over a registry in which a slot was written, and publishes the value. -/
def store (s : Session ρ ν) (kind : SlotKind) (name : String) (registry : Registry ρ) :
    Session ρ ν :=
  let agent := { s.agent with registry }
  { agent
    sent := s.sent ++ agent.publication kind name
    journal := s.journal ++ (registry.find? kind name).toList.map (.stored kind · agent.muted) }

/-- Ends a write: the value is stored and published and the observers are called, unless it failed. -/
def commit (react : React ρ ν) (kind : SlotKind) (name : String)
    (outcome : Except Fault (Registry ρ × Notification ρ)) (s : Session ρ ν) :
    Session ρ ν × Except Fault Unit :=
  match outcome with
  | .error fault => (s, .error fault)
  | .ok (registry, pending) => ((s.store kind name registry).notify react pending, .ok ())

def write (react : React ρ ν) (kind : SlotKind) (name : String) (v : Value) (s : Session ρ ν) :
    Session ρ ν × Except Fault Unit :=
  match s.agent.checkWritable kind with
  | .error fault => (s, .error fault)
  | .ok () => s.commit react kind name (s.agent.registry.write kind name v)

def writeAs (react : React ρ ν) (kind : SlotKind) (name : String) (v : Value) (s : Session ρ ν) :
    Session ρ ν × Except Fault Unit :=
  match s.agent.checkWritable kind with
  | .error fault => (s, .error fault)
  | .ok () => s.commit react kind name (s.agent.registry.writeAs kind name v)

def writeImpulsion (react : React ρ ν) (kind : SlotKind) (name : String) (s : Session ρ ν) :
    Session ρ ν × Except Fault Unit :=
  match s.agent.registry.type kind name with
  | .error fault => (s, .error fault)
  | .ok type => s.write react kind name (.zero type)

/-- Mutes or unmutes the whole agent; its observers are called only if that is new. -/
def setMuted (react : React ρ ν) (flag : Bool) (s : Session ρ ν) : Session ρ ν :=
  if s.agent.muted = flag then s
  else
    ({ s with agent := { s.agent with muted := flag } } : Session ρ ν).call react (.muted flag)
      (s.agent.muteObservers.map (·.who))

def setFrozen (react : React ρ ν) (flag : Bool) (s : Session ρ ν) : Session ρ ν :=
  if s.agent.frozen = flag then s
  else
    ({ s with agent := { s.agent with frozen := flag } } : Session ρ ν).call react (.frozen flag)
      (s.agent.freezeObservers.map (·.who))

/-- A delivery under way. It is stale if an input was found to have another type. -/
structure Delivery (ρ ν : Type) where
  session : Session ρ ν
  report : Report := {}
  stale : Bool := false

def Delivery.fail (d : Delivery ρ ν) (input : String) (fault : Fault) : Delivery ρ ν :=
  { d with report := { d.report with failed := d.report.failed ++ [(input, fault)] } }

def Delivery.toInput (react : React ρ ν) (type : ValueType) (decoded : Except Fault Value)
    (d : Delivery ρ ν) (input : String) : Delivery ρ ν :=
  match d.session.agent.registry.type .input input with
  | .error fault => d.fail input fault
  | .ok expected =>
    if expected ≠ type then { d.fail input (.mistyped input expected type) with stale := true }
    else
      match decoded with
      | .error fault => d.fail input fault
      | .ok v =>
        match d.session.commit react .input input (d.session.agent.registry.write .input input v) with
        | (session, .ok ()) =>
          { d with session, report := { d.report with written := d.report.written ++ [input] } }
        | (_, .error fault) => d.fail input fault

def deliver (react : React ρ ν) (agent output : String) (type : ValueType) (payload : List UInt8)
    (s : Session ρ ν) : Session ρ ν × Except Fault Report :=
  if s.agent.frozen then (s, .error .frozen)
  else
    let routes := s.agent.wiring.routes agent output
    if routes.isEmpty then (s, .ok {})
    else
      let decoded := Value.ofWire type payload
      let d := (routes.map (·.2)).foldl (Delivery.toInput react type decoded) { session := s }
      let s := if d.stale && d.session.agent.config.resolveOnMismatch
        then (d.session.run Agent.resolve).1 else d.session
      (s, .ok d.report)

end Session

end Patchbay
