import Patchbay.Agent.Plan
import Patchbay.Document.Event
import Patchbay.Hub
import Patchbay.Session.Inbound
import Patchbay.Session.Program

/-!
# The monitor

An agent that watches simulated temperature sensors. Sensors join one after the other, each publishes
its readings, and in the end the first one leaves. The monitor relays each reading that reaches its
input `temperature` to its output `latest`, and a log receives what it asks of the network.
-/

namespace Patchbay.Monitor

structure Settings where
  name : String := "monitor"
  definition : Option String := none
  mapping : Option String := none
  peers : Nat := 3
  samples : Nat := 4
  deriving DecidableEq

def count? (bound : Nat) (s : String) : Option Nat :=
  let digits := match s.toList with
    | '+' :: rest => rest
    | cs => cs
  if digits.isEmpty || !digits.all Char.isDigit then none
  else
    let n := Double.digitsValue digits
    if n < bound then some n else none

/-- The settings as far as they are given; an option stands once. -/
structure Settings.Draft where
  name : Option String := none
  definition : Option String := none
  mapping : Option String := none
  peers : Option Nat := none
  samples : Option Nat := none

def fill (seen : Option α) (given : Option α) : Option (Option α) :=
  if seen.isSome then none else given.map some

namespace Settings

def Draft.option (d : Draft) (key text : String) : Option Draft :=
  match key with
  | "--name" => (fill d.name (some text)).map fun name => { d with name }
  | "--definition" => (fill d.definition (some text)).map fun definition => { d with definition }
  | "--mapping" => (fill d.mapping (some text)).map fun mapping => { d with mapping }
  | "--peers" => (fill d.peers (count? UInt64.size text)).map fun peers => { d with peers }
  | "--samples" => (fill d.samples (count? UInt32.size text)).map fun samples => { d with samples }
  | _ => none

def isOption (s : String) : Bool :=
  match s.toList with
  | '-' :: _ :: _ => true
  | _ => false

def splitOption? (s : String) : Option (String × String) :=
  let cs := s.toList
  match cs.dropWhile (· != '=') with
  | _ :: text => some (String.ofList (cs.takeWhile (· != '=')), String.ofList text)
  | [] => none

def Draft.options (d : Draft) : List String → Option Draft
  | [] => some d
  | s :: rest =>
    match splitOption? s with
    | some (key, text) => (d.option key text).bind fun d => d.options rest
    | none =>
      match rest with
      | [] => none
      | text :: rest =>
        if isOption text then none else (d.option s text).bind fun d => d.options rest

def ofArgs? (args : List String) : Option Settings :=
  (Draft.options {} args).map fun d =>
    let plain : Settings := {}
    { name := d.name.getD plain.name
      definition := d.definition
      mapping := d.mapping
      peers := d.peers.getD plain.peers
      samples := d.samples.getD plain.samples }

end Settings

def temperature : String := "temperature"

def latest : String := "latest"

def slot (name : String) (type : ValueType) : Slot :=
  { name, type, value := .zero type }

def sensors : Category :=
  { name := "Sensors"
    version := "1.0"
    slots := { outputs := [slot temperature .double, slot "alarm" .impulsion] } }

def plainDefinition (name : String) : Except Fault Definition :=
  (Definition.new name).map fun d => { d with
    description := "Collects readings from every Sensors peer"
    version := "1.0"
    own := {
      inputs := [slot temperature .double, slot "alarm" .impulsion]
      outputs := [slot latest .double] } }

def plainMapping : Mapping :=
  { name := "sensors", rules := [.ofCategory Selector.wildcard sensors.name] }

def plan (name : String) (definition mapping : Option String) : Except Fault Plan := do
  let d ← match definition with
    | some s => Definition.ofText s
    | none => plainDefinition name
  let m ← match mapping with
    | some s => Mapping.ofText s
    | none => .ok plainMapping
  return { config := { name }, categories := [sensors], definition := some d, mapping := some m }

/-- Relays a reading; one that is no number is noted as a fault. -/
def relay : Behaviour Unit Unit
  | _, .slot _ reading =>
    match reading.value.asDouble with
    | .ok d => .once (.writeAs .output latest (.double d))
    | .error fault => .once (.note fun _ => .error fault)
  | _, _ => .done

def react : React Unit Unit := relay.react 1

def attach (a : Agent Unit) : Agent Unit :=
  if a.registry.table.contains .output latest && a.registry.table.contains .input temperature then
    (a.observe .input temperature ()).agent
  else a

def sensorName (n : Nat) : String := s!"sensor-{n}"

/-- The reading in degrees, which starts at 18 and grows by a half a sample and by one a sensor. -/
def reading (sample offset : Nat) : Double :=
  .nearest false (36 + sample + 2 * offset) 2

def joining (n : Nat) : Inbound :=
  .peer (sensorName n) (some { name := sensorName n, categories := [sensors] })

def publishing (sample n : Nat) : Inbound :=
  .value (sensorName n) temperature .double (Value.double (reading sample (n - 1))).wire

def events (peers samples : Nat) : List Inbound :=
  let ns := (List.range peers).map (· + 1)
  ns.map joining ++
    (List.range samples).flatMap (fun sample => ns.map (publishing sample)) ++
    (ns.head?.map fun n => .peer (sensorName n) none).toList

/-- The monitor at work, with the log that receives from its hub. -/
structure Course where
  session : Session Unit Unit
  sender : Sender
  hub : Hub
  log : List Received := []

def Course.handle (c : Course) (event : Inbound) : Course :=
  let (session, _) := c.session.handle react event
  let sent := session.sent.drop c.session.sent.length
  let (sender, hub) := c.sender.sendAll sent c.hub
  let (received, hub) := hub.receiveAll (sent.length + 1) 0
  { session, sender, hub, log := c.log ++ received }

structure Outcome where
  outbound : List Record
  entries : List Entry
  handled : Nat
  notRelayed : Nat

def isFailedRelay : Note Unit Unit → Bool
  | .did _ (.error _) => true
  | _ => false

def run (settings : Settings) (definition mapping : Option String) : Except Fault Outcome := do
  let plan ← plan settings.name definition mapping
  let site ← (plan.build Unit).mapError (·.1)
  let (sender, hub) :=
    Sender.sendAll site.sent ⟨settings.name, 0⟩ (Hub.ofBuffer plan.config.eventBuffer)
  let (_, hub) := hub.subscribe
  let start : Course := { session := { agent := attach site.agent }, sender, hub }
  let events := events settings.peers settings.samples
  let finish := events.foldl Course.handle start
  return {
    outbound := finish.log.filterMap Received.record?
    entries := finish.session.agent.wiring.entries
    handled := events.length
    notRelayed := (finish.session.journal.filter isFailedRelay).length }

end Patchbay.Monitor
