import Patchbay.Event
import Patchbay.Wiring.Link

/-!
# Wiring

The rules of an agent with what they have come to: every entry has an identifier of its own, a state
and links. A publisher is subscribed as long as a link that is on reads from it, whichever entries
these links belong to. Each operation that changes links returns what changes for the subscriptions:
first what is no longer subscribed, then what newly is, both in the order of agents and outputs.

Identifiers count up from one and are never given twice.
-/

namespace Patchbay

structure Entry where
  id : Nat
  rule : Rule
  state : EntryState
  links : Links
  deriving DecidableEq

namespace Entry

def fresh (id : Nat) (r : Rule) : Entry :=
  ⟨id, r, r.initialState, .empty⟩

def cut (e : Entry) : Entry :=
  fresh e.id e.rule

def resolve (scene : Scene) (e : Entry) : Entry :=
  let links := scene.links e.rule
  { e with links, state := if e.rule.isCategory then .generic else links.state }

end Entry

structure Wiring where
  name : String := ""
  description : String := ""
  version : String := ""
  entries : List Entry := []
  subscribed : Ordered Publisher := .empty
  nextId : Nat := 1
  deriving DecidableEq

namespace Wiring

def find? (w : Wiring) (id : Nat) : Option Entry :=
  w.entries.find? (·.id == id)

def contains (w : Wiring) (id : Nat) : Bool :=
  w.entries.any (·.id == id)

def feedId? (w : Wiring) (input agent output : String) : Option Nat :=
  (w.entries.find? (·.rule.isFeed input agent output)).map (·.id)

def ruleId? (w : Wiring) (r : Rule) : Option Nat :=
  (w.entries.find? (·.rule == r)).map (·.id)

/-- The local inputs that a value of the publisher goes to, with the entries that say so. -/
def routes (w : Wiring) (agent output : String) : List (Nat × String) :=
  w.entries.flatMap fun e =>
    (e.links.toList.filter fun l => l.isOn && l.agent == agent && l.output == output).map
      fun l => (e.id, l.input)

def wanted (w : Wiring) : Ordered Publisher :=
  .ofList (w.entries.flatMap fun e => e.links.publishers)

def changesFrom (active : Bool) (a b : Ordered Publisher) : List Change :=
  (a.toList.filter fun p => !b.toList.contains p).map fun p => ⟨p.agent, p.output, active⟩

def sync (w : Wiring) : Wiring × List Change :=
  let wanted := w.wanted
  ({ w with subscribed := wanted },
    changesFrom false w.subscribed wanted ++ changesFrom true wanted w.subscribed)

/-- Refuses a rule with a blank remote name or a local input that is not there. -/
def checkRule (inputs : Interface) (r : Rule) : Except Fault Unit :=
  match r.target with
  | .output input output =>
    if Text.isBlank output then .error (.naming (.blank output))
    else if inputs.contains .input input then .ok ()
    else .error (.unknownSlot .input input)
  | .category category =>
    if Text.isBlank category then .error (.naming (.blank category)) else .ok ()

def add (w : Wiring) (inputs : Interface) (r : Rule) : Except Fault (Nat × Wiring) :=
  match checkRule inputs r with
  | .error fault => .error fault
  | .ok () =>
    match w.ruleId? r with
    | some id => .ok (id, w)
    | none =>
      .ok (w.nextId, { w with entries := w.entries ++ [.fresh w.nextId r], nextId := w.nextId + 1 })

def cutWhere (w : Wiring) (p : Entry → Bool) : Wiring :=
  { w with entries := w.entries.map fun e => if p e then e.cut else e }

def remove (w : Wiring) (id : Nat) : Except Fault (Wiring × List Change) :=
  if w.contains id then
    let (w, changes) := (w.cutWhere (·.id == id)).sync
    .ok ({ w with entries := w.entries.filter (·.id != id) }, changes)
  else .error (.unknownEntry id)

def removeFeed (w : Wiring) (input agent output : String) :
    Except Fault (Nat × Wiring × List Change) :=
  match w.feedId? input agent output with
  | some id => (w.remove id).map (id, ·)
  | none => .error (.unknownFeed input agent output)

def clear (w : Wiring) : Wiring × List Change :=
  let (w, changes) := (w.cutWhere fun _ => true).sync
  ({ w with entries := [] }, changes)

def checkRules (inputs : Interface) : List Rule → Except Fault Unit
  | [] => .ok ()
  | r :: rest =>
    match checkRule inputs r with
    | .error fault => .error fault
    | .ok () => checkRules inputs rest

/-- Lays out entries in the order of rules: an entry of `previous` for a rule it has, a fresh one for
any other, and nothing for a rule that is laid out already. -/
def layOut (previous : List Entry) : List Rule → List Entry → Nat → List Entry × Nat
  | [], done, nextId => (done, nextId)
  | r :: rest, done, nextId =>
    if done.any (·.rule == r) then layOut previous rest done nextId
    else
      match previous.find? (·.rule == r) with
      | some e => layOut previous rest (done ++ [e]) nextId
      | none => layOut previous rest (done ++ [.fresh nextId r]) (nextId + 1)

/-- Replaces the entries by those of a mapping. Every rule is checked first. A rule that was there keeps
its identifier, state and links; the links of the others are cut before the new entries are laid out. -/
def load (w : Wiring) (inputs : Interface) (m : Mapping) : Except Fault (Wiring × List Change) :=
  match checkRules inputs m.rules with
  | .error fault => .error fault
  | .ok () =>
    let (w, changes) := (w.cutWhere fun e => !m.rules.contains e.rule).sync
    let (entries, nextId) := layOut w.entries m.rules [] w.nextId
    .ok ({ w with
      name := m.name, description := m.description, version := m.version, entries, nextId }, changes)

def toMapping (w : Wiring) : Mapping :=
  { name := w.name
    description := w.description
    version := w.version
    rules := w.entries.map (·.rule) }

def resolve (w : Wiring) (scene : Scene) : Wiring × List Change :=
  sync { w with entries := w.entries.map (Entry.resolve scene) }

end Wiring

end Patchbay
