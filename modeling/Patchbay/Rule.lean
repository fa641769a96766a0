import Patchbay.Fault

/-!
# Mapping rules

A rule connects an agent to the outputs of others. It names the agents it means, all of them or one,
and either one local input and one remote output, or a category whose outputs feed the inputs of the
same names. A mapping is a list of rules with a few words about it.
-/

namespace Patchbay

/-- What is known of an entry: nothing to connect to, connected, connected to outputs of other types
only, or a category rule, which is made of many connections. -/
inductive EntryState
  | off
  | on
  | incompatible
  | generic
  deriving DecidableEq, Inhabited

namespace EntryState

def all : List EntryState := [off, on, incompatible, generic]

def name : EntryState → String
  | off => "OFF"
  | on => "ON"
  | incompatible => "INCOMPATIBLE"
  | generic => "GENERIC"

def ofName? (s : String) : Option EntryState :=
  all.find? (·.name == s)

theorem ofName?_name (s : EntryState) : ofName? s.name = some s := by cases s <;> decide

end EntryState

inductive Selector
  | any
  | named (agent : String)
  deriving DecidableEq

namespace Selector

def wildcard : String := "*"

def ofText (s : String) : Selector :=
  if s = wildcard then any else named s

def text : Selector → String
  | any => wildcard
  | named agent => agent

def selects : Selector → String → Bool
  | any, _ => true
  | named agent, other => agent == other

theorem text_ofText (s : String) : (ofText s).text = s := by
  unfold ofText
  split
  · rename_i h
    exact h.symm
  · rfl

end Selector

inductive Target
  | output (input output : String)
  | category (name : String)
  deriving DecidableEq

structure Rule where
  source : Selector
  target : Target
  deriving DecidableEq

namespace Rule

/-- The rule that feeds `input` from `agent.output`. -/
def feed (input agent output : String) : Rule :=
  ⟨.ofText agent, .output input output⟩

def ofCategory (agent category : String) : Rule :=
  ⟨.ofText agent, .category category⟩

def isCategory (r : Rule) : Bool :=
  match r.target with
  | .output _ _ => false
  | .category _ => true

def input? (r : Rule) : Option String :=
  match r.target with
  | .output input _ => some input
  | .category _ => none

/-- Whether the rule is the one that feeds `input` from `agent.output`, the wildcard being an agent
like any other here. -/
def isFeed (r : Rule) (input agent output : String) : Bool :=
  match r.target with
  | .output i o => i == input && o == output && r.source.text == agent
  | .category _ => false

def initialState (r : Rule) : EntryState :=
  if r.isCategory then .generic else .off

def text (r : Rule) : String :=
  match r.target with
  | .output input output => s!"{input} <- {r.source.text}.{output}"
  | .category category => s!"* <- {r.source.text}[{category}]"

def hasBlankName (r : Rule) : Bool :=
  match r.target with
  | .output input output => Text.isBlank input || Text.isBlank output
  | .category category => Text.isBlank category

end Rule

structure Mapping where
  name : String := ""
  description : String := ""
  version : String := ""
  rules : List Rule := []
  deriving DecidableEq

namespace Mapping

/-- Refuses a mapping with a blank name in one of its rules, the first of which is reported. -/
def check (m : Mapping) : Except Fault Unit :=
  match m.rules.find? Rule.hasBlankName with
  | some r => .error (.naming (.blank r.text))
  | none => .ok ()

end Mapping

end Patchbay
