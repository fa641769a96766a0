import Patchbay.Agent.Connect
import Patchbay.Agent.Declare

/-!
# Building an agent

A plan says what an agent starts with. Without a definition the agent has an empty one of its own name.
-/

namespace Patchbay

structure Plan where
  config : Config
  categories : List Category := []
  definition : Option Definition := none
  mapping : Option Mapping := none

namespace Plan

structure Site (ρ : Type) where
  agent : Agent ρ
  sent : List Effect

namespace Site

variable {ρ α : Type}

def next (site : Site ρ) (step : Agent ρ → Act ρ α) : Except (Fault × List Effect) (Site ρ) :=
  let act := step site.agent
  let sent := site.sent ++ act.sent
  match act.result with
  | .ok _ => .ok ⟨act.agent, sent⟩
  | .error fault => .error (fault, sent)

end Site

/-- The agent that a plan gives, or the fault at which its construction ends, each with what was asked
of the network on the way. -/
def build (ρ : Type) (p : Plan) : Except (Fault × List Effect) (Site ρ) := do
  let d ← match p.definition with
    | some d => .ok d
    | none => (Definition.new p.config.name).mapError (·, [])
  let bare ← (Definition.new d.name).mapError (·, [])
  let site ← p.categories.foldlM (fun site c => site.next (·.registerCategory c))
    (⟨{ config := p.config, definition := bare }, []⟩ : Site ρ)
  let site ← site.next (·.loadDefinition d)
  match p.mapping with
  | some m => site.next (·.loadMapping m)
  | none => return site

end Plan

end Patchbay
