import Patchbay.Proofs.Difference
import Patchbay.Proofs.Identifier
import Patchbay.Proofs.Replacement

/-!
# What a mapping that is loaded leaves

A mapping is refused for the first of its rules that is, and nothing has happened then. Otherwise there is
one entry for each of its rules, in the order in which they first come. What carries the inductions is
what is still to be laid out: the rules that follow without those that have an entry already, one of each.
-/

namespace Patchbay
open Ordered

variable {ρ : Type}

namespace Wiring

/-- What is still to be laid out: one of each rule that has no entry yet. -/
def pending (laid rules : List Rule) : List Rule :=
  (rules.filter fun r => !laid.contains r).eraseDups

section LayOut
variable (previous : List Entry) (rules : List Rule)

end LayOut

section Load
variable {w after : Wiring} {inputs : Interface} {m : Mapping} {changes : List Change}

end Load

/-- A new rule before the one that stays, and once more after it. -/
example : (Session.panel.agent.wiring.load Session.panel.agent.registry.table
      { rules := [.feed "light" "torch" "lit", .feed "light" "*" "lit", .feed "light" "torch" "lit"] }).map
    (fun (after, changes) => (after.entries.map fun e => (e.id, e.rule.text, e.state), changes)) =
      .ok ([(3, "light <- torch.lit", .off), (1, "light <- *.lit", .on)], []) := by
  decide

end Wiring

end Patchbay
