import Patchbay.Proofs.Document
import Patchbay.Proofs.Export

/-!
# Categories within definitions

A category comes into being in three ways: slot after slot, from a document of its own, or within the
document of a definition. Whichever it is, the slots obey the same rules, so a category that came with a
definition can be written down by itself and read again, and can be put together from its slots.

The one rule that the check of a definition leaves out is that a category has a name. A nameless one gets
in with a definition, and nowhere else.
-/

namespace Patchbay
open Interface

namespace Category

section Accepted
variable {c : Category}

end Accepted

end Category

def dimmer : Category :=
  { name := "dimmer"
    version := "2"
    slots :=
      { inputs := [⟨"dim", .impulsion, .impulsion, false⟩]
        outputs := [⟨"level", .double, .double (.signed true 0), true⟩] } }

def dimmed : Definition := { name := "lamp", categories := [dimmer] }

end Patchbay
