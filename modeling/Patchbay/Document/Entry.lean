import Patchbay.Document.Mapping
import Patchbay.Wiring.Basic

/-!
# Documents of entries

An entry is written with its identifier, its rule and its state, for information only.
-/

namespace Patchbay.Entry

def toJson (e : Entry) : Json :=
  .object (("id", .int e.id) :: e.rule.jsonFields ++ [("state", .ofString e.state.name)])

end Patchbay.Entry
