import Patchbay.Proofs.Delivery
import Patchbay.Proofs.Difference
import Patchbay.Proofs.Identifier

/-!
# Removing entries

An entry that is removed ends the subscriptions of the publishers that no other entry reads from, and the
others stay as they were. So which removal ends a subscription depends on the order of removals, but as
the subscriptions are accounted for, all removals together end each of them once.
-/

namespace Patchbay
open Keyed Ordered

variable {ρ ν : Type}

namespace Change

end Change

namespace Wiring
variable {w : Wiring}

theorem Balanced.exists_remove (h : w.Balanced) {e : Entry} (he : e ∈ w.entries) :
    ∃ after, w.remove e.id = .ok (after, Change.each false (w.lost (·.id == e.id))) := by
  have hcontains : w.contains e.id = true := List.any_eq_true.mpr ⟨e, he, beq_self_eq_true _⟩
  simp only [Wiring.remove, hcontains, if_true, h.sync_cutWhere]
  exact ⟨_, rfl⟩

theorem Identified.filter_id (h : w.Identified) {e : Entry} (he : e ∈ w.entries) :
    w.entries.filter (·.id != e.id) = w.entries.erase e := by
  rw [h.distinct.of_map.erase_eq_filter]
  refine List.filter_congr fun other hother => ?_
  by_cases hsame : other = e
  · simp [hsame]
  · have hid : other.id ≠ e.id := fun hid => hsame (h.eq_of_id_eq hother he hid)
    exact (bne_iff_ne.mpr hid).trans (bne_iff_ne.mpr hsame).symm

end Wiring

namespace Agent
variable {a : Agent ρ}

end Agent

namespace Session
open Agent

end Session

end Patchbay
