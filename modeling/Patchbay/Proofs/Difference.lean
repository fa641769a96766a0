import Patchbay.Proofs.Settled

/-!
# Differences of subscriptions

What an operation on a wiring reports is a difference of two sets of publishers: those that are no longer
subscribed and then those that newly are, one change for each, in the order of agents and outputs.

Entries that are cut take with them the publishers that no other entry reads from, and a pass leads to
the publishers that the links of the rules read from in its scene. Neither depends on the order of the
entries, nor on how many of them read from one publisher.
-/

namespace Patchbay
open Ordered

/-- One change for each publisher, in the order of agents and outputs. -/
def Change.each (active : Bool) (ps : Ordered Publisher) : List Change :=
  ps.toList.map fun p => ⟨p.agent, p.output, active⟩

namespace Change

theorem active_of_mem_each {active : Bool} {ps : Ordered Publisher} {c : Change}
    (h : c ∈ each active ps) : c.active = active := by
  obtain ⟨p, _, rfl⟩ := List.mem_map.mp h
  rfl

theorem publishers_each (active : Bool) (ps : Ordered Publisher) :
    (each active ps).map publisher = ps.toList := by
  simp only [each, List.map_map]
  exact List.map_id _

theorem effects_append (xs ys : List Change) : effects (xs ++ ys) = effects xs ++ effects ys :=
  List.map_append

theorem requests_ends_append (ps : Ordered Publisher) (xs : List Change) :
    requests (each false ps ++ xs) = requests xs := by
  simp [requests, each, List.filter_map, Function.comp_def]

theorem requests_each (ps : Ordered Publisher) :
    requests (each true ps) = ps.toList.map fun p => .request p.agent p.output := by
  simp [requests, each, List.filter_map, Function.comp_def]

end Change

namespace Wiring

def without (a b : Ordered Publisher) : Ordered Publisher :=
  a.filter fun p => !b.toList.contains p

theorem mem_without {a b : Ordered Publisher} {p : Publisher} :
    p ∈ (without a b).toList ↔ p ∈ a.toList ∧ p ∉ b.toList :=
  mem_changesFrom

theorem changesFrom_eq_each (active : Bool) (a b : Ordered Publisher) :
    changesFrom active a b = Change.each active (without a b) := rfl

section Cut
variable {w : Wiring} {p : Entry → Bool}

theorem mem_wanted_cutWhere {q : Publisher} :
    q ∈ (w.cutWhere p).wanted.toList ↔ ∃ e ∈ w.entries, p e = false ∧ e.Reads q := by
  rw [mem_wanted]
  constructor
  · rintro ⟨e, he, hq⟩
    rcases mem_entries_of_cutWhere he with ⟨hold, hkept⟩ | ⟨old, _, _, rfl⟩
    · exact ⟨e, hold, hkept, hq⟩
    · exact absurd hq (Entry.not_reads_cut old q)
  · rintro ⟨e, he, hkept, hq⟩
    refine ⟨e, List.mem_map.mpr ⟨e, he, if_neg ?_⟩, hq⟩
    rw [hkept]
    exact Bool.false_ne_true

/-- The publishers that are read from by entries that are cut, and by no others. -/
def lost (w : Wiring) (p : Entry → Bool) : Ordered Publisher :=
  without w.subscribed (w.cutWhere p).wanted

/-- Cutting entries ends subscriptions and begins none. -/
theorem Balanced.sync_cutWhere (h : w.Balanced) :
    (w.cutWhere p).sync.2 = Change.each false (w.lost p) := by
  have hsubset : (w.cutWhere p).wanted.toList ⊆ w.subscribed.toList := by
    intro q hq
    obtain ⟨e, he, _, hreads⟩ := mem_wanted_cutWhere.mp hq
    rw [h.subscribed, mem_wanted]
    exact ⟨e, he, hreads⟩
  calc (w.cutWhere p).sync.2
      = Change.each false (w.lost p) ++ changesFrom true (w.cutWhere p).wanted w.subscribed := rfl
    _ = Change.each false (w.lost p) := by
      rw [changesFrom_of_subset true hsubset, List.append_nil]

theorem Balanced.ends_cutWhere (h : w.Balanced) : ∀ c ∈ (w.cutWhere p).sync.2, c.active = false := by
  rw [h.sync_cutWhere]
  exact fun _ => Change.active_of_mem_each

theorem Balanced.ends_remove (h : w.Balanced) {after : Wiring} {id : Nat} {changes : List Change}
    (hremove : w.remove id = .ok (after, changes)) : ∀ c ∈ changes, c.active = false := by
  simp only [Wiring.remove] at hremove
  split at hremove
  · cases hremove
    exact h.ends_cutWhere
  · cases hremove

theorem Balanced.ends_load (h : w.Balanced) {after : Wiring} {inputs : Interface} {m : Mapping}
    {changes : List Change} (hload : w.load inputs m = .ok (after, changes)) :
    ∀ c ∈ changes, c.active = false := by
  obtain ⟨rfl, _⟩ := load_eq_ok hload
  exact h.ends_cutWhere

end Cut

section Pass
variable (w : Wiring) (scene : Scene)

theorem mem_subscribed_resolve {p : Publisher} : p ∈ (w.resolve scene).1.subscribed.toList ↔
    ∃ e ∈ w.entries, ∃ l ∈ (scene.links e.rule).toList, l.isOn = true ∧ l.publisher = p := by
  have hwanted : (w.resolve scene).1.subscribed = (w.resolve scene).1.wanted := rfl
  rw [hwanted, mem_wanted]
  constructor
  · rintro ⟨e, he, hreads⟩
    obtain ⟨old, hold, rfl⟩ := List.mem_map.mp he
    exact ⟨old, hold, hreads⟩
  · rintro ⟨e, he, hreads⟩
    exact ⟨e.resolve scene, List.mem_map_of_mem he, hreads⟩

theorem changes_resolve : (w.resolve scene).2 =
    Change.each false (without w.subscribed (w.resolve scene).1.subscribed) ++
      Change.each true (without (w.resolve scene).1.subscribed w.subscribed) := rfl

theorem nodup_publishers_resolve : ((w.resolve scene).2.map Change.publisher).Nodup := by
  rw [changes_resolve, List.map_append, Change.publishers_each, Change.publishers_each,
    List.nodup_append]
  refine ⟨nodup_toList _, nodup_toList _, ?_⟩
  rintro p hended q hbegun rfl
  exact (mem_without.mp hended).2 (mem_without.mp hbegun).1

theorem resolve_again : (w.resolve scene).1.resolve scene = ((w.resolve scene).1, []) := by
  generalize hafter : (w.resolve scene).1 = after
  have hresolved : after.Resolved scene := hafter ▸ resolved_resolve w scene
  have hsubscribed : after.subscribed = after.wanted := by
    rw [← hafter]
    rfl
  rw [resolve, hresolved.map_resolve]
  exact sync_eq_of_subscribed hsubscribed

end Pass

end Wiring

end Patchbay
