import Patchbay.Proofs.Delivery
import Patchbay.Proofs.Difference

/-!
# What loading a mapping asks of the network

A mapping is loaded in two passes. The first cuts the entries whose rules go and ends the subscriptions
that no other entry needs; the second resolves the new entries and begins theirs. Entries that stay keep
their links through both, so a publisher that one of them reads from is left alone. Any other publisher
is dropped in the first pass if it was subscribed and taken up in the second if it will be, also where it
is the same one: the first pass does not know what the new rules will come to.
-/

namespace Patchbay
open Ordered

variable {ρ ν : Type}

namespace Wiring

/-- The publishers that an entry reads from whose rule the mapping has as well. -/
def held (w : Wiring) (m : Mapping) : Ordered Publisher :=
  .ofList ((w.entries.filter fun e => m.rules.contains e.rule).flatMap fun e => e.links.publishers)

section Held
variable {w : Wiring} {m : Mapping}

theorem mem_held {p : Publisher} :
    p ∈ (w.held m).toList ↔ ∃ e ∈ w.entries, e.rule ∈ m.rules ∧ e.Reads p := by
  simp only [held]
  rw [mem_ofList_of_injective Publisher.key_injective]
  simp only [List.mem_flatMap, List.mem_filter, List.contains_iff_mem, Entry.mem_publishers, Entry.Reads,
    and_assoc]

/-- With the other entries cut, what is held is all that is read from. -/
theorem wanted_cut (w : Wiring) (m : Mapping) :
    (w.cutWhere fun e => !m.rules.contains e.rule).wanted = w.held m := by
  refine ext_mem fun p => ?_
  rw [mem_wanted_cutWhere, mem_held]
  simp

theorem Balanced.held_subset (h : w.Balanced) : (w.held m).toList ⊆ w.subscribed.toList := by
  intro p hp
  obtain ⟨e, he, _, hreads⟩ := mem_held.mp hp
  rw [h.subscribed, mem_wanted]
  exact ⟨e, he, hreads⟩

end Held

section Load
variable {w loaded : Wiring} {inputs : Interface} {m : Mapping} {dropped : List Change}

/-- The first pass ends what is not held and begins nothing. -/
theorem Balanced.dropped_eq (h : w.Balanced) (hload : w.load inputs m = .ok (loaded, dropped)) :
    dropped = changesFrom false w.subscribed (w.held m) ∧ loaded.subscribed = w.held m := by
  obtain ⟨rfl, rfl⟩ := load_eq_ok hload
  have hheld := wanted_cut w m
  refine ⟨?_, hheld⟩
  rw [h.sync_cutWhere, lost, hheld]
  rfl

/-- An entry whose rule stays is laid out again as it was. -/
theorem Balanced.mem_load (h : w.Balanced) (hload : w.load inputs m = .ok (loaded, dropped)) {e : Entry}
    (he : e ∈ w.entries) (hrule : e.rule ∈ m.rules) : e ∈ loaded.entries := by
  obtain ⟨_, rfl⟩ := load_eq_ok hload
  have hdistinct : ((w.cutWhere fun e => !m.rules.contains e.rule).entries.map (·.rule)).Nodup := by
    rw [rules_cutWhere]
    exact h.distinct
  have hcut : e ∈ (w.cutWhere fun e => !m.rules.contains e.rule).entries :=
    List.mem_map.mpr ⟨e, he, if_neg (by simpa using hrule)⟩
  exact mem_layOut (fun other hother heq => List.inj_on_of_nodup_map hdistinct hother hcut heq)
    (fun other hother => absurd hother List.not_mem_nil) hcut hrule

/-- The second pass over the same scene reads on from what is held, so it ends nothing. -/
theorem Balanced.held_subset_resolve (h : w.Balanced) {scene : Scene} (hresolved : w.Resolved scene)
    (hload : w.load inputs m = .ok (loaded, dropped)) :
    (w.held m).toList ⊆ (loaded.resolve scene).1.subscribed.toList := by
  intro p hp
  obtain ⟨e, he, hrule, hreads⟩ := mem_held.mp hp
  have hlaid : e ∈ (loaded.resolve scene).1.entries :=
    List.mem_map.mpr ⟨e, h.mem_load hload he hrule, hresolved e he⟩
  have hbalanced := ((h.load hload).balanced.resolve scene).balanced
  rw [hbalanced.subscribed, mem_wanted]
  exact ⟨e, hlaid, hreads⟩

theorem Balanced.begun_eq (h : w.Balanced) {scene : Scene} (hresolved : w.Resolved scene)
    (hload : w.load inputs m = .ok (loaded, dropped)) :
    (loaded.resolve scene).2 = changesFrom true (loaded.resolve scene).1.subscribed (w.held m) := by
  have hsubset := h.held_subset_resolve hresolved hload
  have hsubscribed := (h.dropped_eq hload).2
  calc (loaded.resolve scene).2
      = changesFrom false (w.held m) (loaded.resolve scene).1.subscribed ++
          changesFrom true (loaded.resolve scene).1.subscribed (w.held m) := by
        rw [← hsubscribed]
        rfl
    _ = changesFrom true (loaded.resolve scene).1.subscribed (w.held m) := by
        rw [changesFrom_of_subset false hsubset, List.nil_append]

end Load

/-- Ending and beginning around what is held comes to the net change if and only if everything that is
subscribed before and after is held. -/
theorem net_iff_held {before after held : Ordered Publisher} (hbefore : held.toList ⊆ before.toList)
    (hafter : held.toList ⊆ after.toList) :
    changesFrom false before held ++ changesFrom true after held =
        changesFrom false before after ++ changesFrom true after before ↔
      ∀ p ∈ before.toList, p ∈ after.toList → p ∈ held.toList := by
  constructor
  · intro hnet p hp hp'
    by_contra hfree
    have hends : (⟨p.agent, p.output, false⟩ : Change) ∈
        changesFrom false before after ++ changesFrom true after before := by
      rw [← hnet]
      exact List.mem_append_left _ (change_mem_changesFrom.mpr ⟨rfl, hp, hfree⟩)
    rcases List.mem_append.mp hends with h | h
    · exact (change_mem_changesFrom.mp h).2.2 hp'
    · cases (change_mem_changesFrom.mp h).1
  · intro hheld
    have hcongr {active : Bool} {a b : Ordered Publisher}
        (h : ∀ p ∈ a.toList, p ∈ held.toList ↔ p ∈ b.toList) :
        changesFrom active a held = changesFrom active a b := by
      simp only [changesFrom]
      refine congrArg _ (List.filter_congr fun p hp => ?_)
      simp only [List.contains_eq_mem, h p hp]
    rw [hcongr fun p hp => ⟨fun h => hafter h, hheld p hp⟩,
      hcongr fun p hp => ⟨fun h => hbefore h, fun h => hheld p h hp⟩]

end Wiring

/-- Both passes of a load, of which the second resolves over the scene as it was. -/
theorem Agent.loadMapping_eq {a : Agent ρ} {m : Mapping} {loaded : Wiring} {dropped : List Change}
    (hload : a.wiring.load a.registry.table m = .ok (loaded, dropped)) :
    let begun := (loaded.resolve a.scene).2
    (a.loadMapping m).agent.wiring = (loaded.resolve a.scene).1 ∧
      (a.loadMapping m).result = .ok (dropped ++ begun) ∧
      (a.loadMapping m).sent = Change.effects dropped ++ (Change.effects begun ++
        if a.config.requestOutputs then Change.requests begun else []) := by
  simp only [Agent.loadMapping, hload]
  exact ⟨rfl, rfl, rfl⟩

namespace Session
open Wiring

/-- Loading a mapping ends the subscriptions that no entry holds whose rule stays, and begins the new ones,
each in the order of agents and outputs; this is what is returned and what is asked of the network. What is
held stays subscribed and is not among the changes. So they are the net changes if and only if every
publisher that is subscribed before and after is held. -/
theorem mapping_replaced {s : Session ρ ν} (h : s.Reachable) {m : Mapping} {changes : List Change}
    (hload : (s.agent.loadMapping m).result = .ok changes) :
    let act := s.agent.loadMapping m
    let before := s.agent.wiring.subscribed
    let after := act.agent.wiring.subscribed
    let held := s.agent.wiring.held m
    changes = changesFrom false before held ++ changesFrom true after held ∧
    act.sent = Change.effects changes ++
      (if s.agent.config.requestOutputs then Change.requests changes else []) ∧
    (∀ p ∈ held.toList, p ∈ before.toList ∧ p ∈ after.toList) ∧
    (changes = changesFrom false before after ++ changesFrom true after before ↔
      ∀ p ∈ before.toList, p ∈ after.toList → p ∈ held.toList) := by
  intro act before after held
  have hbalanced := h.settled.balanced
  have hresolved := h.settled.resolved
  obtain ⟨loaded, dropped, hloaded⟩ :
      ∃ loaded dropped, s.agent.wiring.load s.agent.registry.table m = .ok (loaded, dropped) := by
    simp only [Agent.loadMapping] at hload
    split at hload
    · cases hload
    · rename_i loaded dropped hloaded
      exact ⟨loaded, dropped, hloaded⟩
  obtain ⟨hwiring, hresult, hsent⟩ := Agent.loadMapping_eq hloaded
  obtain ⟨hdropped, _⟩ := hbalanced.dropped_eq hloaded
  have hbegun := hbalanced.begun_eq hresolved hloaded
  have hafter : after = (loaded.resolve s.agent.scene).1.subscribed := congrArg Wiring.subscribed hwiring
  have hkept : held.toList ⊆ after.toList := hafter ▸ hbalanced.held_subset_resolve hresolved hloaded
  rw [← hafter] at hbegun
  rw [hdropped, hbegun] at hresult hsent
  have hchanges : changes = changesFrom false before held ++ changesFrom true after held := by
    rw [hload] at hresult
    exact Except.ok.inj hresult
  refine ⟨hchanges, ?_, fun p hp => ⟨hbalanced.held_subset hp, hkept hp⟩, ?_⟩
  · rw [hsent, hchanges, Change.effects_append, changesFrom_eq_each false, Change.requests_ends_append,
      List.append_assoc]
  · rw [hchanges]
    exact net_iff_held hbalanced.held_subset hkept

/-- One of the two readers of the lamp goes, and the other holds the subscription. -/
theorem panel_pruned :
    let act := panel.agent.loadMapping { rules := [⟨.any, .output "light" "lit"⟩] }
    panel.Reachable ∧ act.result = .ok [] ∧ act.sent = [] ∧
      ⟨"lamp", "lit"⟩ ∈ panel.agent.wiring.subscribed.toList ∧
      ⟨"lamp", "lit"⟩ ∈ act.agent.wiring.subscribed.toList := by
  have hload : (panel.agent.loadMapping { rules := [⟨.any, .output "light" "lit"⟩] }).result = .ok [] := by
    decide
  obtain ⟨_, hsent, hheld, _⟩ := mapping_replaced reachable_panel hload
  have hlamp := hheld ⟨"lamp", "lit"⟩ (by decide)
  exact ⟨reachable_panel, hload, hsent, hlamp.1, hlamp.2⟩

/-- Both readers of the lamp go and another one comes: the subscription is ended and begun again. -/
theorem panel_rewired :
    let act := panel.agent.loadMapping { rules := [⟨.named "lamp", .output "light" "lit"⟩] }
    panel.Reachable ∧ act.result = .ok [⟨"lamp", "lit", false⟩, ⟨"lamp", "lit", true⟩] ∧
      ⟨"lamp", "lit"⟩ ∈ panel.agent.wiring.subscribed.toList ∧
      ⟨"lamp", "lit"⟩ ∈ act.agent.wiring.subscribed.toList :=
  ⟨reachable_panel, by decide⟩

end Session

end Patchbay
