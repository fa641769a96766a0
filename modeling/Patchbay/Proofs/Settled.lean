import Patchbay.Proofs.Ledger
import Patchbay.Proofs.Links
import Patchbay.Proofs.Run

/-!
# An agent is always resolved

Between any two steps of a run, every entry of an agent has the links and the state that a pass over
its present scene would give it, so another pass changes nothing and asks nothing of the network.

The passes that operations leave out would have had no effect: outputs and parameters are not part of
what links depend on, and removing entries leaves the links of the others. That a category is adopted
or a slot removed as a whole or not at all follows from the definition and the live slots being
aligned.
-/

namespace Patchbay
open Interface

/-- Definition and live slots declare the same names with the same types. -/
def Aligned (table : Interface) (d : Definition) : Prop :=
  ∀ kind name, table.type? kind name = (d.find? kind name).map (·.type)

namespace Wiring

def Resolved (w : Wiring) (scene : Scene) : Prop :=
  ∀ e ∈ w.entries, e.resolve scene = e

theorem sync_eq_of_subscribed {w : Wiring} (h : w.subscribed = w.wanted) : w.sync = (w, []) := by
  simp only [sync, ← h, changesFrom_of_subset _ (List.Subset.refl _), List.append_nil]

theorem Balanced.sync_eq {w : Wiring} (h : w.Balanced) : w.sync = (w, []) :=
  sync_eq_of_subscribed h.subscribed

theorem Resolved.map_resolve {w : Wiring} {scene : Scene} (h : w.Resolved scene) :
    w.entries.map (Entry.resolve scene) = w.entries := by
  rw [List.map_congr_left h]
  exact List.map_id _

/-- A pass over a scene that the entries are already in line with has no effect. -/
theorem Balanced.resolve_eq {w : Wiring} (h : w.Balanced) {scene : Scene} (hr : w.Resolved scene) :
    w.resolve scene = (w, []) := by
  simp only [Wiring.resolve, hr.map_resolve]
  exact h.sync_eq

theorem resolved_resolve (w : Wiring) (scene : Scene) : (w.resolve scene).1.Resolved scene := by
  intro e he
  obtain ⟨old, _, rfl⟩ := List.mem_map.mp he
  exact Entry.resolve_resolve scene scene old

theorem Resolved.of_links {w : Wiring} {S T : Scene} (h : w.Resolved S)
    (hlinks : ∀ e ∈ w.entries, T.links e.rule = S.links e.rule) : w.Resolved T := by
  intro e he
  rw [Entry.resolve_congr (hlinks e he)]
  exact h e he

theorem Resolved.congr {w : Wiring} {S T : Scene} (h : w.Resolved S)
    (hi : ∀ input, T.inputs.type? .input input = S.inputs.type? .input input)
    (hp : T.peers = S.peers) (hc : T.catalog = S.catalog) : w.Resolved T :=
  h.of_links fun e _ => Scene.links_congr hi hc hp e.rule

/-- The entry goes, and the others stay as they were and where they were. -/
theorem entries_remove {w after : Wiring} {id : Nat} {changes : List Change}
    (h : w.remove id = .ok (after, changes)) : after.entries = w.entries.filter (·.id != id) := by
  simp only [remove] at h
  split at h
  · cases h
    simp only [sync, cutWhere, List.filter_map]
    have hids : ((fun e : Entry => e.id != id) ∘ fun e => if e.id == id then e.cut else e) =
        fun e => e.id != id := by
      funext e
      simp only [Function.comp_apply]
      split <;> rfl
    rw [hids]
    refine (List.map_congr_left fun e he => if_neg ?_).trans (List.map_id _)
    simpa using (List.mem_filter.mp he).2
  · cases h

theorem mem_of_mem_remove {w after : Wiring} {id : Nat} {changes : List Change}
    (h : w.remove id = .ok (after, changes)) {e : Entry} (he : e ∈ after.entries) :
    e ∈ w.entries :=
  (List.mem_filter.mp (entries_remove h ▸ he)).1

end Wiring

namespace Agent

variable {ρ : Type}

structure Settled (a : Agent ρ) : Prop where
  balanced : a.wiring.Balanced
  resolved : a.wiring.Resolved a.scene
  aligned : Aligned a.registry.table a.definition

theorem settled_bare (config : Config) (name : String) :
    ({ config, definition := { name } } : Agent ρ).Settled := by
  refine ⟨Wiring.balanced_new, ?_, ?_⟩
  · intro e he
    exact absurd he List.not_mem_nil
  · intro kind name
    cases kind <;> rfl

theorem settled_resolve {a : Agent ρ} (hbalanced : a.wiring.Balanced)
    (haligned : Aligned a.registry.table a.definition) : a.resolve.agent.Settled :=
  ⟨(hbalanced.resolve a.scene).balanced, Wiring.resolved_resolve a.wiring a.scene, haligned⟩

theorem Settled.pass {a b : Agent ρ} (h : a.Settled) (hwiring : b.wiring = a.wiring)
    (haligned : Aligned b.registry.table b.definition) : b.resolve.agent.Settled := by
  apply settled_resolve _ haligned
  rw [hwiring]
  exact h.balanced

theorem Settled.resolve_eq {a : Agent ρ} (h : a.Settled) : a.resolve = a.done [] := by
  have hpass : a.wiring.resolve a.scene = (a.wiring, []) := h.balanced.resolve_eq h.resolved
  simp only [resolve, hpass, done, Change.effects, Change.requests, List.filter_nil, List.map_nil,
    List.nil_append, ite_self]

/-- An agent whose links depend on the same as before, and whose wiring is the same, is settled. -/
theorem Settled.frame {a b : Agent ρ} (h : a.Settled) (hwiring : b.wiring = a.wiring)
    (hpeers : b.peers = a.peers) (hcatalog : b.catalog = a.catalog)
    (hinputs : ∀ input, b.registry.table.type? .input input = a.registry.table.type? .input input)
    (haligned : Aligned b.registry.table b.definition) : b.Settled := by
  refine ⟨?_, ?_, haligned⟩
  · rw [hwiring]
    exact h.balanced
  · rw [hwiring]
    exact h.resolved.congr hinputs hpeers hcatalog

/-- Nothing that is left of the wiring was touched. -/
theorem Settled.unwired {a : Agent ρ} (h : a.Settled) {id : Nat} {wiring : Wiring}
    {changes : List Change} (hremove : a.wiring.remove id = .ok (wiring, changes)) :
    (a.unwired wiring changes).agent.Settled := by
  refine ⟨(h.balanced.remove hremove).balanced, ?_, h.aligned⟩
  intro e he
  exact h.resolved e (Wiring.mem_of_mem_remove hremove he)

section Declare

theorem Settled.resolveFor {a b : Agent ρ} (h : a.Settled) {kind : SlotKind}
    (hwiring : b.wiring = a.wiring) (hpeers : b.peers = a.peers) (hcatalog : b.catalog = a.catalog)
    (htypes : ∀ k name, k ≠ kind → b.registry.table.type? k name = a.registry.table.type? k name)
    (haligned : Aligned b.registry.table b.definition) : (b.resolveFor kind).agent.Settled := by
  simp only [Agent.resolveFor]
  split
  · exact h.pass hwiring haligned
  · rename_i hkind
    have hinputs (input : String) :
        b.registry.table.type? .input input = a.registry.table.type? .input input :=
      htypes .input input fun heq => hkind heq.symm
    exact h.frame hwiring hpeers hcatalog hinputs haligned

/-- A slot that the definition refuses is taken out of the registry again. -/
theorem remove_create {r after : Registry ρ} {kind : SlotKind} {name : String} {type : ValueType}
    {initial : Option Value} {s : Slot} (h : r.create kind name type initial = .ok (s, after)) :
    ∃ t, after.remove kind name = .ok (t, r) := by
  have hsome : (after.table.type? kind name).isSome = true := by
    simp [Interface.type?, Registry.find?_create h]
  obtain ⟨t, hremove⟩ := Registry.remove_of_type? hsome
  obtain ⟨hname, _, hfree, rfl⟩ := Registry.create_eq_ok h
  refine ⟨t, ?_⟩
  rw [hremove, ← hname, erase_append hfree]

theorem Settled.createSlot {a : Agent ρ} (h : a.Settled) (kind : SlotKind) (name : String)
    (type : ValueType) (initial : Option Value) :
    (a.createSlot kind name type initial).agent.Settled := by
  simp only [Agent.createSlot]
  cases hcreate : a.registry.create kind name type initial with
  | error fault => exact h
  | ok made =>
    obtain ⟨s, registry⟩ := made
    have hname : s.name = name := (Registry.create_eq_ok hcreate).1
    dsimp only
    cases hadd : a.definition.addSlot kind s with
    | ok d =>
      refine h.resolveFor rfl rfl rfl ?_ ?_
      · intro k n hk
        simp only [Interface.type?, Registry.find?_create hcreate, hk, false_and, if_false]
      · intro k n
        simp only [Interface.type?, Registry.find?_create hcreate, Definition.find?_addSlot hadd, hname]
        split
        · rfl
        · exact h.aligned k n
    | error fault =>
      obtain ⟨t, hremove⟩ := remove_create hcreate
      simp only [hremove]
      exact h

/-- A slot that the definition lets go is a live one. -/
theorem Settled.remove_registry {a : Agent ρ} (h : a.Settled) {kind : SlotKind} {name : String}
    {s : Slot} {d : Definition} (hdrop : a.definition.removeSlot kind name = .ok (s, d)) :
    ∃ t, a.registry.remove kind name =
      .ok (t, { a.registry with table := a.registry.table.erase kind name }) := by
  apply Registry.remove_of_type?
  rw [h.aligned, (Definition.find?_removeSlot hdrop).1]
  rfl

theorem Settled.removeSlot {a : Agent ρ} (h : a.Settled) (kind : SlotKind) (name : String) :
    (a.removeSlot kind name).agent.Settled := by
  simp only [Agent.removeSlot]
  cases hdrop : a.definition.removeSlot kind name with
  | error fault => exact h
  | ok dropped =>
    obtain ⟨s, d⟩ := dropped
    have hothers := (Definition.find?_removeSlot hdrop).2
    obtain ⟨t, hremove⟩ := h.remove_registry hdrop
    simp only [hremove]
    refine h.resolveFor rfl rfl rfl ?_ ?_
    · intro k n hk
      simp only [Interface.type?, find?_erase, hk, false_and, if_false]
    · intro k n
      simp only [Interface.type?, find?_erase, hothers]
      split
      · rfl
      · exact h.aligned k n

/-- The live slots may change in everything but their types. -/
theorem Settled.withRegistry {a : Agent ρ} (h : a.Settled) {outcome : Except Fault (Registry ρ)}
    (htypes : ∀ registry, outcome = .ok registry →
      ∀ kind name, registry.table.type? kind name = a.registry.table.type? kind name) :
    (a.withRegistry outcome).agent.Settled := by
  cases outcome with
  | error fault => exact h
  | ok registry =>
    have hsame := htypes registry rfl
    refine h.frame rfl rfl rfl (hsame .input) ?_
    intro kind name
    exact (hsame kind name).trans (h.aligned kind name)

/-- The definition may change in everything but its slots. -/
theorem Settled.withDefinition {a : Agent ρ} (h : a.Settled) {outcome : Except Fault Definition}
    (hslots : ∀ d, outcome = .ok d → ∃ calls, d = { a.definition with calls }) :
    (a.withDefinition outcome).agent.Settled := by
  cases outcome with
  | error fault => exact h
  | ok d =>
    obtain ⟨calls, rfl⟩ := hslots d rfl
    exact h.frame rfl rfl rfl (fun _ => rfl) h.aligned

theorem updateCall_eq_ok {d after : Definition} {name : String} {change : Call → Except Fault Call}
    (h : d.updateCall name change = .ok after) : ∃ calls, after = { d with calls } := by
  simp only [Definition.updateCall] at h
  split at h
  · obtain ⟨c, _, rfl⟩ := of_map_eq_ok h
    exact ⟨_, rfl⟩
  · cases h

theorem Settled.addCall {a : Agent ρ} (h : a.Settled) (c : Call) : (a.addCall c).agent.Settled := by
  apply h.withDefinition
  intro d hd
  simp only [Definition.addCall] at hd
  split at hd
  · cases hd
  · split at hd
    · cases hd
    · cases hd
      exact ⟨_, rfl⟩

theorem Settled.removeCall {a : Agent ρ} (h : a.Settled) (name : String) :
    (a.removeCall name).agent.Settled := by
  simp only [Agent.removeCall, Definition.removeCall]
  cases a.definition.call? name with
  | none => exact h
  | some c => exact h.frame rfl rfl rfl (fun _ => rfl) h.aligned

theorem Settled.loadDefinition {a : Agent ρ} (h : a.Settled) (d : Definition) :
    (a.loadDefinition d).agent.Settled := by
  simp only [Agent.loadDefinition]
  cases d.validate with
  | error fault => exact h
  | ok _ =>
    cases htable : d.interface with
    | error why => exact h
    | ok table =>
      refine h.pass rfl ?_
      intro kind name
      exact congrArg (Option.map (·.type)) (Definition.find?_interface htable kind name)

theorem Settled.loadDefinitionText {a : Agent ρ} (h : a.Settled) (s : String) :
    (a.loadDefinitionText s).agent.Settled := by
  simp only [Agent.loadDefinitionText]
  cases Definition.ofText s with
  | error fault => exact h
  | ok d => exact h.loadDefinition d

theorem Settled.clearDefinition {a : Agent ρ} (h : a.Settled) :
    a.clearDefinition.agent.Settled := by
  simp only [Agent.clearDefinition]
  cases hnew : Definition.new a.definition.name with
  | error fault => exact h
  | ok d =>
    rw [Definition.new_eq_ok hnew]
    refine h.pass rfl ?_
    intro kind name
    cases kind <;> rfl

theorem Settled.setDefinitionName {a : Agent ρ} (h : a.Settled) (name : String) :
    (a.setDefinitionName name).agent.Settled := by
  simp only [Agent.setDefinitionName]
  cases checkName name with
  | error fault => exact h
  | ok _ => exact h.frame rfl rfl rfl (fun _ => rfl) h.aligned

/-- What a category brings in was neither declared nor live before. -/
theorem Settled.find?_member {a : Agent ρ} (h : a.Settled) {c : Category} {d : Definition}
    (hadd : a.definition.addCategory c = .ok d) {kind : SlotKind} {member : Slot}
    (hmember : member ∈ c.slots.slots kind) : a.registry.find? kind member.name = none := by
  have hnew := Definition.find?_eq_none_of_addCategory hadd hmember
  have hnone : a.registry.table.type? kind member.name = none := by
    rw [h.aligned, hnew]
    rfl
  exact Option.map_eq_none_iff.mp hnone

/-- The slots of a category that the definition takes can all be declared beside what is live. -/
theorem Settled.createAll {a : Agent ρ} (h : a.Settled) {c : Category} {d : Definition}
    (hadd : a.definition.addCategory c = .ok d) (hc : c.slots.Sound) :
    ∃ registry, Registry.createAll c.slots.all a.registry = (registry, .ok ()) ∧
      ∀ kind name, registry.find? kind name =
        (a.registry.find? kind name).or ((c.slots.find? kind name).map Slot.unmuted) := by
  have hvalid : ∀ t ∈ c.slots.all, t.2.Valid := by
    intro t ht
    exact hc.valid t.1 t.2 (mem_all.mp ht)
  have hfree : ∀ t ∈ c.slots.all, a.registry.table.contains t.1 t.2.name = false := by
    intro t ht
    exact find?_eq_none_iff.mp (h.find?_member hadd (mem_all.mp ht))
  simp only [← findIn_all c.slots]
  exact Registry.createAll_spec hvalid hfree (pairwise_all hc)

theorem Settled.addCategory {a : Agent ρ} (h : a.Settled) {c : Category} (hc : c.slots.Sound) :
    (a.addCategory c).agent.Settled := by
  simp only [Agent.addCategory]
  cases hadd : a.definition.addCategory c with
  | error fault => exact h
  | ok d =>
    obtain ⟨registry, hcreated, hslots⟩ := h.createAll hadd hc
    simp only [hcreated]
    refine h.pass rfl ?_
    intro kind name
    rw [Definition.find?_addCategory hadd, Option.map_or, ← h.aligned]
    simp only [Interface.type?]
    rw [show registry.table.find? kind name = _ from hslots kind name, Option.map_or, Option.map_map]
    rfl

theorem Settled.registerCategory {a : Agent ρ} (h : a.Settled) (c : Category) :
    (a.registerCategory c).agent.Settled :=
  h.pass rfl h.aligned

theorem Settled.unregisterCategory {a : Agent ρ} (h : a.Settled) (name : String) :
    (a.unregisterCategory name).agent.Settled := by
  simp only [Agent.unregisterCategory]
  cases a.catalog.find? name with
  | none => exact h
  | some c => exact h.pass rfl h.aligned

end Declare

section Connect

theorem Settled.addRule {a : Agent ρ} (h : a.Settled) (r : Rule) : (a.addRule r).agent.Settled := by
  simp only [Agent.addRule]
  cases hadd : a.wiring.add a.registry.table r with
  | error fault => exact h
  | ok made =>
    exact settled_resolve (a := { a with wiring := made.2 }) (h.balanced.add hadd).balanced h.aligned

theorem Settled.removeEntry {a : Agent ρ} (h : a.Settled) (id : Nat) :
    (a.removeEntry id).agent.Settled := by
  simp only [Agent.removeEntry]
  cases hremove : a.wiring.remove id with
  | error fault => exact h
  | ok done => exact h.unwired hremove

theorem Settled.removeFeed {a : Agent ρ} (h : a.Settled) (input agent output : String) :
    (a.removeFeed input agent output).agent.Settled := by
  simp only [Agent.removeFeed]
  cases hfeed : a.wiring.removeFeed input agent output with
  | error fault => exact h
  | ok done => exact h.unwired (Wiring.removeFeed_eq_ok hfeed)

theorem Settled.clearMappings {a : Agent ρ} (h : a.Settled) : a.clearMappings.agent.Settled := by
  refine ⟨h.balanced.clear.balanced, ?_, h.aligned⟩
  intro e he
  exact absurd he List.not_mem_nil

theorem Settled.loadMapping {a : Agent ρ} (h : a.Settled) (m : Mapping) :
    (a.loadMapping m).agent.Settled := by
  simp only [Agent.loadMapping]
  cases hload : a.wiring.load a.registry.table m with
  | error fault => exact h
  | ok done =>
    exact settled_resolve (a := { a with wiring := done.1 }) (h.balanced.load hload).balanced h.aligned

theorem Settled.loadMappingText {a : Agent ρ} (h : a.Settled) (s : String) :
    (a.loadMappingText s).agent.Settled := by
  simp only [Agent.loadMappingText]
  cases Mapping.ofText s with
  | error fault => exact h
  | ok m => exact h.loadMapping m

theorem Settled.describeMapping {a : Agent ρ} (h : a.Settled) (name description version : String) :
    (a.describeMapping name description version).Settled :=
  ⟨⟨h.balanced.subscribed, h.balanced.distinct⟩, h.resolved, h.aligned⟩

/-- What is heard of peers is followed by a pass, whether their definitions are refused or not. -/
theorem Settled.withPeers {a : Agent ρ} (h : a.Settled) (peers : Peers) :
    (resolve { a with peers }).agent.Settled :=
  h.pass rfl h.aligned

theorem Settled.hearPeer {a : Agent ρ} (h : a.Settled) (agent : String) (d : Option Definition) :
    (a.hearPeer agent d).agent.Settled := by
  have hpass := h.withPeers (a.peers.apply agent d).1
  simp only [Agent.hearPeer]
  split
  · exact hpass
  · exact hpass

theorem Settled.hearPeerText {a : Agent ρ} (h : a.Settled) (agent : String) (text : Option String) :
    (a.hearPeerText agent text).agent.Settled := by
  cases text with
  | none => exact h.hearPeer agent none
  | some s =>
    simp only [Agent.hearPeerText]
    cases Definition.ofText s with
    | error fault => exact h.withPeers _
    | ok d => exact h.hearPeer agent (some d)

end Connect

section Observe

/-- Nothing that links depend on and nothing that is declared was touched. -/
theorem Settled.same {a b : Agent ρ} (h : a.Settled) (hwiring : b.wiring = a.wiring)
    (hpeers : b.peers = a.peers) (hcatalog : b.catalog = a.catalog)
    (htable : b.registry.table = a.registry.table) (hdefinition : b.definition = a.definition) :
    b.Settled := by
  refine h.frame hwiring hpeers hcatalog (fun _ => by rw [htable]) ?_
  rw [htable, hdefinition]
  exact h.aligned

theorem Settled.observe {a : Agent ρ} (h : a.Settled) (kind : SlotKind) (name : String) (who : ρ) :
    (a.observe kind name who).agent.Settled := by
  simp only [Agent.observe]
  cases hobserve : a.registry.observe kind name who with
  | error fault => exact h
  | ok done =>
    obtain ⟨s, _, rfl⟩ := of_map_eq_ok hobserve
    exact h.same rfl rfl rfl rfl rfl

theorem Settled.unobserve {a : Agent ρ} (h : a.Settled) (id : Nat) :
    (a.unobserve id).agent.Settled := by
  simp only [Agent.unobserve]
  split
  · exact h.same rfl rfl rfl rfl rfl
  · exact h.same rfl rfl rfl rfl rfl

end Observe

end Agent

namespace Session
open Agent

variable {ρ ν : Type}

theorem settled_perform {s : Session ρ ν} (h : s.agent.Settled) {op : Op ρ ν} (sound : op.Sound)
    (quiet : op.Quiet) (react : React ρ ν) : (s.perform react op).1.agent.Settled := by
  cases op with
  | note look => exact h
  | createSlot kind name type initial => exact h.createSlot kind name type initial
  | removeSlot kind name => exact h.removeSlot kind name
  | write kind name value => exact quiet.elim
  | writeAs kind name value => exact quiet.elim
  | writeImpulsion kind name => exact quiet.elim
  | clearSlot kind name =>
    exact h.withRegistry fun registry hclear => Registry.type?_clear hclear
  | setOutputMuted name flag =>
    exact h.withRegistry fun registry hmute => Registry.type?_setMuted hmute
  | setMuted flag => exact quiet.elim
  | setFrozen flag => exact quiet.elim
  | observe kind name who => exact h.observe kind name who
  | observeAll who => exact h.same rfl rfl rfl rfl rfl
  | observeMute who => exact h.same rfl rfl rfl rfl rfl
  | observeFreeze who => exact h.same rfl rfl rfl rfl rfl
  | unobserve id => exact h.unobserve id
  | addRule rule => exact h.addRule rule
  | removeEntry id => exact h.removeEntry id
  | removeFeed input agent output => exact h.removeFeed input agent output
  | loadMapping mapping => exact h.loadMapping mapping
  | loadMappingText text => exact h.loadMappingText text
  | clearMappings => exact h.clearMappings
  | describeMapping name description version => exact h.describeMapping name description version
  | loadDefinition definition => exact h.loadDefinition definition
  | loadDefinitionText text => exact h.loadDefinitionText text
  | clearDefinition => exact h.clearDefinition
  | setDefinitionName name => exact h.setDefinitionName name
  | describeDefinition description version => exact h.frame rfl rfl rfl (fun _ => rfl) h.aligned
  | addCategory category => exact h.addCategory sound
  | registerCategory category => exact h.registerCategory category
  | unregisterCategory name => exact h.unregisterCategory name
  | addCall call => exact h.addCall call
  | removeCall name => exact h.removeCall name
  | addArgument call argument type => exact h.withDefinition fun d hd => updateCall_eq_ok hd
  | removeArgument call argument => exact h.withDefinition fun d hd => updateCall_eq_ok hd
  | hearPeer agent definition => exact h.hearPeer agent definition
  | hearPeerText agent text => exact h.hearPeerText agent text
  | hearPeers batch => exact h.withPeers _
  | deliver agent output type payload => exact quiet.elim
  | setState state => exact h.same rfl rfl rfl rfl rfl
  | setRequestOutputs enabled => exact h.same rfl rfl rfl rfl rfl

theorem settled_step {s t : Session ρ ν} (h : s.agent.Settled) (hstep : Step s t) :
    t.agent.Settled := by
  cases hstep with
  | operate sound quiet react => exact settled_perform h sound quiet react
  | store hwrite =>
    have htypes := Registry.type?_write hwrite
    refine h.frame rfl rfl rfl (htypes .input) ?_
    intro kind name
    exact (htypes kind name).trans (h.aligned kind name)
  | mute flag => exact h.same rfl rfl rfl rfl rfl
  | freeze flag => exact h.same rfl rfl rfl rfl rfl
  | resolve => exact settled_resolve h.balanced h.aligned
  | note n => exact h

theorem Reachable.settled {s : Session ρ ν} (h : s.Reachable) : s.agent.Settled :=
  h.invariant (fun _ _ => settled_step) settled_bare

theorem run_resolve {s : Session ρ ν} (h : s.agent.Settled) : (s.run Agent.resolve).1 = s := by
  simp only [run, h.resolve_eq, Agent.done, List.append_nil]

/-- Whatever has been done to an agent, by observers too, its entries are what a pass over the present
scene makes of their rules. Another pass has no effect, neither now nor at the end of a delivery. -/
theorem resolved_throughout {s : Session ρ ν} (h : s.Reachable) {react : React ρ ν}
    (hreact : react.Sound) {ops : List (Op ρ ν)} (hops : ∀ op ∈ ops, op.Sound) :
    let t := s.performAll react ops
    (∀ e ∈ t.agent.wiring.entries,
      e.links = t.agent.scene.links e.rule ∧
      e.state = if e.rule.isCategory then .generic else (t.agent.scene.links e.rule).state) ∧
    t.agent.resolve = t.agent.done [] ∧
    ∀ agent output type payload,
      let d := ((t.agent.wiring.routes agent output).map (·.2)).foldl
        (Delivery.toInput react type (Value.ofWire type payload)) { session := t }
      (d.session.run Agent.resolve).1 = d.session := by
  intro t
  have ht : t.Reachable := h.path (path_performAll hreact hops s)
  refine ⟨?_, ht.settled.resolve_eq, ?_⟩
  · intro e he
    have hsame := ht.settled.resolved e he
    exact ⟨(congrArg Entry.links hsame).symm, (congrArg Entry.state hsame).symm⟩
  · intro agent output type payload d
    have hd : Path t d.session := path_toInputs hreact type (Value.ofWire type payload)
      ((t.agent.wiring.routes agent output).map (·.2)) { session := t }
    exact run_resolve (ht.path hd).settled

/-- An observer that drops the peer whose value it is called for. -/
def dismissive : Behaviour Unit Unit :=
  fun _ _ => .once (.hearPeer "lamp" none)

def dismissal : List (Op Unit Unit) :=
  [.addCategory { name := "panel", slots := { inputs := [⟨"light", .bool, .bool false, false⟩] } },
    .addRule ⟨.any, .output "light" "lit"⟩,
    .observe .input "light" (),
    .hearPeer "lamp" (some { name := "lamp", own := { outputs := [⟨"lit", .bool, .bool false, false⟩] } }),
    .deliver "lamp" "lit" .bool [1]]

theorem resolved_after_dismissal :
    let s : Session Unit Unit :=
      start ⟨{ config := { name := "panel" }, definition := { name := "panel" } }, []⟩
    let t := s.performAll (dismissive.react 1) dismissal
    t.agent.registry.read .input "light" = .ok (.bool true) ∧
      t.agent.wiring.entries.map (·.state) = [.off] ∧ t.agent.resolve = t.agent.done [] := by
  intro s t
  have hs : s.Reachable := reachable_of_build (p := { config := { name := "panel" } }) rfl
  have hdismissive : dismissive.Sound := by
    intro who firing
    exact ⟨fun _ => trivial, fun _ => trivial⟩
  have hpanel : ({ inputs := [⟨"light", .bool, .bool false, false⟩] } : Interface).Sound :=
    sound_empty.insert .input ⟨by decide, rfl⟩ rfl
  have hops : ∀ op ∈ dismissal, op.Sound := by
    simpa [dismissal, Op.Sound] using hpanel
  have h := resolved_throughout hs (sound_react hdismissive 1) hops
  exact ⟨by decide, by decide, h.2.1⟩

end Session

end Patchbay
