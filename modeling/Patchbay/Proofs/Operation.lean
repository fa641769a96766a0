import Patchbay.Proofs.Difference

/-!
# What operations come to

An operation that calls no observers is refused or carried out. Refused, it leaves the agent as it was
and asks nothing of the network. Carried out, it has worked on the wiring by the wiring's own
operations, and all it asks of the network is that subscriptions end, and then what a pass asks.

Only what is heard of a peer is taken note of in either case.
-/

namespace Patchbay

variable {ρ ν α : Type}

namespace Wiring

theorem run_append (w : Wiring) (xs ys : List Step) :
    (w.run (xs ++ ys)).1 = ((w.run xs).1.run ys).1 := by
  induction xs generalizing w with
  | nil => rfl
  | cons step rest ih => exact ih (step.apply w).1

end Wiring

namespace Agent

/-- What an operation asks of the network: it ends subscriptions, and then, if it resolves the wiring, it asks
what the pass does, which comes last. -/
inductive Asked (a b : Agent ρ) : List Effect → Prop
  | ends {changes : List Change} (h : ∀ c ∈ changes, c.active = false) :
      Asked a b (Change.effects changes)
  | pass {changes : List Change} (h : ∀ c ∈ changes, c.active = false) {c : Agent ρ}
      (hconfig : c.config = a.config) (hagent : c.resolve.agent = b) :
      Asked a b (Change.effects changes ++ c.resolve.sent)

theorem asked_nothing (a b : Agent ρ) : Asked a b [] :=
  .ends (List.forall_mem_nil fun c : Change => c.active = false)

/-- `b` has the wiring of `a` after operations on it, but for the words about the mapping. -/
structure Rewired (a b : Agent ρ) (sent : List Effect) : Prop where
  wiring : ∃ steps name description version,
    b.wiring = { (a.wiring.run steps).1 with name, description, version }
  asked : Asked a b sent

theorem publication?_effects (changes : List Change) :
    (Change.effects changes).filterMap Effect.publication? = [] := by
  simp [Change.effects, List.filterMap_map, Function.comp_def, Effect.publication?]

theorem publication?_requests (changes : List Change) :
    (Change.requests changes).filterMap Effect.publication? = [] := by
  simp [Change.requests, List.filterMap_map, Function.comp_def, Effect.publication?]

theorem publication?_resolve (a : Agent ρ) :
    a.resolve.sent.filterMap Effect.publication? = [] := by
  simp only [resolve]
  rw [List.filterMap_append, publication?_effects]
  split
  · exact publication?_requests _
  · rfl

/-- Nothing is published on the way. -/
theorem Rewired.unpublished {a b : Agent ρ} {sent : List Effect} (h : Rewired a b sent) :
    sent.filterMap Effect.publication? = [] := by
  cases h.asked with
  | ends _ => exact publication?_effects _
  | pass _ _ _ =>
    rw [List.filterMap_append, publication?_effects]
    exact publication?_resolve _

theorem rewired_of_run {a b : Agent ρ} (steps : List Wiring.Step)
    (hwiring : b.wiring = (a.wiring.run steps).1) {sent : List Effect} (hasked : Asked a b sent) :
    Rewired a b sent :=
  ⟨⟨steps, _, _, _, hwiring⟩, hasked⟩

theorem rewired_same {a b : Agent ρ} (hwiring : b.wiring = a.wiring) : Rewired a b [] :=
  rewired_of_run [] hwiring (asked_nothing a b)

/-- A pass over an agent whose wiring was worked on. -/
theorem rewired_resolve {a b : Agent ρ} (steps : List Wiring.Step)
    (hwiring : b.wiring = (a.wiring.run steps).1) (hconfig : b.config = a.config)
    {changes : List Change} (hends : ∀ c ∈ changes, c.active = false) :
    Rewired a b.resolve.agent (Change.effects changes ++ b.resolve.sent) := by
  refine rewired_of_run (steps ++ [.resolve b.scene]) ?_ (.pass hends hconfig rfl)
  rw [Wiring.run_append, ← hwiring]
  rfl

theorem rewired_pass {a b : Agent ρ} (steps : List Wiring.Step)
    (hwiring : b.wiring = (a.wiring.run steps).1) (hconfig : b.config = a.config) :
    Rewired a b.resolve.agent b.resolve.sent :=
  rewired_resolve steps hwiring hconfig (List.forall_mem_nil fun c : Change => c.active = false)

/-- What an operation makes of an agent. -/
inductive Turn (a : Agent ρ) : Act ρ α → Prop
  | refused (fault : Fault) : Turn a (a.fail fault)
  | carried {act : Act ρ α} (x : α) (hresult : act.result = .ok x)
      (h : Rewired a act.agent act.sent) : Turn a act

theorem turn_done (a b : Agent ρ) (hwiring : b.wiring = a.wiring) (x : α) : Turn a (b.done x) :=
  .carried x rfl (rewired_same hwiring)

theorem turn_resolve (a b : Agent ρ) (hwiring : b.wiring = a.wiring) (hconfig : b.config = a.config) :
    Turn a b.resolve :=
  .carried _ rfl (rewired_pass [] hwiring hconfig)

section Declare

theorem turn_resolveFor (a b : Agent ρ) (hwiring : b.wiring = a.wiring) (hconfig : b.config = a.config)
    (kind : SlotKind) : Turn a (b.resolveFor kind) := by
  simp only [resolveFor]
  split
  · exact turn_resolve a b hwiring hconfig
  · exact turn_done a b hwiring []

theorem turn_withRegistry (a : Agent ρ) (outcome : Except Fault (Registry ρ)) :
    Turn a (a.withRegistry outcome) := by
  cases outcome with
  | error fault => exact .refused fault
  | ok registry => exact turn_done a { a with registry } rfl ()

theorem turn_withDefinition (a : Agent ρ) (outcome : Except Fault Definition) :
    Turn a (a.withDefinition outcome) := by
  cases outcome with
  | error fault => exact .refused fault
  | ok d => exact turn_done a { a with definition := d } rfl ()

theorem turn_removeCall (a : Agent ρ) (name : String) : Turn a (a.removeCall name) := by
  simp only [removeCall]
  cases a.definition.removeCall name with
  | error fault => exact .refused fault
  | ok done => exact turn_done a { a with definition := done.2 } rfl done.1

theorem turn_loadDefinition (a : Agent ρ) (d : Definition) : Turn a (a.loadDefinition d) := by
  simp only [loadDefinition]
  cases d.validate with
  | error fault => exact .refused fault
  | ok _ =>
    cases d.interface with
    | error why => exact .refused _
    | ok table =>
      exact turn_resolve a { a with definition := d, registry := a.registry.withTable table } rfl rfl

theorem turn_loadDefinitionText (a : Agent ρ) (s : String) : Turn a (a.loadDefinitionText s) := by
  simp only [loadDefinitionText]
  cases Definition.ofText s with
  | error fault => exact .refused fault
  | ok d => exact turn_loadDefinition a d

theorem turn_clearDefinition (a : Agent ρ) : Turn a a.clearDefinition := by
  simp only [clearDefinition]
  cases Definition.new a.definition.name with
  | error fault => exact .refused fault
  | ok d => exact turn_resolve a { a with definition := d, registry := a.registry.withTable {} } rfl rfl

theorem turn_setDefinitionName (a : Agent ρ) (name : String) : Turn a (a.setDefinitionName name) := by
  simp only [setDefinitionName]
  cases checkName name with
  | error fault => exact .refused _
  | ok _ => exact turn_done a { a with definition := { a.definition with name } } rfl ()

/-- A category that the definition takes has nothing that is live already, so its slots are declared
without a fault. -/
theorem Settled.turn_addCategory {a : Agent ρ} (h : a.Settled) {c : Category} (hc : c.slots.Sound) :
    Turn a (a.addCategory c) := by
  simp only [Agent.addCategory]
  cases hadd : a.definition.addCategory c with
  | error fault => exact .refused fault
  | ok d =>
    obtain ⟨registry, hcreated, _⟩ := h.createAll hadd hc
    simp only [hcreated]
    exact turn_resolve a { a with definition := d, registry } rfl rfl

theorem turn_registerCategory (a : Agent ρ) (c : Category) : Turn a (a.registerCategory c) :=
  turn_resolve a { a with catalog := a.catalog.register c } rfl rfl

theorem turn_unregisterCategory (a : Agent ρ) (name : String) :
    Turn a (a.unregisterCategory name) := by
  simp only [unregisterCategory]
  cases a.catalog.find? name with
  | none => exact turn_done a a rfl []
  | some c => exact turn_resolve a { a with catalog := a.catalog.unregister name } rfl rfl

theorem turn_createSlot (a : Agent ρ) (kind : SlotKind) (name : String) (type : ValueType)
    (initial : Option Value) : Turn a (a.createSlot kind name type initial) := by
  simp only [createSlot]
  cases hcreate : a.registry.create kind name type initial with
  | error fault => exact .refused fault
  | ok made =>
    obtain ⟨s, registry⟩ := made
    dsimp only
    cases a.definition.addSlot kind s with
    | ok d => exact turn_resolveFor a { a with definition := d, registry } rfl rfl kind
    | error fault =>
      obtain ⟨t, hremove⟩ := remove_create hcreate
      simp only [hremove]
      exact .refused fault

/-- A slot that the definition lets go is live, so the registry lets it go as well. -/
theorem Settled.turn_removeSlot {a : Agent ρ} (h : a.Settled) (kind : SlotKind) (name : String) :
    Turn a (a.removeSlot kind name) := by
  simp only [Agent.removeSlot]
  cases hdrop : a.definition.removeSlot kind name with
  | error fault => exact .refused fault
  | ok dropped =>
    obtain ⟨t, hremove⟩ := h.remove_registry hdrop
    simp only [hremove]
    exact turn_resolveFor a _ (by rfl) (by rfl) kind

theorem turn_observe (a : Agent ρ) (kind : SlotKind) (name : String) (who : ρ) :
    Turn a (a.observe kind name who) := by
  simp only [observe]
  cases a.registry.observe kind name who with
  | error fault => exact .refused fault
  | ok done => exact turn_done a { a with registry := done.2 } rfl done.1

theorem turn_observeAll (a : Agent ρ) (who : ρ) : Turn a (a.observeAll who) :=
  turn_done a _ (by rfl) _

theorem turn_observeMute (a : Agent ρ) (who : ρ) : Turn a (a.observeMute who) :=
  turn_done a _ (by rfl) _

theorem turn_observeFreeze (a : Agent ρ) (who : ρ) : Turn a (a.observeFreeze who) :=
  turn_done a _ (by rfl) _

theorem turn_unobserve (a : Agent ρ) (id : Nat) : Turn a (a.unobserve id) := by
  simp only [unobserve]
  split
  · exact turn_done a _ (by rfl) true
  · exact turn_done a _ (by rfl) _

end Declare

section Connect

theorem turn_addRule (a : Agent ρ) (r : Rule) : Turn a (a.addRule r) := by
  simp only [addRule]
  cases hadd : a.wiring.add a.registry.table r with
  | error fault => exact .refused fault
  | ok made =>
    have hwiring : made.2 = (a.wiring.run [.add a.registry.table r]).1 := by
      simp only [Wiring.run, Wiring.Step.apply, hadd]
    exact .carried made.1 rfl (rewired_pass _ (b := { a with wiring := made.2 }) hwiring rfl)

/-- An operation on the wiring that no pass follows. -/
theorem turn_unwired {a : Agent ρ} (steps : List Wiring.Step) {wiring : Wiring}
    (hwiring : wiring = (a.wiring.run steps).1) {changes : List Change}
    (hends : ∀ c ∈ changes, c.active = false) : Turn a (a.unwired wiring changes) :=
  .carried changes rfl (rewired_of_run steps hwiring (.ends hends))

theorem Settled.turn_removeEntry {a : Agent ρ} (h : a.Settled) (id : Nat) :
    Turn a (a.removeEntry id) := by
  simp only [Agent.removeEntry]
  cases hremove : a.wiring.remove id with
  | error fault => exact .refused fault
  | ok done =>
    refine turn_unwired [.remove id] ?_ (h.balanced.ends_remove hremove)
    simp only [Wiring.run, Wiring.Step.apply, hremove]

theorem Settled.turn_removeFeed {a : Agent ρ} (h : a.Settled) (input agent output : String) :
    Turn a (a.removeFeed input agent output) := by
  simp only [Agent.removeFeed]
  cases hremove : a.wiring.removeFeed input agent output with
  | error fault => exact .refused fault
  | ok done =>
    refine turn_unwired [.removeFeed input agent output] ?_
      (h.balanced.ends_remove (Wiring.removeFeed_eq_ok hremove))
    simp only [Wiring.run, Wiring.Step.apply, hremove]

theorem Settled.turn_clearMappings {a : Agent ρ} (h : a.Settled) : Turn a a.clearMappings :=
  turn_unwired [.clear] rfl h.balanced.ends_cutWhere

theorem Settled.turn_loadMapping {a : Agent ρ} (h : a.Settled) (m : Mapping) :
    Turn a (a.loadMapping m) := by
  simp only [Agent.loadMapping]
  cases hload : a.wiring.load a.registry.table m with
  | error fault => exact .refused fault
  | ok done =>
    have hwiring : done.1 = (a.wiring.run [.load a.registry.table m]).1 := by
      simp only [Wiring.run, Wiring.Step.apply, hload]
    exact .carried _ rfl
      (rewired_resolve _ (b := { a with wiring := done.1 }) hwiring rfl (h.balanced.ends_load hload))

theorem Settled.turn_loadMappingText {a : Agent ρ} (h : a.Settled) (s : String) :
    Turn a (a.loadMappingText s) := by
  simp only [Agent.loadMappingText]
  cases Mapping.ofText s with
  | error fault => exact .refused fault
  | ok m => exact h.turn_loadMapping m

theorem rewired_hearPeer (a : Agent ρ) (agent : String) (d : Option Definition) :
    Rewired a (a.hearPeer agent d).agent (a.hearPeer agent d).sent := by
  have hpass := rewired_pass (a := a) []
    (b := { a with peers := (a.peers.apply agent d).1 }) rfl rfl
  simp only [hearPeer]
  split
  · exact hpass
  · exact hpass

theorem rewired_hearPeerText (a : Agent ρ) (agent : String) (text : Option String) :
    Rewired a (a.hearPeerText agent text).agent (a.hearPeerText agent text).sent := by
  cases text with
  | none => exact rewired_hearPeer a agent none
  | some s =>
    simp only [hearPeerText]
    cases Definition.ofText s with
    | ok d => exact rewired_hearPeer a agent (some d)
    | error fault =>
      exact rewired_pass [] (b := { a with peers := a.peers.erase agent }) rfl rfl

theorem turn_hearPeers (a : Agent ρ) (batch : List (String × Option Definition)) :
    Turn a (a.hearPeers batch) :=
  .carried _ rfl
    (rewired_pass [] (b := { a with peers := (applyPeers batch a.peers).1 }) rfl rfl)

end Connect

end Agent

/-- The operation tells of a single peer, whose definition may be refused. -/
def Op.HearsPeer : Op ρ ν → Prop
  | .hearPeer .. | .hearPeerText .. => True
  | _ => False

namespace Session
open Agent

/-- What an operation that calls nobody makes of a session. -/
inductive Turn (s : Session ρ ν) : Session ρ ν × Except Fault (Reply ν) → Prop
  | refused (fault : Fault) : Turn s (s, .error fault)
  | carried (b : Agent ρ) (sent : List Effect) (answer : Reply ν) (h : s.agent.Rewired b sent) :
      Turn s ({ s with agent := b, sent := s.sent ++ sent }, .ok answer)

theorem turn_reply {s : Session ρ ν} {f : Agent ρ → Act ρ α} (h : Agent.Turn s.agent (f s.agent))
    (g : α → Reply ν) : Turn s (reply g (s.run f)) := by
  simp only [reply, run]
  generalize f s.agent = act at h
  cases h with
  | refused fault =>
    simp only [fail, List.append_nil, Except.map]
    exact .refused fault
  | carried x hresult h =>
    simp only [hresult, Except.map]
    exact .carried act.agent act.sent (g x) h

theorem turn_become (s : Session ρ ν) {b : Agent ρ} (h : s.agent.Rewired b []) (answer : Reply ν) :
    Turn s (s.become b answer) := by
  have hturn := Turn.carried b [] answer h
  rwa [List.append_nil] at hturn

theorem turn_perform {s : Session ρ ν} (h : s.agent.Settled) {op : Op ρ ν} (sound : op.Sound)
    (quiet : op.Quiet) (hop : ¬op.HearsPeer) (react : React ρ ν) : Turn s (s.perform react op) := by
  cases op with
  | note look =>
    simp only [perform]
    cases look s.agent with
    | error fault => exact .refused fault
    | ok x => exact turn_become s (rewired_same rfl) (.noted x)
  | createSlot kind name type initial => exact turn_reply (turn_createSlot _ kind name type initial) _
  | removeSlot kind name => exact turn_reply (h.turn_removeSlot kind name) _
  | write kind name value => exact quiet.elim
  | writeAs kind name value => exact quiet.elim
  | writeImpulsion kind name => exact quiet.elim
  | clearSlot kind name => exact turn_reply (turn_withRegistry _ _) _
  | setOutputMuted name flag => exact turn_reply (turn_withRegistry _ _) _
  | setMuted flag => exact quiet.elim
  | setFrozen flag => exact quiet.elim
  | observe kind name who => exact turn_reply (turn_observe _ kind name who) _
  | observeAll who => exact turn_reply (turn_observeAll _ who) _
  | observeMute who => exact turn_reply (turn_observeMute _ who) _
  | observeFreeze who => exact turn_reply (turn_observeFreeze _ who) _
  | unobserve id => exact turn_reply (turn_unobserve _ id) _
  | addRule rule => exact turn_reply (turn_addRule _ rule) _
  | removeEntry id => exact turn_reply (h.turn_removeEntry id) _
  | removeFeed input agent output => exact turn_reply (h.turn_removeFeed input agent output) _
  | loadMapping mapping => exact turn_reply (h.turn_loadMapping mapping) _
  | loadMappingText text => exact turn_reply (h.turn_loadMappingText text) _
  | clearMappings => exact turn_reply h.turn_clearMappings _
  | describeMapping name description version =>
    exact turn_become s ⟨⟨[], name, description, version, rfl⟩, asked_nothing _ _⟩ .done
  | loadDefinition definition => exact turn_reply (turn_loadDefinition _ definition) _
  | loadDefinitionText text => exact turn_reply (turn_loadDefinitionText _ text) _
  | clearDefinition => exact turn_reply (turn_clearDefinition _) _
  | setDefinitionName name => exact turn_reply (turn_setDefinitionName _ name) _
  | describeDefinition description version =>
    exact turn_become s (rewired_same (b := s.agent.describeDefinition description version) rfl) .done
  | addCategory category => exact turn_reply (h.turn_addCategory sound) _
  | registerCategory category => exact turn_reply (turn_registerCategory _ category) _
  | unregisterCategory name => exact turn_reply (turn_unregisterCategory _ name) _
  | addCall call => exact turn_reply (turn_withDefinition _ _) _
  | removeCall name => exact turn_reply (turn_removeCall _ name) _
  | addArgument call argument type => exact turn_reply (turn_withDefinition _ _) _
  | removeArgument call argument => exact turn_reply (turn_withDefinition _ _) _
  | hearPeer agent definition => exact absurd trivial hop
  | hearPeerText agent text => exact absurd trivial hop
  | hearPeers batch => exact turn_reply (turn_hearPeers _ batch) _
  | deliver agent output type payload => exact quiet.elim
  | setState state => exact turn_become s (rewired_same (b := s.agent.setState state) rfl) (.text state)
  | setRequestOutputs enabled =>
    exact turn_become s (rewired_same (b := s.agent.setRequestOutputs enabled) rfl) (.flag enabled)

/-- Refused or not, the journal has nothing of such an operation and nothing is published by it. -/
theorem rewired_perform {s : Session ρ ν} (h : s.agent.Settled) {op : Op ρ ν} (sound : op.Sound)
    (quiet : op.Quiet) (react : React ρ ν) :
    ∃ b sent, (s.perform react op).1 = { s with agent := b, sent := s.sent ++ sent } ∧
      s.agent.Rewired b sent := by
  by_cases hop : op.HearsPeer
  · cases op with
    | hearPeer agent definition => exact ⟨_, _, rfl, rewired_hearPeer s.agent agent definition⟩
    | hearPeerText agent text => exact ⟨_, _, rfl, rewired_hearPeerText s.agent agent text⟩
    | _ => exact hop.elim
  · have hturn := turn_perform h sound quiet hop react
    generalize s.perform react op = out at hturn
    cases hturn with
    | refused fault =>
      exact ⟨s.agent, [], by rw [List.append_nil], rewired_same rfl⟩
    | carried b sent answer h => exact ⟨b, sent, rfl, h⟩

/-- What holds of an empty wiring, and is kept by the operations on wirings and by new words about the
mapping, holds of the wiring of every reached session. -/
theorem Reachable.wiring_invariant {P : Wiring → Prop} (hempty : P {})
    (hstep : ∀ w (step : Wiring.Step), P w → P (step.apply w).1)
    (hwords : ∀ w name description version, P w → P { w with name, description, version })
    {s : Session ρ ν} (h : s.Reachable) : P s.agent.wiring := by
  have hrun (w : Wiring) (steps : List Wiring.Step) (hw : P w) : P (w.run steps).1 := by
    induction steps generalizing w with
    | nil => exact hw
    | cons step rest ih => exact ih _ (hstep w step hw)
  have hkept (s t : Session ρ ν) (hs : s.agent.Settled ∧ P s.agent.wiring) (hst : Step s t) :
      t.agent.Settled ∧ P t.agent.wiring := by
    refine ⟨settled_step hs.1 hst, ?_⟩
    cases hst with
    | operate sound quiet react =>
      obtain ⟨b, sent, hperform, hrewired⟩ := rewired_perform hs.1 sound quiet react
      obtain ⟨steps, name, description, version, hwiring⟩ := hrewired.wiring
      rw [hperform, hwiring]
      exact hwords _ name description version (hrun _ steps hs.2)
    | store hwrite => exact hs.2
    | mute flag => exact hs.2
    | freeze flag => exact hs.2
    | resolve => exact hstep _ (.resolve s.agent.scene) hs.2
    | note n => exact hs.2
  exact (h.invariant hkept fun config name => ⟨settled_bare config name, hempty⟩).2

end Session

end Patchbay
