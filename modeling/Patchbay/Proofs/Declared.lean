import Patchbay.Proofs.Reading
import Patchbay.Proofs.Settled

/-!
# What is declared and what is live

In a session that is put together properly, the definition of the agent is coherent at every moment and
the live slots are sound: each has a name and a value of its type, and no name comes up twice within a
kind. This needs that categories and definitions which operations bring in were put together by declaring
slots; where they are read from a document, reading sees to it.

Most operations touch neither the definition nor the live slots. The others edit the definition, store a
value in a live slot, or declare a slot and take it back.
-/

namespace Patchbay
open Interface

variable {ρ ν α : Type}

namespace Interface

theorem Sound.erase {i : Interface} (h : i.Sound) (kind : SlotKind) (name : String) :
    (i.erase kind name).Sound := by
  have hsub (k : SlotKind) : ((i.erase kind name).slots k).Sublist (i.slots k) := by
    simp only [Interface.erase]
    by_cases hk : k = kind
    · subst hk
      rw [slots_withSlots_self]
      exact List.filter_sublist
    · rw [slots_withSlots_of_ne hk]
  refine ⟨?_, ?_⟩
  · exact fun k s hs => h.valid k s ((hsub k).subset hs)
  · exact fun k => (h.distinct k).sublist ((hsub k).map _)

theorem Sound.replace {i : Interface} (h : i.Sound) (kind : SlotKind) {t : Slot} (ht : t.Valid) :
    (i.replace kind t).Sound := by
  have hnames : ((i.slots kind).map fun s => if s.name == t.name then t else s).map (·.name) =
      (i.slots kind).map (·.name) := by
    rw [List.map_map]
    refine List.map_congr_left fun s _ => ?_
    simp only [Function.comp_apply]
    split
    · rename_i heq
      exact (beq_iff_eq.mp heq).symm
    · rfl
  refine ⟨?_, ?_⟩
  · intro k s hs
    simp only [Interface.replace] at hs
    by_cases hk : k = kind
    · subst hk
      rw [slots_withSlots_self] at hs
      obtain ⟨old, hold, rfl⟩ := List.mem_map.mp hs
      split
      · exact ht
      · exact h.valid k old hold
    · rw [slots_withSlots_of_ne hk] at hs
      exact h.valid k s hs
  · intro k
    simp only [Interface.replace, names]
    by_cases hk : k = kind
    · subst hk
      rw [slots_withSlots_self, hnames]
      exact h.distinct k
    · rw [slots_withSlots_of_ne hk]
      exact h.distinct k

theorem Sound.of_find? {i : Interface} (h : i.Sound) {kind : SlotKind} {name : String} {s : Slot}
    (hs : i.find? kind name = some s) : s.Valid :=
  h.valid kind s (List.mem_of_find?_eq_some hs)

theorem Sound.update {i after : Interface} (h : i.Sound) {kind : SlotKind} {name : String}
    {change : Slot → Except Fault Slot} {s : Slot}
    (hchange : ∀ t u, t.Valid → change t = .ok u → u.Valid)
    (hupdate : i.update kind name change = .ok (s, after)) : after.Sound := by
  obtain ⟨t, ht, hs, rfl⟩ := update_eq_ok hupdate
  exact h.replace kind (hchange t s (h.of_find? ht) hs)

end Interface

namespace Registry

theorem valid_of_create {r after : Registry ρ} {kind : SlotKind} {name : String} {type : ValueType}
    {initial : Option Value} {s : Slot} (h : r.create kind name type initial = .ok (s, after)) :
    s.Valid := by
  simp only [create] at h
  split at h
  · cases h
  · obtain ⟨fresh, hfresh, h⟩ := of_bind_eq_ok h
    have hvalid := Slot.valid_of_new hfresh
    cases initial with
    | none =>
      obtain ⟨t, hfill, h⟩ := of_bind_eq_ok h
      obtain ⟨table, _, heq⟩ := of_bind_eq_ok h
      cases hfill
      cases heq
      exact hvalid
    | some v =>
      obtain ⟨t, hwrite, h⟩ := of_bind_eq_ok h
      obtain ⟨table, _, heq⟩ := of_bind_eq_ok h
      cases heq
      exact hvalid.write hwrite

theorem sound_create {r after : Registry ρ} {kind : SlotKind} {name : String} {type : ValueType}
    {initial : Option Value} {s : Slot} (h : r.create kind name type initial = .ok (s, after))
    (hr : r.table.Sound) : after.table.Sound := by
  obtain ⟨_, _, hfree, rfl⟩ := create_eq_ok h
  refine hr.insert kind (valid_of_create h) ?_
  simp only [Interface.insert, hfree, Bool.false_eq_true, if_false]

theorem sound_createAll (ts : List (SlotKind × Slot)) {r : Registry ρ} (hr : r.table.Sound) :
    (createAll ts r).1.table.Sound := by
  induction ts generalizing r with
  | nil => exact hr
  | cons t rest ih =>
    simp only [createAll]
    split
    · rename_i hcreate
      exact ih (sound_create hcreate hr)
    · exact hr

theorem sound_remove {r after : Registry ρ} {kind : SlotKind} {name : String} {s : Slot}
    (h : r.remove kind name = .ok (s, after)) (hr : r.table.Sound) : after.table.Sound := by
  obtain ⟨⟨t, table⟩, hremove, heq⟩ := of_map_eq_ok h
  cases heq
  obtain ⟨_, rfl⟩ := Interface.remove_eq_ok hremove
  exact hr.erase kind name

theorem sound_write {r after : Registry ρ} {kind : SlotKind} {name : String} {v : Value}
    {n : Notification ρ} (h : r.write kind name v = .ok (after, n)) (hr : r.table.Sound) :
    after.table.Sound := by
  obtain ⟨s, hs, htype, rfl, _⟩ := write_eq_ok h
  exact hr.replace kind ⟨(hr.of_find? hs).named, htype⟩

theorem sound_clear {r after : Registry ρ} {kind : SlotKind} {name : String}
    (h : r.clear kind name = .ok after) (hr : r.table.Sound) : after.table.Sound := by
  obtain ⟨s, t, hs, hclear, rfl⟩ := map_update_eq_ok h
  cases hclear
  exact hr.replace kind (hr.of_find? hs).clear

theorem sound_setMuted {r after : Registry ρ} {kind : SlotKind} {name : String} {muted : Bool}
    (h : r.setMuted kind name muted = .ok after) (hr : r.table.Sound) : after.table.Sound := by
  obtain ⟨s, t, hs, hmute, rfl⟩ := map_update_eq_ok h
  cases hmute
  have hold := hr.of_find? hs
  exact hr.replace kind ⟨hold.named, hold.typed⟩

end Registry

theorem Definition.Coherent.sound_interface {d : Definition} (h : d.Coherent) {i : Interface}
    (hi : d.interface = .ok i) : i.Sound := by
  refine ⟨?_, ?_⟩
  · intro kind s hs
    rw [slots_interface hi] at hs
    exact h.valid kind s hs
  · intro kind
    simp only [Interface.names]
    rw [slots_interface hi]
    exact h.names kind

namespace Agent

structure Coherent (a : Agent ρ) : Prop where
  declared : a.definition.Coherent
  live : a.registry.table.Sound

/-- Neither the definition nor the live slots were touched. -/
theorem Coherent.same {a b : Agent ρ} (h : a.Coherent) (hdefinition : b.definition = a.definition)
    (htable : b.registry.table = a.registry.table) : b.Coherent :=
  ⟨hdefinition ▸ h.declared, htable ▸ h.live⟩

section Declare

theorem Coherent.resolveFor {a : Agent ρ} (h : a.Coherent) (kind : SlotKind) :
    (a.resolveFor kind).agent.Coherent := by
  simp only [Agent.resolveFor]
  split
  · exact h.same rfl rfl
  · exact h

theorem Coherent.createSlot {a : Agent ρ} (h : a.Coherent) (kind : SlotKind) (name : String)
    (type : ValueType) (initial : Option Value) :
    (a.createSlot kind name type initial).agent.Coherent := by
  simp only [Agent.createSlot]
  cases hcreate : a.registry.create kind name type initial with
  | error fault => exact h
  | ok made =>
    obtain ⟨s, registry⟩ := made
    have hlive : registry.table.Sound := Registry.sound_create hcreate h.live
    dsimp only
    cases hadd : a.definition.addSlot kind s with
    | ok d =>
      have hdeclared : d.Coherent := h.declared.addSlot (Registry.valid_of_create hcreate) hadd
      exact Coherent.resolveFor (a := { a with definition := d, registry }) ⟨hdeclared, hlive⟩ kind
    | error fault =>
      obtain ⟨t, hremove⟩ := remove_create hcreate
      simp only [hremove]
      exact h

theorem Coherent.removeSlot {a : Agent ρ} (h : a.Coherent) (kind : SlotKind) (name : String) :
    (a.removeSlot kind name).agent.Coherent := by
  simp only [Agent.removeSlot]
  cases hdrop : a.definition.removeSlot kind name with
  | error fault => exact h
  | ok dropped =>
    have hdeclared : dropped.2.Coherent := h.declared.removeSlot hdrop
    dsimp only
    cases hremove : a.registry.remove kind name with
    | error fault => exact ⟨hdeclared, h.live⟩
    | ok removed =>
      exact Coherent.resolveFor (a := { a with definition := dropped.2, registry := removed.2 })
        ⟨hdeclared, Registry.sound_remove hremove h.live⟩ kind

theorem Coherent.withRegistry {a : Agent ρ} (h : a.Coherent) {outcome : Except Fault (Registry ρ)}
    (hlive : ∀ registry, outcome = .ok registry → registry.table.Sound) :
    (a.withRegistry outcome).agent.Coherent := by
  cases outcome with
  | error fault => exact h
  | ok registry => exact ⟨h.declared, hlive registry rfl⟩

theorem Coherent.withDefinition {a : Agent ρ} (h : a.Coherent) {outcome : Except Fault Definition}
    (hdeclared : ∀ d, outcome = .ok d → d.Coherent) : (a.withDefinition outcome).agent.Coherent := by
  cases outcome with
  | error fault => exact h
  | ok d => exact ⟨hdeclared d rfl, h.live⟩

theorem Coherent.removeCall {a : Agent ρ} (h : a.Coherent) (name : String) :
    (a.removeCall name).agent.Coherent := by
  simp only [Agent.removeCall]
  cases hremove : a.definition.removeCall name with
  | error fault => exact h
  | ok removed => exact ⟨h.declared.removeCall hremove, h.live⟩

theorem Coherent.loadDefinition {a : Agent ρ} (h : a.Coherent) {d : Definition} (hd : d.Sound) :
    (a.loadDefinition d).agent.Coherent := by
  simp only [Agent.loadDefinition]
  cases hvalid : d.validate with
  | error fault => exact h
  | ok _ =>
    have hdeclared := (Definition.validate_eq_ok_iff hd).mp hvalid
    cases htable : d.interface with
    | error why => exact h
    | ok table => exact ⟨hdeclared, hdeclared.sound_interface htable⟩

theorem Coherent.loadDefinitionText {a : Agent ρ} (h : a.Coherent) (s : String) :
    (a.loadDefinitionText s).agent.Coherent := by
  simp only [Agent.loadDefinitionText]
  cases hread : Definition.ofText s with
  | error fault => exact h
  | ok d => exact h.loadDefinition (Definition.sound_of_ofText hread)

theorem Coherent.clearDefinition {a : Agent ρ} (h : a.Coherent) :
    a.clearDefinition.agent.Coherent := by
  simp only [Agent.clearDefinition]
  cases hnew : Definition.new a.definition.name with
  | error fault => exact h
  | ok d =>
    rw [Definition.new_eq_ok hnew]
    exact ⟨Definition.coherent_bare (checkName_eq_ok_iff.mpr h.declared.named), sound_empty⟩

theorem Coherent.setDefinitionName {a : Agent ρ} (h : a.Coherent) (name : String) :
    (a.setDefinitionName name).agent.Coherent := by
  simp only [Agent.setDefinitionName]
  cases hname : checkName name with
  | error fault => exact h
  | ok _ =>
    have hd := h.declared
    exact ⟨⟨checkName_eq_ok_iff.mp hname, hd.categories, hd.calls, hd.callNames, hd.names, hd.valid⟩,
      h.live⟩

theorem Coherent.addCategory {a : Agent ρ} (h : a.Coherent) {c : Category} (hc : c.slots.Sound) :
    (a.addCategory c).agent.Coherent := by
  simp only [Agent.addCategory]
  cases hadd : a.definition.addCategory c with
  | error fault => exact h
  | ok d =>
    have hdeclared : d.Coherent := h.declared.addCategory hc hadd
    have hlive := Registry.sound_createAll c.slots.all h.live
    dsimp only
    split
    · rename_i hcreated
      rw [hcreated] at hlive
      exact ⟨hdeclared, hlive⟩
    · rename_i hcreated
      rw [hcreated] at hlive
      exact ⟨hdeclared, hlive⟩

theorem Coherent.unregisterCategory {a : Agent ρ} (h : a.Coherent) (name : String) :
    (a.unregisterCategory name).agent.Coherent := by
  simp only [Agent.unregisterCategory]
  cases a.catalog.find? name with
  | none => exact h
  | some c => exact h.same rfl rfl

theorem Coherent.observe {a : Agent ρ} (h : a.Coherent) (kind : SlotKind) (name : String) (who : ρ) :
    (a.observe kind name who).agent.Coherent := by
  simp only [Agent.observe]
  cases hobserve : a.registry.observe kind name who with
  | error fault => exact h
  | ok done =>
    obtain ⟨s, _, rfl⟩ := of_map_eq_ok hobserve
    exact h.same rfl rfl

theorem Coherent.unobserve {a : Agent ρ} (h : a.Coherent) (id : Nat) :
    (a.unobserve id).agent.Coherent := by
  simp only [Agent.unobserve]
  split
  · exact h.same rfl rfl
  · exact h.same rfl rfl

end Declare

section Connect

theorem Coherent.addRule {a : Agent ρ} (h : a.Coherent) (r : Rule) : (a.addRule r).agent.Coherent := by
  simp only [Agent.addRule]
  cases a.wiring.add a.registry.table r with
  | error fault => exact h
  | ok made => exact h.same rfl rfl

theorem Coherent.removeEntry {a : Agent ρ} (h : a.Coherent) (id : Nat) :
    (a.removeEntry id).agent.Coherent := by
  simp only [Agent.removeEntry]
  cases a.wiring.remove id with
  | error fault => exact h
  | ok done => exact h.same rfl rfl

theorem Coherent.removeFeed {a : Agent ρ} (h : a.Coherent) (input agent output : String) :
    (a.removeFeed input agent output).agent.Coherent := by
  simp only [Agent.removeFeed]
  cases a.wiring.removeFeed input agent output with
  | error fault => exact h
  | ok done => exact h.same rfl rfl

theorem Coherent.loadMapping {a : Agent ρ} (h : a.Coherent) (m : Mapping) :
    (a.loadMapping m).agent.Coherent := by
  simp only [Agent.loadMapping]
  cases a.wiring.load a.registry.table m with
  | error fault => exact h
  | ok done => exact h.same rfl rfl

theorem Coherent.loadMappingText {a : Agent ρ} (h : a.Coherent) (s : String) :
    (a.loadMappingText s).agent.Coherent := by
  simp only [Agent.loadMappingText]
  cases Mapping.ofText s with
  | error fault => exact h
  | ok m => exact h.loadMapping m

theorem Coherent.hearPeer {a : Agent ρ} (h : a.Coherent) (agent : String) (d : Option Definition) :
    (a.hearPeer agent d).agent.Coherent := by
  simp only [Agent.hearPeer]
  split
  · exact h.same rfl rfl
  · exact h.same rfl rfl

theorem Coherent.hearPeerText {a : Agent ρ} (h : a.Coherent) (agent : String) (text : Option String) :
    (a.hearPeerText agent text).agent.Coherent := by
  cases text with
  | none => exact h.hearPeer agent none
  | some s =>
    simp only [Agent.hearPeerText]
    cases Definition.ofText s with
    | error fault => exact h.same rfl rfl
    | ok d => exact h.hearPeer agent (some d)

end Connect

end Agent

/-- What an operation brings in was put together by declaring slots. -/
def Op.Proper : Op ρ ν → Prop
  | .addCategory c => c.slots.Sound
  | .loadDefinition d => d.Sound
  | _ => True

theorem Op.Proper.sound {op : Op ρ ν} (h : op.Proper) : op.Sound := by
  cases op with
  | addCategory c => exact h
  | _ => trivial

namespace Session
open Agent

/-- The session of a newly built agent, or one that such a session comes to in steps, where everything
that was brought in was put together by declaring slots. -/
inductive Proper : Session ρ ν → Prop
  | start {p : Plan} {site : Plan.Site ρ} (hgiven : ∀ d, p.definition = some d → d.Sound)
      (hbuild : p.build ρ = .ok site) : Proper (start site)
  | operate {s : Session ρ ν} (h : Proper s) {op : Op ρ ν} (proper : op.Proper) (quiet : op.Quiet)
      (react : React ρ ν) : Proper (s.perform react op).1
  | store {s : Session ρ ν} (h : Proper s) {kind : SlotKind} {name : String} {v : Value}
      {registry : Registry ρ} {pending : Notification ρ}
      (hwrite : s.agent.registry.write kind name v = .ok (registry, pending)) :
      Proper (s.store kind name registry)
  | mute {s : Session ρ ν} (h : Proper s) (flag : Bool) :
      Proper { s with agent := { s.agent with muted := flag } }
  | freeze {s : Session ρ ν} (h : Proper s) (flag : Bool) :
      Proper { s with agent := { s.agent with frozen := flag } }
  | resolve {s : Session ρ ν} (h : Proper s) : Proper (s.run Agent.resolve).1
  | note {s : Session ρ ν} (h : Proper s) (n : Note ρ ν) : Proper (s.note n)

theorem kept_proper : Kept Op.Proper (Proper : Session ρ ν → Prop) where
  operate _ _ react proper quiet h := h.operate proper quiet react
  store _ _ _ _ _ _ hwrite h := h.store hwrite
  mute _ flag h := h.mute flag
  freeze _ flag h := h.freeze flag
  resolve _ h := h.resolve
  called _ _ _ _ _ h := h.note _
  did _ _ _ h := h.note _

theorem Proper.reachable {s : Session ρ ν} (h : s.Proper) : s.Reachable := by
  induction h with
  | start hgiven hbuild => exact reachable_of_build hbuild
  | operate h proper quiet react ih => exact ih.path (.single (.operate proper.sound quiet react))
  | store h hwrite ih => exact ih.path (.single (.store hwrite))
  | mute h flag ih => exact ih.path (.single (.mute _ flag))
  | freeze h flag ih => exact ih.path (.single (.freeze _ flag))
  | resolve h ih => exact ih.path (.single (.resolve _))
  | note h n ih => exact ih.path (.single (.note _ n))

theorem coherent_perform {s : Session ρ ν} (h : s.agent.Coherent) {op : Op ρ ν} (proper : op.Proper)
    (quiet : op.Quiet) (react : React ρ ν) : (s.perform react op).1.agent.Coherent := by
  cases op with
  | note look => exact h
  | createSlot kind name type initial => exact h.createSlot kind name type initial
  | removeSlot kind name => exact h.removeSlot kind name
  | write kind name value => exact quiet.elim
  | writeAs kind name value => exact quiet.elim
  | writeImpulsion kind name => exact quiet.elim
  | clearSlot kind name =>
    exact h.withRegistry fun registry hclear => Registry.sound_clear hclear h.live
  | setOutputMuted name flag =>
    exact h.withRegistry fun registry hmute => Registry.sound_setMuted hmute h.live
  | setMuted flag => exact quiet.elim
  | setFrozen flag => exact quiet.elim
  | observe kind name who => exact h.observe kind name who
  | observeAll who => exact h.same rfl rfl
  | observeMute who => exact h.same rfl rfl
  | observeFreeze who => exact h.same rfl rfl
  | unobserve id => exact h.unobserve id
  | addRule rule => exact h.addRule rule
  | removeEntry id => exact h.removeEntry id
  | removeFeed input agent output => exact h.removeFeed input agent output
  | loadMapping mapping => exact h.loadMapping mapping
  | loadMappingText text => exact h.loadMappingText text
  | clearMappings => exact h.same rfl rfl
  | describeMapping name description version => exact h.same rfl rfl
  | loadDefinition definition => exact h.loadDefinition proper
  | loadDefinitionText text => exact h.loadDefinitionText text
  | clearDefinition => exact h.clearDefinition
  | setDefinitionName name => exact h.setDefinitionName name
  | describeDefinition description version =>
    have hd := h.declared
    exact ⟨⟨hd.named, hd.categories, hd.calls, hd.callNames, hd.names, hd.valid⟩, h.live⟩
  | addCategory category => exact h.addCategory proper
  | registerCategory category => exact h.same rfl rfl
  | unregisterCategory name => exact h.unregisterCategory name
  | addCall call => exact h.withDefinition fun d hadd => h.declared.addCall hadd
  | removeCall name => exact h.removeCall name
  | addArgument call argument type => exact h.withDefinition fun d hadd => h.declared.addArgument hadd
  | removeArgument call argument =>
    exact h.withDefinition fun d hremove => h.declared.removeArgument hremove
  | hearPeer agent definition => exact h.hearPeer agent definition
  | hearPeerText agent text => exact h.hearPeerText agent text
  | hearPeers batch => exact h.same rfl rfl
  | deliver agent output type payload => exact quiet.elim
  | setState state => exact h.same rfl rfl
  | setRequestOutputs enabled => exact h.same rfl rfl

theorem kept_coherent : Kept Op.Proper fun s : Session ρ ν => s.agent.Coherent where
  operate _ _ react proper quiet h := coherent_perform h proper quiet react
  store _ _ _ _ _ _ hwrite h := ⟨h.declared, Registry.sound_write hwrite h.live⟩
  mute _ _ h := h.same rfl rfl
  freeze _ _ h := h.same rfl rfl
  resolve _ h := h.same rfl rfl
  called _ _ _ _ _ h := h
  did _ _ _ h := h

theorem Proper.coherent {s : Session ρ ν} (h : s.Proper) : s.agent.Coherent := by
  induction h with
  | start hgiven hbuild =>
    refine kept_coherent.build (fun _ => trivial) (fun _ => trivial) ?_ ?_ hbuild
    · rintro d (hd | rfl)
      · exact hgiven d hd
      · exact ⟨sound_empty, fun c hc => absurd hc List.not_mem_nil⟩
    · exact fun name hname => ⟨Definition.coherent_bare hname, sound_empty⟩
  | operate h proper quiet react ih => exact coherent_perform ih proper quiet react
  | store h hwrite ih => exact kept_coherent.store _ _ _ _ _ _ hwrite ih
  | mute h flag ih => exact ih.same rfl rfl
  | freeze h flag ih => exact ih.same rfl rfl
  | resolve h ih => exact ih.same rfl rfl
  | note h n ih => exact ih

end Session

end Patchbay
