import Patchbay.Proofs.Export

/-!
# Adopting a category

There are two ways for the members of a category to become live. Loading a definition puts whole slots in
place; adopting a category on a running agent declares its members one by one next to what is live. Both
end in the same wiring with the same changes, since the inputs have the same types in the end. The slots
differ in two respects: adoption leaves what was live as it was, where a load starts it afresh, and it
declares members without their mute flag, where a load keeps it.
-/

namespace Patchbay
open Interface

namespace Agent

variable {ρ : Type}

/-- Agents with the same rules and the same surroundings, whose inputs have the same types, come to the
same wiring with the same changes. -/
theorem resolve_congr {a b : Agent ρ} (hwiring : a.wiring = b.wiring) (hconfig : a.config = b.config)
    (hpeers : a.peers = b.peers) (hcatalog : a.catalog = b.catalog)
    (hinputs : ∀ input, a.registry.table.type? .input input = b.registry.table.type? .input input) :
    a.resolve.result = b.resolve.result ∧ a.resolve.sent = b.resolve.sent ∧
      a.resolve.agent.wiring = b.resolve.agent.wiring := by
  have hlinks (r : Rule) : a.scene.links r = b.scene.links r :=
    Scene.links_congr hinputs hcatalog hpeers r
  have hpass : a.wiring.resolve a.scene = b.wiring.resolve b.scene := by
    rw [hwiring]
    exact Wiring.resolve_congr hlinks b.wiring
  refine ⟨?_, ?_, ?_⟩ <;> simp only [resolve, hpass, hconfig]

/-- An adoption that succeeds declares the members beside the live slots and resolves. -/
theorem Settled.addCategory_eq {a : Agent ρ} (h : a.Settled) {c : Category} (hc : c.slots.Sound)
    {changes : List Change} (hadopt : (a.addCategory c).result = .ok changes) :
    ∃ d registry, a.definition.addCategory c = .ok d ∧
      a.addCategory c = resolve { a with definition := d, registry } ∧
      ∀ kind name, registry.find? kind name =
        (a.registry.find? kind name).or ((c.slots.find? kind name).map Slot.unmuted) := by
  cases hadd : a.definition.addCategory c with
  | error fault =>
    simp only [Agent.addCategory, hadd] at hadopt
    cases hadopt
  | ok d =>
    obtain ⟨registry, hcreated, hslots⟩ := h.createAll hadd hc
    refine ⟨d, registry, rfl, ?_, hslots⟩
    simp only [Agent.addCategory, hadd, hcreated]

theorem loadDefinition_eq {a : Agent ρ} {d : Definition} {table : Interface}
    (hvalid : d.validate = .ok ()) (htable : d.interface = .ok table) :
    a.loadDefinition d = resolve { a with definition := d, registry := a.registry.withTable table } := by
  simp only [loadDefinition, hvalid, htable]

end Agent

namespace Session
open Agent

/-- Adopting a category, and loading the definition that comes of it, have the same result, ask the same of
the network and end in the same wiring. What was live before is not touched by the adoption. A member has
the type and the value of its template either way, but its mute flag only after the load. -/
theorem adoption_as_load {s : Session ρ ν} (h : s.Proper) {c : Category} (hc : c.slots.Sound)
    {changes : List Change} (hadopt : (s.agent.addCategory c).result = .ok changes) :
    let adopted := s.agent.addCategory c
    let loaded := s.agent.loadDefinition adopted.agent.definition
    (loaded.result = .ok changes ∧ loaded.sent = adopted.sent ∧
      loaded.agent.wiring = adopted.agent.wiring) ∧
    (∀ kind name slot, s.agent.registry.find? kind name = some slot →
      adopted.agent.registry.find? kind name = some slot) ∧
    ∀ kind, ∀ member ∈ c.slots.slots kind,
      loaded.agent.registry.find? kind member.name = some member ∧
      adopted.agent.registry.find? kind member.name = some member.unmuted := by
  intro adopted loaded
  have hcoherent : s.agent.Coherent := h.coherent
  have hsettled : s.agent.Settled := h.reachable.settled
  obtain ⟨d, registry, hadd, heq, hslots⟩ := hsettled.addCategory_eq hc hadopt
  have hadopted : adopted = resolve { s.agent with definition := d, registry } := heq
  have hdeclared : d.Coherent := hcoherent.declared.addCategory hc hadd
  obtain ⟨table, htable⟩ := hdeclared.exists_interface
  have hdefinition : adopted.agent.definition = d := congrArg (·.agent.definition) hadopted
  have hloaded : loaded =
      resolve { s.agent with definition := d, registry := s.agent.registry.withTable table } := by
    simp only [loaded, hdefinition]
    exact loadDefinition_eq hdeclared.validate htable
  have hlive : ∀ kind name, adopted.agent.registry.find? kind name = registry.find? kind name := by
    intro kind name
    rw [hadopted]
    rfl
  have hinputs (input : String) : table.type? .input input = registry.table.type? .input input := by
    have hdrawn := (hsettled.loadDefinition d).aligned .input input
    have htaken := (hsettled.addCategory hc).aligned .input input
    rw [loadDefinition_eq hdeclared.validate htable] at hdrawn
    rw [heq] at htaken
    exact hdrawn.trans htaken.symm
  refine ⟨?_, ?_, ?_⟩
  · rw [← hadopt, heq, hloaded, hadopted]
    exact resolve_congr
      (a := { s.agent with definition := d, registry := s.agent.registry.withTable table })
      (b := { s.agent with definition := d, registry }) rfl rfl rfl rfl hinputs
  · intro kind name slot hslot
    rw [hlive, hslots, hslot]
    rfl
  · intro kind member hmember
    have htemplate : c.slots.find? kind member.name = some member :=
      hc.find?_of_mem hmember
    have hnew := hsettled.find?_member hadd hmember
    refine ⟨?_, ?_⟩
    · rw [hloaded]
      change table.find? kind member.name = some member
      rw [Definition.find?_interface htable, Definition.find?_addCategory hadd, htemplate,
        Definition.find?_eq_none_of_addCategory hadd hmember]
      rfl
    · rw [hlive, hslots, hnew, htemplate]
      rfl

def beacon : Category :=
  { name := "beacon"
    slots :=
      { inputs := [⟨"rate", .integer, .integer 2, false⟩]
        outputs := [⟨"flash", .bool, .bool true, true⟩] } }

/-- A buoy that rings its bell. -/
def buoy : Session Unit Unit :=
  performAll (fun _ _ s => s)
    [.createSlot .output "bell" .bool none, .write .output "bell" (.bool true)]
    (start ⟨{ config := { name := "buoy" }, definition := { name := "buoy" } }, []⟩)

theorem proper_buoy : buoy.Proper := by
  have hstart : (start ⟨{ config := { name := "buoy" }, definition := { name := "buoy" } }, []⟩ :
      Session Unit Unit).Proper := .start (p := { config := { name := "buoy" } }) (by simp) rfl
  exact kept_proper.performAll (fun _ _ _ h => h) (by simp [Op.Proper]) hstart

theorem sound_beacon : beacon.slots.Sound :=
  (sound_empty.insert .input (s := ⟨"rate", .integer, .integer 2, false⟩) ⟨by decide, rfl⟩ rfl).insert
    .output (s := ⟨"flash", .bool, .bool true, true⟩) ⟨by decide, rfl⟩ rfl

theorem buoy_adopts :
    let adopted := buoy.agent.addCategory beacon
    let loaded := buoy.agent.loadDefinition adopted.agent.definition
    buoy.Proper ∧ beacon.slots.Sound ∧ adopted.result = .ok [] ∧ loaded.result = .ok [] ∧
      loaded.agent.wiring = adopted.agent.wiring ∧
      adopted.agent.registry.read .output "bell" = .ok (.bool true) ∧
      loaded.agent.registry.find? .output "flash" = some ⟨"flash", .bool, .bool true, true⟩ ∧
      adopted.agent.registry.find? .output "flash" = some ⟨"flash", .bool, .bool true, false⟩ := by
  have hadopt : (buoy.agent.addCategory beacon).result = .ok [] := by decide
  obtain ⟨⟨hresult, _, hwiring⟩, hlive, hmembers⟩ := adoption_as_load proper_buoy sound_beacon hadopt
  have hbell := hlive .output "bell" ⟨"bell", .bool, .bool true, false⟩ (by decide)
  have hflash := hmembers .output ⟨"flash", .bool, .bool true, true⟩ List.mem_cons_self
  refine ⟨proper_buoy, sound_beacon, hadopt, hresult, hwiring, ?_, hflash⟩
  simp only [Registry.read, Registry.get, Interface.get]
  rw [show (buoy.agent.addCategory beacon).agent.registry.table.find? .output "bell" = _ from hbell]
  rfl

/-- The muted output of the category goes out after the adoption and does not after the load. -/
theorem beacon_unmuted :
    let adopted := buoy.agent.addCategory beacon
    let loaded := buoy.agent.loadDefinition adopted.agent.definition
    adopted.result = .ok [] ∧
      adopted.agent.registry.isMuted .output "flash" = .ok false ∧
      adopted.agent.publication .output "flash" = [.publish "flash" .bool [1]] ∧
      loaded.agent.registry.isMuted .output "flash" = .ok true ∧
      loaded.agent.publication .output "flash" = [] := by
  decide

end Session

end Patchbay
