import Patchbay.Proofs.Alike
import Patchbay.Proofs.Document
import Patchbay.Proofs.Export

/-!
# Exported definitions between agents

What an agent exports is taken up by whoever gets the text, as a definition of its own or as that of a
peer, if the doubles in it are finite. An observer, a write or a delivery may bring in others, and the
export is then refused by everybody, as nobody reads the `null` that stands for such a double.
-/

namespace Patchbay

variable {ρ ν : Type}

namespace Agent

theorem loadDefinitionText_toText {d : Definition} (h : d.Coherent) (b : Agent ρ) :
    b.loadDefinitionText d.toText =
      if d.isFinite then b.loadDefinition d else b.fail (.malformed (.document .form)) := by
  rw [loadDefinitionText, Definition.ofText_toText h.sound h.validate]
  cases d.isFinite <;> rfl

theorem hearPeerText_toText {d : Definition} (h : d.Coherent) (b : Agent ρ) (name : String) :
    b.hearPeerText name (some d.toText) =
      if d.isFinite then b.hearPeer name (some d)
      else { resolve { b with peers := b.peers.erase name } with
        result := .error (.malformed (.document .form)) } := by
  simp only [hearPeerText, Definition.ofText_toText h.sound h.validate]
  cases d.isFinite <;> rfl

end Agent

namespace Session

theorem Proper.exists_export {s : Session ρ ν} (h : s.Proper) :
    ∃ d, s.agent.exportDefinition = .ok d ∧ d.Coherent ∧ d.categories = s.agent.definition.categories ∧
      ∀ kind, ∀ slot ∈ d.own.slots kind, s.agent.registry.find? kind slot.name = some slot := by
  have hcoherent : s.agent.Coherent := h.coherent
  have hsettled : s.agent.Settled := h.reachable.settled
  obtain ⟨own, hexport, hown⟩ := hcoherent.exportDefinition
  refine ⟨_, hexport, Agent.coherent_exported hcoherent hsettled hown, rfl, ?_⟩
  intro kind slot hslot
  rw [Definition.withOwn, hown] at hslot
  obtain ⟨t, ht, rfl⟩ := List.mem_map.mp hslot
  rw [s.agent.name_current]
  exact (Agent.find?_current hcoherent hsettled ht).1

/-- An export always succeeds, and its text is taken up by everybody if the doubles in it, the live ones
of the agent's own slots and the first ones of its categories, are finite. Otherwise everybody refuses
it, an agent that was to load it is left as it was, and for one that hears it from a peer this peer is
gone. -/
theorem export_taken_up {s : Session ρ ν} (h : s.Proper) :
    ∃ d, s.agent.exportDefinition = .ok d ∧ d.categories = s.agent.definition.categories ∧
      (∀ kind, ∀ slot ∈ d.own.slots kind, s.agent.registry.find? kind slot.name = some slot) ∧
      ∀ (ρ' : Type) (b : Agent ρ') (name : String),
        ((∀ kind, ∀ slot ∈ d.effective kind, slot.value.isFinite = true) →
          b.loadDefinitionText d.toText = b.loadDefinition d ∧
          b.hearPeerText name (some d.toText) = b.hearPeer name (some d) ∧
          (∃ changes, (b.loadDefinition d).result = .ok changes) ∧
          ∃ changes, (b.hearPeer name (some d)).result = .ok changes) ∧
        ((∃ kind, ∃ slot ∈ d.effective kind, slot.value.isFinite = false) →
          b.loadDefinitionText d.toText = b.fail (.malformed (.document .form)) ∧
          (b.hearPeerText name (some d.toText)).result = .error (.malformed (.document .form)) ∧
          (b.hearPeerText name (some d.toText)).agent.peers = b.peers.erase name) := by
  obtain ⟨d, hexport, hd, hcategories, hlive⟩ := h.exists_export
  refine ⟨d, hexport, hcategories, hlive, fun ρ' b name => ?_⟩
  rw [Agent.loadDefinitionText_toText hd, Agent.hearPeerText_toText hd]
  refine ⟨fun hfinite => ?_, ?_⟩
  · obtain ⟨changes, hresult, -⟩ := Agent.loadDefinition_of_coherent hd b
    rw [Definition.isFinite_iff.mpr hfinite]
    exact ⟨rfl, rfl, ⟨changes, hresult⟩, Agent.exists_result_hearPeer b name hd.validate⟩
  · rintro ⟨kind, slot, hslot, hvalue⟩
    have hnot : ¬d.isFinite = true := fun hfinite =>
      absurd (Definition.isFinite_iff.mp hfinite kind slot hslot) (by rw [hvalue]; decide)
    rw [if_neg hnot, if_neg hnot]
    exact ⟨rfl, rfl, rfl⟩

/-- A barometer that has written a pressure to its one output. -/
def barometer (pressure : Double) : Session Unit Unit :=
  performAll (fun _ _ s => s)
    [.createSlot .output "pressure" .double none, .write .output "pressure" (.double pressure)]
    (start ⟨{ config := { name := "barometer" }, definition := { name := "barometer" } }, []⟩)

/-- What it exports. -/
def reading (pressure : Double) : Definition :=
  { name := "barometer", own := { outputs := [⟨"pressure", .double, .double pressure, false⟩] } }

theorem proper_barometer (pressure : Double) : (barometer pressure).Proper := by
  have hstart :=
    Proper.start (ρ := Unit) (ν := Unit) (p := { config := { name := "barometer" } }) (by simp) rfl
  refine kept_proper.performAll (fun _ _ _ h => h) ?_ hstart
  simp [Op.Proper]

theorem barometer_taken_up :
    ∃ d, (barometer .one).agent.exportDefinition = .ok d ∧ ∀ b : Agent Unit,
      (∃ changes, (b.loadDefinitionText d.toText).result = .ok changes) ∧
      ∃ changes, (b.hearPeerText "barometer" (some d.toText)).result = .ok changes := by
  obtain ⟨d, hexport, -, -, htaken⟩ := export_taken_up (proper_barometer .one)
  have hreading : (barometer .one).agent.exportDefinition = .ok (reading .one) := rfl
  obtain rfl : d = reading .one := Except.ok.inj (hexport.symm.trans hreading)
  have hfinite : ∀ kind, ∀ slot ∈ (reading .one).effective kind, slot.value.isFinite = true := by
    intro kind
    cases kind <;> decide
  refine ⟨reading .one, hexport, fun b => ?_⟩
  obtain ⟨hload, hhear, hloaded, hheard⟩ := (htaken Unit b "barometer").1 hfinite
  rw [hload, hhear]
  exact ⟨hloaded, hheard⟩

/-- Nobody takes up the export of a barometer whose pressure is no number. -/
theorem barometer_refused :
    (barometer (.nan false)).Proper ∧ ∃ d, (barometer (.nan false)).agent.exportDefinition = .ok d ∧
      ∀ b : Agent Unit, (b.loadDefinitionText d.toText).result = .error (.malformed (.document .form)) ∧
        (b.hearPeerText "barometer" (some d.toText)).result = .error (.malformed (.document .form)) := by
  have hproper := proper_barometer (.nan false)
  obtain ⟨d, hexport, hd, -, -⟩ := hproper.exists_export
  have hreading : (barometer (.nan false)).agent.exportDefinition = .ok (reading (.nan false)) := rfl
  obtain rfl : d = reading (.nan false) := Except.ok.inj (hexport.symm.trans hreading)
  have hnot : (reading (.nan false)).isFinite = false := by decide
  refine ⟨hproper, reading (.nan false), hexport, fun b => ?_⟩
  rw [Agent.loadDefinitionText_toText hd, Agent.hearPeerText_toText hd, hnot]
  exact ⟨rfl, rfl⟩

end Session

end Patchbay
