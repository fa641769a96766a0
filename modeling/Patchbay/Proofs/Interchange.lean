import Patchbay.Proofs.Directory
import Patchbay.Proofs.Inclusion

/-!
# Peers that are interchangeable

A peer may announce an identical definition, which declares the same names and types in another way: in
another order, of its own or through categories, with other values and mute flags. The directory takes it
up, as it is not the same. But no rule sees a difference: named and wildcard rules look for one output and
its type, and a category that is known locally is compared with what the peer declares.

A category that is not known locally is another matter, as its template is then the peer's own.
-/

namespace Patchbay

variable {ρ ν : Type}

theorem Peers.find?_apply_known {p : Peers} {peer : String} {known d : Definition}
    (hknown : p.find? peer = some known) (hvalid : d.validate = .ok ()) :
    ∃ e, (p.apply peer (some d)).1.find? peer = some e ∧ (e = d ∨ e = known) := by
  obtain ⟨e, he, hcase⟩ := p.exists_find?_apply peer hvalid
  exact ⟨e, he, hcase.imp_right fun h => Option.some.inj (h.1.symm.trans hknown)⟩

namespace Agent
variable {a : Agent ρ} {peer : String} {known d : Definition}

/-- Every category that a rule is about is known to the agent itself. -/
def Informed (a : Agent ρ) : Prop :=
  ∀ e ∈ a.wiring.entries, ∀ category, e.rule.target = .category category →
    (a.catalog.find? category).isSome = true

/-- The links of an informed agent do not tell a definition from one that shows the same types. -/
theorem Informed.links_eq (h : a.Informed) (hknown : a.peers.find? peer = some known)
    (hvalid : d.validate = .ok ())
    (htypes : ∀ kind name, (d.find? kind name).map (·.type) = (known.find? kind name).map (·.type))
    {e : Entry} (he : e ∈ a.wiring.entries) :
    Scene.links ⟨a.registry.table, (a.peers.apply peer (some d)).1, a.catalog⟩ e.rule =
      a.scene.links e.rule := by
  refine Scene.links_of_peers (S := ⟨a.registry.table, (a.peers.apply peer (some d)).1, a.catalog⟩)
    (T := a.scene) rfl rfl fun agent => ?_
  simp only [scene]
  by_cases hagent : agent = peer
  · subst hagent
    obtain ⟨now, hnow, hcase⟩ := Peers.find?_apply_known hknown hvalid
    rw [hnow, hknown]
    rcases hcase with rfl | rfl
    · exact .some (congrArg Ordered.ofList (Scene.peerLinks_of_types _ (h e he) agent htypes))
    · exact .some rfl
  · rw [Peers.find?_apply_of_ne hagent]
    cases a.peers.find? agent with
    | none => exact .none
    | some other => exact .some rfl

/-- Nothing comes of it but the definition in the directory. -/
theorem Informed.hearPeer_eq (h : a.Informed) (ha : a.Settled)
    (hknown : a.peers.find? peer = some known) (hvalid : d.validate = .ok ())
    (htypes : ∀ kind name, (d.find? kind name).map (·.type) = (known.find? kind name).map (·.type)) :
    a.hearPeer peer (some d) =
      ({ a with peers := (a.peers.apply peer (some d)).1 } : Agent ρ).done [] := by
  have hsettled : ({ a with peers := (a.peers.apply peer (some d)).1 } : Agent ρ).Settled :=
    ⟨ha.balanced, ha.resolved.of_links fun _ he => h.links_eq hknown hvalid htypes he, ha.aligned⟩
  obtain ⟨changed, hchanged⟩ := a.peers.exists_result_apply peer hvalid
  rw [act_hearPeer, hsettled.resolve_eq, hchanged]
  rfl

end Agent

namespace Session

/-- When a peer that is known announces an identical definition that passes its check, the announcement is
accepted without a change, nothing is asked of the network, and entries, subscriptions and routes are as
they were. So is all else of the session but what the directory holds of this peer. -/
theorem identical_interchangeable {s : Session ρ ν} (hs : s.Reached Op.Credible) (react : React ρ ν)
    (hinformed : s.agent.Informed) {peer : String} {known d : Definition}
    (hknown : s.agent.peers.find? peer = some known) (hd : d.Sound) (hvalid : d.validate = .ok ())
    (hsame : d.identical known = true) :
    let out := s.perform react (.hearPeer peer (some d))
    out.2 = .ok (.changes []) ∧
    out.1.sent = s.sent ∧
    out.1.agent.wiring.entries = s.agent.wiring.entries ∧
    (∀ agent output, out.1.agent.wiring.routes agent output = s.agent.wiring.routes agent output) ∧
    out.1 = { s with agent := { s.agent with peers := out.1.agent.peers } } ∧
    (∀ other, other ≠ peer → out.1.agent.peers.find? other = s.agent.peers.find? other) ∧
    ∃ e, out.1.agent.peers.find? peer = some e ∧ (e = d ∨ e = known) := by
  intro out
  have hsettled : s.agent.Settled := (hs.reachable fun _ => Op.Credible.sound).settled
  have hcoherent : known.Coherent :=
    (Definition.validate_eq_ok_iff (Peers.All.of_find? hs.sound hknown)).mp (hs.checked.of_find? hknown)
  have hannounced : d.Coherent := (Definition.validate_eq_ok_iff hd).mp hvalid
  have hact : s.agent.hearPeer peer (some d) =
      ({ s.agent with peers := (s.agent.peers.apply peer (some d)).1 } : Agent ρ).done [] :=
    hinformed.hearPeer_eq hsettled hknown hvalid (hannounced.types_of_identical hcoherent hsame)
  have hout : out = ({ s with agent := { s.agent with
      peers := (s.agent.peers.apply peer (some d)).1 } }, .ok (.changes [])) := by
    simp only [out, perform, reply, run, hact, Agent.done, List.append_nil]
    rfl
  rw [hout]
  exact ⟨rfl, rfl, rfl, fun _ _ => rfl, rfl, fun _ hother => Peers.find?_apply_of_ne hother _,
    Peers.find?_apply_known hknown hvalid⟩

def dimmer : Category :=
  { name := "dimmer", slots := { outputs := [⟨"level", .integer, .integer 7, true⟩] } }

def spotlight : Definition :=
  { name := "lamp"
    own := { outputs := [⟨"lit", .bool, .bool false, false⟩, ⟨"level", .integer, .integer 0, false⟩] } }

/-- The spotlight with its level from a category, muted and with other values. -/
def dimmed : Definition :=
  { name := "lamp"
    description := "can be dimmed"
    categories := [dimmer]
    own := { outputs := [⟨"lit", .bool, .bool true, true⟩] } }

/-- A board that reads a lamp by name, as anybody's, and as a dimmer. -/
def board : Session Unit Unit :=
  performAll (fun _ _ s => s)
    [.createSlot .input "light" .bool none,
      .createSlot .input "level" .integer none,
      .registerCategory dimmer,
      .addRule ⟨.named "lamp", .output "light" "lit"⟩,
      .addRule ⟨.any, .output "light" "lit"⟩,
      .addRule ⟨.any, .category "dimmer"⟩,
      .hearPeer "lamp" (some spotlight)]
    (start ⟨{ config := { name := "board" }, definition := { name := "board" } }, []⟩)

theorem informed_board : board.agent.Informed := by
  intro e he category htarget
  have htargets : board.agent.wiring.entries.map (·.rule.target) =
      [.output "light" "lit", .output "light" "lit", .category "dimmer"] := by decide
  have hmem : e.rule.target ∈ board.agent.wiring.entries.map (·.rule.target) := List.mem_map_of_mem he
  rw [htargets, htarget] at hmem
  obtain rfl : category = "dimmer" := by simpa using hmem
  decide

/-- The board as it is when it has forgotten what a dimmer is. -/
def uninformed : Session Unit Unit :=
  (board.perform (fun _ _ s => s) (.unregisterCategory "dimmer")).1

/-- The board does not notice that the lamp can be dimmed; the uninformed one does. -/
theorem dimmed_unseen :
    board.Reached Op.Credible ∧ board.agent.Informed ∧
      board.agent.peers.find? "lamp" = some spotlight ∧ dimmed.Sound ∧ dimmed.validate = .ok () ∧
      dimmed.identical spotlight = true ∧ spotlight.same dimmed = false ∧
      (board.perform (fun _ _ s => s) (.hearPeer "lamp" (some dimmed))).2 = .ok (.changes []) ∧
      (board.perform (fun _ _ s => s) (.hearPeer "lamp" (some dimmed))).1.agent.wiring.entries =
        board.agent.wiring.entries ∧
      board.agent.wiring.routes "lamp" "level" = [(3, "level")] ∧
      uninformed.agent.wiring.routes "lamp" "level" = [] ∧
      (uninformed.perform (fun _ _ s => s)
        (.hearPeer "lamp" (some dimmed))).1.agent.wiring.routes "lamp" "level" = [(3, "level")] := by
  have hspotlight : spotlight.Sound :=
    Definition.sound_of_ofJson (by rfl : Definition.ofJson .direct spotlight.toJson = .ok spotlight)
  have hdimmed : dimmed.Sound :=
    Definition.sound_of_ofJson (by rfl : Definition.ofJson .direct dimmed.toJson = .ok dimmed)
  have hreached : board.Reached Op.Credible := by
    refine (kept_reached Op.Credible).performAll (fun _ _ _ h => h) ?_ ?_
    · simpa [Op.Credible] using hspotlight
    · exact fun I _ hstart => hstart { config := { name := "board" } } _ rfl
  have hknown : board.agent.peers.find? "lamp" = some spotlight := by decide
  have hvalid : dimmed.validate = .ok () := by rfl
  have hsame : dimmed.identical spotlight = true := by decide
  obtain ⟨hanswer, _, hentries, _⟩ := identical_interchangeable hreached (fun _ _ s => s) informed_board
    hknown hdimmed hvalid hsame
  exact ⟨hreached, informed_board, hknown, hdimmed, hvalid, hsame, by decide, hanswer, hentries,
    by decide, by decide, by decide⟩

end Session

end Patchbay
