import Patchbay.Proofs.Delivery
import Patchbay.Proofs.Difference
import Patchbay.Proofs.Expansion

/-!
# What is heard of one peer

A pass makes all links of all entries anew and compares all subscriptions. Yet what is heard of one peer
reaches no further than that peer: two scenes that agree about all others give a rule the same links to all
others, be they side by side in one entry with those of the peer. So nothing is said of a publisher of
another agent, and an entry that names another agent is left with its state.
-/

namespace Patchbay
open Keyed Ordered

variable {ρ ν : Type}

namespace Links

/-- The links of a set that read from other agents. -/
def others (ls : Links) (agent : String) : Links :=
  ls.filter (·.agent != agent)

theorem mem_others {ls : Links} {agent : String} {l : Link} :
    l ∈ (ls.others agent).toList ↔ l ∈ ls.toList ∧ l.agent ≠ agent := by
  simp only [others]
  rw [mem_toList_filter, bne_iff_ne]

theorem mem_agents {ls : Links} {agent : String} :
    agent ∈ ls.agents ↔ ∃ l ∈ ls.toList, l.agent = agent := by
  simp only [agents, List.mem_eraseDups, List.mem_map]

end Links

/-- The scenes may differ in what they know of one peer, and in nothing else that links depend on. -/
structure Scene.Apart (peer : String) (S T : Scene) : Prop where
  types : ∀ input, S.inputs.type? .input input = T.inputs.type? .input input
  catalog : S.catalog = T.catalog
  peers : ∀ other, other ≠ peer → S.peers.find? other = T.peers.find? other

/-- An entry before and after something is heard of a peer. -/
structure Entry.Undisturbed (peer : String) (before after : Entry) : Prop where
  id : after.id = before.id
  rule : after.rule = before.rule
  links : after.links.others peer = before.links.others peer
  agents : ∀ other, other ≠ peer → (other ∈ after.links.agents ↔ other ∈ before.links.agents)
  state : ∀ other, before.rule.source = .named other → other ≠ peer → after.state = before.state

namespace Scene.Apart
variable {peer : String} {S T : Scene} (h : Apart peer S T)
include h

theorem mem_links {r : Rule} {l : Link} (hl : l.agent ≠ peer) :
    l ∈ (S.links r).toList ↔ l ∈ (T.links r).toList := by
  have hof := links_of_congr h.types h.catalog (h.peers l.agent hl) r
  have hmem : l ∈ ((S.links r).of l.agent).toList ↔ l ∈ ((T.links r).of l.agent).toList := by rw [hof]
  simpa only [Links.mem_of, and_true] using hmem

theorem others_links (r : Rule) : (S.links r).others peer = (T.links r).others peer := by
  apply ext_mem
  intro l
  rw [Links.mem_others, Links.mem_others]
  exact and_congr_left fun hl => h.mem_links hl

/-- A rule that names another agent has no links to the peer. -/
theorem links_named {r : Rule} {other : String} (hr : r.source = .named other) (hne : other ≠ peer) :
    S.links r = T.links r := by
  have hagent {U : Scene} {l : Link} (hl : l ∈ (U.links r).toList) : l.agent ≠ peer := by
    obtain ⟨p, _, hselects, hl⟩ := Scene.mem_links.mp hl
    have hname : other = p.name := by simpa [hr, Selector.selects] using hselects
    rwa [agent_of_mem_peerLinks hl, ← hname]
  apply ext_mem
  intro l
  constructor
  · exact fun hl => (h.mem_links (hagent hl)).mp hl
  · exact fun hl => (h.mem_links (hagent hl)).mpr hl

theorem undisturbed (e : Entry) : Entry.Undisturbed peer (e.resolve S) (e.resolve T) where
  id := rfl
  rule := rfl
  links := (h.others_links e.rule).symm
  agents other hne := by
    simp only [Links.mem_agents]
    refine exists_congr fun l => and_congr_left fun hl => ?_
    exact (h.mem_links (hl ▸ hne)).symm
  state other hr hne := by
    have hlinks : S.links e.rule = T.links e.rule := h.links_named hr hne
    simp only [Entry.resolve, hlinks]

theorem mem_subscribed (w : Wiring) {p : Publisher} (hp : p.agent ≠ peer) :
    p ∈ (w.resolve T).1.subscribed.toList ↔ p ∈ (w.resolve S).1.subscribed.toList := by
  rw [Wiring.mem_subscribed_resolve, Wiring.mem_subscribed_resolve]
  refine exists_congr fun e => and_congr_right fun _ => exists_congr fun l => ?_
  refine and_congr_left fun ⟨_, hpublisher⟩ => (h.mem_links fun hl => hp ?_).symm
  rw [← hpublisher]
  exact hl

end Scene.Apart

/-- What is asked of the network is about one agent. -/
def Effect.About (agent : String) : Effect → Prop
  | .publish .. => False
  | .subscription c => c.agent = agent
  | .request other _ => other = agent

namespace Agent

theorem apart_apply (a : Agent ρ) (peer : String) (d : Option Definition) :
    Scene.Apart peer a.scene ⟨a.registry.table, (a.peers.apply peer d).1, a.catalog⟩ :=
  ⟨fun _ => rfl, rfl, fun _ hne => (Peers.find?_apply_of_ne hne d).symm⟩

theorem about_resolve {a : Agent ρ} {peer : String}
    (h : ∀ c ∈ (a.wiring.resolve a.scene).2, c.agent = peer) : ∀ x ∈ a.resolve.sent, x.About peer := by
  intro x hx
  simp only [resolve] at hx
  rcases List.mem_append.mp hx with hchange | hrequest
  · obtain ⟨c, hc, rfl⟩ := List.mem_map.mp hchange
    exact h c hc
  · split at hrequest
    · obtain ⟨c, hc, rfl⟩ := List.mem_map.mp hrequest
      exact h c (List.mem_filter.mp hc).1
    · exact absurd hrequest List.not_mem_nil

section Hear
variable {a : Agent ρ} (h : a.Settled) (peer : String) (d : Option Definition)
include h

theorem Settled.undisturbed_hearPeer : List.Forall₂ (Entry.Undisturbed peer) a.wiring.entries
    (a.hearPeer peer d).agent.wiring.entries := by
  rw [agent_hearPeer]
  change List.Forall₂ _ _ (a.wiring.entries.map (Entry.resolve _))
  -- Settled entries are what a pass over the scene before makes of them.
  nth_rewrite 1 [← h.resolved.map_resolve]
  rw [List.forall₂_map_left_iff, List.forall₂_map_right_iff, List.forall₂_same]
  exact fun e _ => (a.apart_apply peer d).undisturbed e

theorem Settled.mem_subscribed_hearPeer {p : Publisher} (hp : p.agent ≠ peer) :
    p ∈ (a.hearPeer peer d).agent.wiring.subscribed.toList ↔ p ∈ a.wiring.subscribed.toList := by
  have hpass : a.wiring.resolve a.scene = (a.wiring, []) := h.balanced.resolve_eq h.resolved
  have hmem := (a.apart_apply peer d).mem_subscribed a.wiring hp
  rw [hpass] at hmem
  rw [agent_hearPeer]
  exact hmem

theorem Settled.changes_hearPeer :
    ∀ c ∈ (a.wiring.resolve ⟨a.registry.table, (a.peers.apply peer d).1, a.catalog⟩).2,
      c.agent = peer := by
  intro c hc
  by_contra hagent
  have hsame := h.mem_subscribed_hearPeer peer d (p := c.publisher) hagent
  rw [agent_hearPeer] at hsame
  rw [Wiring.changes_resolve, ← Wiring.changesFrom_eq_each, ← Wiring.changesFrom_eq_each,
    List.mem_append, Wiring.change_mem_changesFrom, Wiring.change_mem_changesFrom] at hc
  rcases hc with ⟨_, hbefore, hafter⟩ | ⟨_, hafter, hbefore⟩
  · exact hafter (hsame.mpr hbefore)
  · exact hbefore (hsame.mp hafter)

end Hear

end Agent

namespace Session
open Agent

/-- Whatever is heard of a peer, whether a definition that is taken up or refused or that it has left, the
entries are there in their order, with all links to other agents, and one that names another agent has its
state. What is asked of the network and reported is about the peer alone; the subscriptions to others go
on, and what is known of others, the live slots and everything else of the agent is as it was. -/
theorem hearing_confined {s : Session ρ ν} (h : s.Reachable) (react : React ρ ν) (peer : String)
    (d : Option Definition) :
    let out := s.perform react (.hearPeer peer d)
    let a := s.agent
    let b := out.1.agent
    List.Forall₂ (Entry.Undisturbed peer) a.wiring.entries b.wiring.entries ∧
    (∀ p : Publisher, p.agent ≠ peer →
      (p ∈ b.wiring.subscribed.toList ↔ p ∈ a.wiring.subscribed.toList)) ∧
    (∀ other, other ≠ peer → b.peers.find? other = a.peers.find? other) ∧
    b = { a with
      peers := b.peers
      wiring := { a.wiring with
        entries := b.wiring.entries, subscribed := b.wiring.subscribed } } ∧
    (∃ sent, out.1 = { s with agent := b, sent := s.sent ++ sent } ∧ ∀ x ∈ sent, x.About peer) ∧
    ∀ changes, out.2 = .ok (.changes changes) → ∀ c ∈ changes, c.agent = peer := by
  intro out a b
  have hsettled : a.Settled := h.settled
  have hb : b = (resolve { a with peers := (a.peers.apply peer d).1 }).agent := agent_hearPeer a peer d
  have hchanges := hsettled.changes_hearPeer peer d
  refine ⟨hsettled.undisturbed_hearPeer peer d, fun p => hsettled.mem_subscribed_hearPeer peer d, ?_, ?_,
    ⟨(a.hearPeer peer d).sent, rfl, ?_⟩, ?_⟩
  · intro other hne
    rw [hb]
    exact Peers.find?_apply_of_ne hne d
  · rw [hb]
    rfl
  · rw [act_hearPeer]
    exact about_resolve hchanges
  · intro changes hout
    have hresult : (a.hearPeer peer d).result.map Reply.changes = .ok (.changes changes : Reply ν) := hout
    rw [act_hearPeer] at hresult
    cases happlied : (a.peers.apply peer d).2 with
    | error fault =>
      rw [happlied] at hresult
      cases hresult
    | ok known =>
      rw [happlied] at hresult
      cases hresult
      exact hchanges

/-- A torch takes part in the entry that anybody may feed, beside the lamp. -/
theorem torch_beside_lamp :
    let out := panel.perform (fun _ _ s => s) (.hearPeer "torch" (some { lamp with name := "torch" }))
    panel.Reachable ∧
      out.1.agent.wiring.entries.map (·.links.agents) = [["lamp", "torch"], ["lamp"]] ∧
      List.Forall₂ (Entry.Undisturbed "torch") panel.agent.wiring.entries
        out.1.agent.wiring.entries ∧
      out.1.sent = panel.sent ++ [.subscription ⟨"torch", "lit", true⟩] := by
  intro out
  obtain ⟨hentries, _⟩ := hearing_confined reachable_panel (fun _ _ s => s) "torch"
    (some { lamp with name := "torch" })
  exact ⟨reachable_panel, by decide, hentries, by decide⟩

end Session

end Patchbay
