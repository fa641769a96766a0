import Patchbay.Proofs.Settled

/-!
# What an agent knows of one peer

Two agents with the same rules, categories and types of inputs that know the same of a peer have the
same share of links to it: the same routes for its values and the same subscriptions to its outputs.
They make the same of whatever they hear of it. What is heard of another peer leaves the share as it
is.
-/

namespace Patchbay
open Interface Ordered

variable {ρ ν : Type}

namespace Peers

theorem ext_find? {p q : Peers} (h : ∀ agent, p.find? agent = q.find? agent) : p = q := by
  apply ext_mem
  intro peer
  have hfound := h peer.name
  rw [← Peers.find?_eq_some_iff, ← Peers.find?_eq_some_iff, hfound]

theorem contains_eq (p : Peers) (agent : String) : p.contains agent = (p.find? agent).isSome := by
  simp only [contains, Ordered.contains, Peers.find?, Ordered.find?, Option.isSome_map,
    List.isSome_find?]

theorem find?_erase_self (p : Peers) (agent : String) : (p.erase agent).find? agent = none := by
  simp only [Peers.find?, Peers.erase, Ordered.find?_erase_self, Option.map_none]

theorem find?_erase_of_ne {p : Peers} {agent other : String} (h : other ≠ agent) :
    (p.erase agent).find? other = p.find? other := by
  have hkey : [other] ≠ [agent] := by simpa using h
  simp only [Peers.find?, Peers.erase, Ordered.find?_erase_of_ne hkey]

theorem find?_insert_self (p : Peers) (agent : String) (d : Definition) :
    Peers.find? (Ordered.insert p ⟨agent, d⟩) agent = some d := by
  have hfound := Ordered.find?_insert_self p ⟨agent, d⟩
  exact congrArg (Option.map (·.definition)) hfound

theorem find?_insert_of_ne {p : Peers} {agent other : String} (h : other ≠ agent) (d : Definition) :
    Peers.find? (Ordered.insert p ⟨agent, d⟩) other = p.find? other := by
  have hkey : [other] ≠ Keyed.key (Peer.mk agent d) := by simpa [Keyed.key] using h
  exact congrArg (Option.map (·.definition)) (Ordered.find?_insert_of_ne hkey)

theorem find?_apply_of_ne {p : Peers} {agent other : String} (h : other ≠ agent)
    (d : Option Definition) : (p.apply agent d).1.find? other = p.find? other := by
  cases d with
  | none => exact find?_erase_of_ne h
  | some d =>
    simp only [apply, announce]
    split
    · exact find?_erase_of_ne h
    · split
      · rfl
      · exact find?_insert_of_ne h d

/-- A definition that passes its check is known afterwards, unless the one that was known is the same. -/
theorem exists_find?_apply (p : Peers) (agent : String) {d : Definition} (h : d.validate = .ok ()) :
    ∃ e, (p.apply agent (some d)).1.find? agent = some e ∧
      (e = d ∨ p.find? agent = some e ∧ e.same d = true) := by
  simp only [apply, announce, h]
  split
  · rename_i hsame
    obtain ⟨e, he, hsame⟩ := (Option.any_eq_true _ _).mp hsame
    exact ⟨e, he, .inr ⟨he, hsame⟩⟩
  · exact ⟨d, find?_insert_self p agent d, .inl rfl⟩

theorem exists_result_apply (p : Peers) (agent : String) {d : Definition} (h : d.validate = .ok ()) :
    ∃ changed, (p.apply agent (some d)).2 = .ok changed := by
  simp only [apply, announce, h]
  split <;> exact ⟨_, rfl⟩

/-- What is heard of a peer is judged by what was known of that peer. -/
theorem apply_congr {p q : Peers} {agent : String} (h : p.find? agent = q.find? agent)
    (d : Option Definition) :
    (p.apply agent d).1.find? agent = (q.apply agent d).1.find? agent ∧
      (p.apply agent d).2 = (q.apply agent d).2 := by
  cases d with
  | none =>
    refine ⟨?_, ?_⟩
    · simp only [apply, find?_erase_self]
    · simp only [apply, contains_eq, h]
  | some d =>
    simp only [apply, announce, h]
    split
    · exact ⟨by rw [find?_erase_self, find?_erase_self], rfl⟩
    · split
      · exact ⟨h, rfl⟩
      · exact ⟨by rw [find?_insert_self, find?_insert_self], rfl⟩

end Peers

namespace Wiring

/-- The rules of a wiring with their identifiers. -/
def numbered (w : Wiring) : List (Nat × Rule) :=
  w.entries.map fun e => (e.id, e.rule)

/-- What a wiring holds of one agent. -/
def share (w : Wiring) (agent : String) : List (Nat × Links) :=
  w.entries.map fun e => (e.id, e.links.of agent)

theorem numbered_resolve (w : Wiring) (scene : Scene) : (w.resolve scene).1.numbered = w.numbered := by
  change (w.entries.map (Entry.resolve scene)).map (fun e => (e.id, e.rule)) = _
  rw [List.map_map]
  rfl

theorem Resolved.share_eq {w : Wiring} {scene : Scene} (h : w.Resolved scene) (agent : String) :
    w.share agent = w.numbered.map fun k => (k.1, (scene.links k.2).of agent) := by
  simp only [share, numbered, List.map_map]
  apply List.map_congr_left
  intro e he
  simp only [Function.comp_apply, Entry.links_of_resolved (h e he)]

theorem Resolved.entries_eq {w : Wiring} {scene : Scene} (h : w.Resolved scene) :
    w.entries = w.numbered.map fun k => (Entry.fresh k.1 k.2).resolve scene := by
  rw [numbered, List.map_map, ← h.map_resolve, List.map_map]
  rfl

theorem routes_eq (w : Wiring) (agent output : String) :
    w.routes agent output = (w.share agent).flatMap fun x =>
      (x.2.toList.filter fun l => l.isOn && l.output == output).map fun l => (x.1, l.input) := by
  simp only [routes, share, List.flatMap_map, Links.of, Ordered.filter, List.filter_filter]
  congr 1
  funext e
  congr 2
  funext l
  rw [Bool.and_right_comm]

theorem reads_iff {w : Wiring} {p : Publisher} :
    w.Reads p ↔ ∃ x ∈ w.share p.agent, ∃ l ∈ x.2.toList, l.isOn = true ∧ l.publisher = p := by
  constructor
  · intro h
    obtain ⟨e, he, l, hl, hon, hp⟩ := h
    have hagent : l.agent = p.agent := congrArg Publisher.agent hp
    exact ⟨_, List.mem_map_of_mem he, l, Links.mem_of.mpr ⟨hl, hagent⟩, hon, hp⟩
  · intro h
    obtain ⟨x, hx, l, hl, hon, hp⟩ := h
    obtain ⟨e, he, rfl⟩ := List.mem_map.mp hx
    exact ⟨e, he, l, (Links.mem_of.mp hl).1, hon, hp⟩

theorem reads_congr {w v : Wiring} {p : Publisher} (h : w.share p.agent = v.share p.agent) :
    w.Reads p ↔ v.Reads p := by
  rw [reads_iff, reads_iff, h]

theorem wanted_of_share {w v : Wiring} {agent : String} (h : w.share agent = v.share agent) :
    w.wanted.filter (·.agent == agent) = v.wanted.filter (·.agent == agent) := by
  apply ext_mem
  intro p
  rw [mem_toList_filter, mem_toList_filter, mem_wanted, mem_wanted, beq_iff_eq]
  apply and_congr_left
  intro hp
  subst hp
  exact reads_congr h

/-- Where two sets of publishers only differ in one agent, the changes are about that agent. -/
theorem changesFrom_of {a b : Ordered Publisher} {agent : String}
    (hother : ∀ p, p.agent ≠ agent → (p ∈ a.toList ↔ p ∈ b.toList)) (active : Bool) :
    changesFrom active a b =
      changesFrom active (a.filter (·.agent == agent)) (b.filter (·.agent == agent)) := by
  simp only [changesFrom, Ordered.filter, List.filter_filter]
  congr 1
  apply List.filter_congr
  intro p hp
  by_cases hagent : p.agent = agent
  · simp [hagent]
  · have hb : p ∈ b.toList := (hother p hagent).mp hp
    simp [hagent, hb]

end Wiring

namespace Agent

/-- A settled agent whose slots nobody observes. -/
structure Calm (a : Agent ρ) : Prop where
  settled : a.Settled
  unobserved : a.registry.observers = []

/-- Two agents agree in everything that no event touches. -/
structure Kin (a b : Agent ρ) : Prop where
  numbered : a.wiring.numbered = b.wiring.numbered
  types : ∀ input, a.registry.table.type? .input input = b.registry.table.type? .input input
  catalog : a.catalog = b.catalog
  frozen : a.frozen = b.frozen

theorem Kin.refl (a : Agent ρ) : Kin a a :=
  ⟨rfl, fun _ => rfl, rfl, rfl⟩

theorem Kin.symm {a b : Agent ρ} (h : Kin a b) : Kin b a :=
  ⟨h.numbered.symm, fun input => (h.types input).symm, h.catalog.symm, h.frozen.symm⟩

theorem Kin.trans {a b c : Agent ρ} (h : Kin a b) (h' : Kin b c) : Kin a c :=
  ⟨h.numbered.trans h'.numbered, fun input => (h.types input).trans (h'.types input),
    h.catalog.trans h'.catalog, h.frozen.trans h'.frozen⟩

/-- Two calm agents that know the same of one peer. -/
structure Alike (peer : String) (a b : Agent ρ) : Prop where
  left : a.Calm
  right : b.Calm
  kin : Kin a b
  known : a.peers.find? peer = b.peers.find? peer

theorem Alike.share {peer : String} {a b : Agent ρ} (h : Alike peer a b) :
    a.wiring.share peer = b.wiring.share peer := by
  rw [h.left.settled.resolved.share_eq, h.right.settled.resolved.share_eq, h.kin.numbered]
  apply List.map_congr_left
  intro k _
  have hlinks : (a.scene.links k.2).of peer = (b.scene.links k.2).of peer :=
    Scene.links_of_congr h.kin.types h.kin.catalog h.known k.2
  rw [hlinks]

theorem Alike.routes {peer : String} {a b : Agent ρ} (h : Alike peer a b) (output : String) :
    a.wiring.routes peer output = b.wiring.routes peer output := by
  rw [Wiring.routes_eq, Wiring.routes_eq, h.share]

/-- Kindred agents that know the same peers have come to the same entries. -/
theorem Kin.wiring_eq {a b : Agent ρ} (h : Kin a b) (ha : a.Settled) (hb : b.Settled)
    (hpeers : a.peers = b.peers) :
    a.wiring.entries = b.wiring.entries ∧ a.wiring.subscribed = b.wiring.subscribed := by
  have hentries : a.wiring.entries = b.wiring.entries := by
    rw [ha.resolved.entries_eq, hb.resolved.entries_eq, h.numbered]
    apply List.map_congr_left
    intro k _
    exact Entry.resolve_congr (Scene.links_congr h.types h.catalog hpeers _)
  refine ⟨hentries, ?_⟩
  rw [ha.balanced.subscribed, hb.balanced.subscribed]
  simp only [Wiring.wanted, hentries]

section Hear
variable {peer other : String} {a b : Agent ρ}

/-- The wiring is resolved whether what is heard is taken up or refused. -/
theorem act_hearPeer (a : Agent ρ) (peer : String) (d : Option Definition) :
    let pass := resolve { a with peers := (a.peers.apply peer d).1 }
    a.hearPeer peer d = { pass with result := (a.peers.apply peer d).2.bind fun _ => pass.result } := by
  simp only [hearPeer]
  cases (a.peers.apply peer d).2 <;> rfl

theorem agent_hearPeer (a : Agent ρ) (peer : String) (d : Option Definition) :
    (a.hearPeer peer d).agent = (resolve { a with peers := (a.peers.apply peer d).1 }).agent := by
  rw [act_hearPeer]

theorem exists_result_hearPeer (a : Agent ρ) (peer : String) {d : Definition}
    (h : d.validate = .ok ()) : ∃ changes, (a.hearPeer peer (some d)).result = .ok changes := by
  obtain ⟨known, hknown⟩ := a.peers.exists_result_apply peer h
  rw [act_hearPeer, hknown]
  exact ⟨_, rfl⟩

theorem Calm.hearPeer (h : a.Calm) (peer : String) (d : Option Definition) :
    (a.hearPeer peer d).agent.Calm := by
  refine ⟨h.settled.hearPeer peer d, ?_⟩
  rw [agent_hearPeer]
  exact h.unobserved

theorem kin_hearPeer (a : Agent ρ) (peer : String) (d : Option Definition) :
    Kin (a.hearPeer peer d).agent a := by
  rw [agent_hearPeer]
  exact ⟨Wiring.numbered_resolve _ _, fun _ => rfl, rfl, rfl⟩

theorem Alike.hearOther (h : Alike peer a b) (hne : other ≠ peer) (d : Option Definition) :
    Alike peer (a.hearPeer other d).agent b := by
  refine ⟨h.left.hearPeer other d, h.right, (kin_hearPeer a other d).trans h.kin, ?_⟩
  rw [agent_hearPeer, ← h.known]
  exact Peers.find?_apply_of_ne hne.symm d

theorem Alike.hearOwn (h : Alike peer a b) (d : Option Definition) :
    Alike peer (a.hearPeer peer d).agent (b.hearPeer peer d).agent := by
  have hkin := ((kin_hearPeer a peer d).trans h.kin).trans (kin_hearPeer b peer d).symm
  refine ⟨h.left.hearPeer peer d, h.right.hearPeer peer d, hkin, ?_⟩
  rw [agent_hearPeer, agent_hearPeer]
  exact (Peers.apply_congr h.known d).1

/-- The share of other peers stays what it was. -/
theorem Calm.share_hearPeer (h : a.Calm) (hne : other ≠ peer) (d : Option Definition) :
    (a.hearPeer peer d).agent.wiring.share other = a.wiring.share other := by
  have halike : Alike other a a := ⟨h, h, .refl a, rfl⟩
  exact (halike.hearOther hne.symm d).share

theorem result_hearPeer (a : Agent ρ) (peer : String) (d : Option Definition) :
    (a.hearPeer peer d).result = (a.peers.apply peer d).2.map fun _ =>
      let after := (a.hearPeer peer d).agent.wiring.wanted
      Wiring.changesFrom false a.wiring.subscribed after ++
        Wiring.changesFrom true after a.wiring.subscribed := by
  rw [act_hearPeer]
  cases (a.peers.apply peer d).2 <;> rfl

/-- The changes that are reported are those of the one peer. -/
theorem Calm.result_hearPeer (h : a.Calm) (peer : String) (d : Option Definition) :
    (a.hearPeer peer d).result = (a.peers.apply peer d).2.map fun _ =>
      let before := a.wiring.wanted.filter (·.agent == peer)
      let after := (a.hearPeer peer d).agent.wiring.wanted.filter (·.agent == peer)
      Wiring.changesFrom false before after ++ Wiring.changesFrom true after before := by
  have hother (p : Publisher) (hp : p.agent ≠ peer) : p ∈ a.wiring.wanted.toList ↔
      p ∈ (a.hearPeer peer d).agent.wiring.wanted.toList := by
    rw [Wiring.mem_wanted, Wiring.mem_wanted]
    exact Wiring.reads_congr (h.share_hearPeer hp d).symm
  rw [Agent.result_hearPeer, h.settled.balanced.subscribed]
  simp only [Wiring.changesFrom_of hother, Wiring.changesFrom_of fun p hp => (hother p hp).symm]

theorem Alike.result_hearOwn (h : Alike peer a b) (d : Option Definition) :
    (a.hearPeer peer d).result = (b.hearPeer peer d).result := by
  rw [h.left.result_hearPeer, h.right.result_hearPeer, (Peers.apply_congr h.known d).2,
    Wiring.wanted_of_share h.share, Wiring.wanted_of_share (h.hearOwn d).share]

end Hear

end Agent

end Patchbay
