import Patchbay.Proofs.Akin
import Patchbay.Proofs.Delivery
import Patchbay.Proofs.Reading

/-!
# Hearing of many peers at once

A batch of news about peers ends where the same news end one by one, with the same refused, but in one
pass. So what it asks of the network is the difference between the subscriptions before and after, and
what happens to a peer in the course of the batch is not seen.

What is left depends on the last that was said of each peer. Only which of two definitions that are the
same is kept depends on more: a definition that is the same as the one that is known is not taken up, so
the directory goes on with the order of slots and the signs of zeros of the older one. No link and no
subscription tells these apart.
-/

namespace Patchbay

variable {ρ ν : Type}

/-- The definitions that are heard and the categories that are adopted were put together by declaring
slots. -/
def Op.Credible : Op ρ ν → Prop
  | .hearPeer _ d => ∀ e ∈ d, e.Sound
  | .hearPeers batch => ∀ c ∈ batch, ∀ e ∈ c.2, e.Sound
  | .addCategory c => c.slots.Sound
  | _ => True

/-- The operation brings news of peers. -/
def Op.Hears : Op ρ ν → Prop
  | .hearPeer .. | .hearPeerText .. | .hearPeers _ => True
  | _ => False

theorem Op.Credible.sound {op : Op ρ ν} (h : op.Credible) : op.Sound := by
  cases op with
  | addCategory c => exact h
  | _ => trivial

/-- The operation announces the definition, of whichever peer. -/
def Op.Announces (e : Definition) : Op ρ ν → Prop
  | .hearPeer _ d => e ∈ d
  | .hearPeerText _ text => ∃ s ∈ text, Definition.ofText s = .ok e
  | .hearPeers batch => ∃ c ∈ batch, e ∈ c.2
  | _ => False

theorem Op.Credible.sound_of_announces {op : Op ρ ν} (h : op.Credible) {e : Definition}
    (he : op.Announces e) : e.Sound := by
  cases op with
  | hearPeer agent d => exact h e he
  | hearPeerText agent text =>
    obtain ⟨s, _, hread⟩ := he
    exact Definition.sound_of_ofText hread
  | hearPeers batch =>
    obtain ⟨c, hc, he⟩ := he
    exact h c hc e he
  | _ => exact he.elim

namespace Peers
open Agent (applyPeers)

def Sound (p : Peers) : Prop :=
  ∀ peer ∈ p.toList, peer.definition.Sound

/-- What is known of an agent after hearing of it: nothing if it has left or its definition is refused,
else this definition, or one that was there before and is the same. -/
def Told (heard found : Option Definition) : Prop :=
  match heard with
  | none => found = none
  | some d =>
    match d.validate with
    | .error _ => found = none
    | .ok () => ∃ e, found = some e ∧ (e = d ∨ e.same d = true)

/-- All that is known of peers satisfies `Q`. -/
def All (Q : Definition → Prop) (p : Peers) : Prop :=
  ∀ peer ∈ p.toList, Q peer.definition

theorem All.of_find? {Q : Definition → Prop} {p : Peers} (h : p.All Q) {agent : String} {e : Definition}
    (he : p.find? agent = some e) : Q e :=
  h _ (Peers.find?_eq_some_iff.mp he)

theorem All.apply {Q : Definition → Prop} {p : Peers} (h : p.All Q) (agent : String)
    {d : Option Definition} (hd : ∀ e ∈ d, e.validate = .ok () → Q e) : (p.apply agent d).1.All Q := by
  have herase : (p.erase agent).All Q := fun peer hpeer => h peer (Ordered.mem_erase.mp hpeer).1
  cases d with
  | none => exact herase
  | some d =>
    simp only [Peers.apply, announce]
    split
    · exact herase
    · rename_i hvalid
      split
      · exact h
      · intro peer hpeer
        rcases Ordered.mem_insert.mp hpeer with rfl | ⟨hold, _⟩
        · exact hd d rfl hvalid
        · exact h peer hold

theorem applyPeers_cons (agent : String) (d : Option Definition)
    (rest : List (String × Option Definition)) (p : Peers) :
    (applyPeers ((agent, d) :: rest) p).1 = (applyPeers rest (p.apply agent d).1).1 := by
  simp only [applyPeers]
  split <;> rfl

theorem All.applyPeers {Q : Definition → Prop} {batch : List (String × Option Definition)} {p : Peers}
    (h : p.All Q) (hbatch : ∀ c ∈ batch, ∀ e ∈ c.2, e.validate = .ok () → Q e) :
    (applyPeers batch p).1.All Q := by
  induction batch generalizing p with
  | nil => exact h
  | cons c rest ih =>
    obtain ⟨hc, hrest⟩ := List.forall_mem_cons.mp hbatch
    rw [applyPeers_cons]
    exact ih (h.apply c.1 hc) hrest

theorem Sound.applyPeers {batch : List (String × Option Definition)} {p : Peers} (h : p.Sound)
    (hbatch : ∀ c ∈ batch, ∀ e ∈ c.2, e.Sound) : (applyPeers batch p).1.Sound :=
  All.applyPeers h fun c hc e he _ => hbatch c hc e he

end Peers

namespace Wiring

/-- Of two passes, the first leaves no trace in the wiring. -/
theorem resolve_resolve (w : Wiring) (S T : Scene) : ((w.resolve S).1.resolve T).1 = (w.resolve T).1 := by
  have hentries : (w.entries.map (Entry.resolve S)).map (Entry.resolve T) =
      w.entries.map (Entry.resolve T) := by
    rw [List.map_map]
    exact List.map_congr_left fun e _ => Entry.resolve_resolve S T e
  simp only [resolve, sync, wanted, hentries]

end Wiring

namespace Session
open Agent

/-- The session is that of a newly built agent, or one that such a session comes to by operations that
`P` allows: all that holds of the former and is kept holds of it. -/
def Reached (P : Op ρ ν → Prop) (s : Session ρ ν) : Prop :=
  ∀ I : Session ρ ν → Prop, Kept P I →
    (∀ (p : Plan) (site : Plan.Site ρ), p.build ρ = .ok site → I (start site)) → I s

theorem kept_reached (P : Op ρ ν → Prop) : Kept P (Reached P) where
  operate s op react hop quiet h I hI hstart := hI.operate s op react hop quiet (h I hI hstart)
  store s kind name v registry pending hwrite h I hI hstart :=
    hI.store s kind name v registry pending hwrite (h I hI hstart)
  mute s flag h I hI hstart := hI.mute s flag (h I hI hstart)
  freeze s flag h I hI hstart := hI.freeze s flag (h I hI hstart)
  resolve s h I hI hstart := hI.resolve s (h I hI hstart)
  called s who firing muted frozen h I hI hstart :=
    hI.called s who firing muted frozen (h I hI hstart)
  did s who answer h I hI hstart := hI.did s who answer (h I hI hstart)

theorem kept_reachable {P : Op ρ ν → Prop} (hP : ∀ op, P op → op.Sound) :
    Kept P (Reachable : Session ρ ν → Prop) where
  operate _ op react hop quiet h := h.path (.single (.operate (hP op hop) quiet react))
  store _ _ _ _ _ _ hwrite h := h.path (.single (.store hwrite))
  mute s flag h := h.path (.single (.mute s flag))
  freeze s flag h := h.path (.single (.freeze s flag))
  resolve s h := h.path (.single (.resolve s))
  called s _ _ _ _ h := h.path (.single (.note s _))
  did s _ _ h := h.path (.single (.note s _))

theorem Reached.reachable {P : Op ρ ν → Prop} (hP : ∀ op, P op → op.Sound) {s : Session ρ ν}
    (h : s.Reached P) : s.Reachable :=
  h Reachable (kept_reachable hP) fun _ _ hbuild => reachable_of_build hbuild

theorem peers_perform {s : Session ρ ν} {op : Op ρ ν} (quiet : op.Quiet) (h : ¬op.Hears)
    (react : React ρ ν) : (s.perform react op).1.agent.peers = s.agent.peers := by
  cases op with
  | write | writeAs | writeImpulsion | setMuted | setFrozen | deliver => exact quiet.elim
  | hearPeer | hearPeerText | hearPeers => exact absurd trivial h
  | note | observeAll | observeMute | observeFreeze | registerCategory | clearMappings
  | describeMapping | describeDefinition | setState | setRequestOutputs => rfl
  | createSlot | removeSlot =>
    simp only [perform, reply, run, createSlot, removeSlot, resolveFor]
    repeat' split
    all_goals rfl
  | clearSlot | setOutputMuted =>
    simp only [perform, reply, run, clearSlot, setOutputMuted, withRegistry]
    split <;> rfl
  | observe | unobserve =>
    simp only [perform, reply, run, observe, unobserve]
    split <;> rfl
  | addRule | removeEntry | removeFeed | loadMapping =>
    simp only [perform, reply, run, addRule, removeEntry, removeFeed, loadMapping]
    split <;> rfl
  | loadMappingText =>
    simp only [perform, reply, run, loadMappingText, loadMapping]
    repeat' split
    all_goals rfl
  | loadDefinition | loadDefinitionText =>
    simp only [perform, reply, run, loadDefinition, loadDefinitionText]
    repeat' split
    all_goals rfl
  | clearDefinition | setDefinitionName | unregisterCategory =>
    simp only [perform, reply, run, clearDefinition, setDefinitionName, unregisterCategory]
    split <;> rfl
  | addCategory =>
    simp only [perform, reply, run, addCategory]
    repeat' split
    all_goals rfl
  | addCall | removeCall | addArgument | removeArgument =>
    simp only [perform, reply, run, addCall, removeCall, addArgument, removeArgument, withDefinition]
    split <;> rfl

section All
variable {Q : Definition → Prop}

theorem all_perform {s : Session ρ ν} (h : s.agent.peers.All Q) {op : Op ρ ν}
    (hop : ∀ e, op.Announces e → e.validate = .ok () → Q e) (quiet : op.Quiet) (react : React ρ ν) :
    (s.perform react op).1.agent.peers.All Q := by
  by_cases hhears : op.Hears
  · cases op with
    | hearPeer agent d =>
      simp only [perform, reply, run, agent_hearPeer]
      exact h.apply agent hop
    | hearPeerText agent text =>
      cases text with
      | none =>
        simp only [perform, reply, run, hearPeerText, agent_hearPeer]
        exact h.apply agent fun e he => by cases he
      | some s =>
        simp only [perform, reply, run, hearPeerText]
        split
        · rename_i d hd
          rw [agent_hearPeer]
          refine h.apply agent fun e he => ?_
          cases he
          exact hop d ⟨s, rfl, hd⟩
        · exact h.apply (d := none) agent fun e he => by cases he
    | hearPeers batch => exact h.applyPeers fun c hc e he => hop e ⟨c, hc, he⟩
    | _ => exact hhears.elim
  · rw [peers_perform quiet hhears]
    exact h

theorem kept_all {P : Op ρ ν → Prop}
    (hP : ∀ op, P op → ∀ e, op.Announces e → e.validate = .ok () → Q e) :
    Kept P fun s : Session ρ ν => s.agent.peers.All Q where
  operate _ op react hop quiet h := all_perform h (hP op hop) quiet react
  store _ _ _ _ _ _ _ h := h
  mute _ _ h := h
  freeze _ _ h := h
  resolve _ h := h
  called _ _ _ _ _ h := h
  did _ _ _ h := h

theorem Reached.all {s : Session ρ ν} (h : s.Reached Op.Credible)
    (hQ : ∀ op : Op ρ ν, op.Credible → ∀ e, op.Announces e → e.validate = .ok () → Q e) :
    s.agent.peers.All Q := by
  refine h _ (kept_all hQ) fun p site hbuild => ?_
  refine (kept_all hQ).build (fun _ => trivial) (fun _ => trivial) (fun _ _ => trivial) ?_ hbuild
  exact fun name _ peer hpeer => absurd hpeer List.not_mem_nil

end All

/-- What is known of peers was put together by declaring slots, if all that is heard of them was. -/
theorem Reached.sound {s : Session ρ ν} (h : s.Reached Op.Credible) : s.agent.peers.Sound :=
  h.all fun _ credible _ he _ => credible.sound_of_announces he

/-- The answers to operations that are performed one after the other. -/
def answers (react : React ρ ν) : List (Op ρ ν) → Session ρ ν → List (Except Fault (Reply ν))
  | [], _ => []
  | op :: rest, s => (s.perform react op).2 :: answers react rest (s.perform react op).1

end Session

end Patchbay
