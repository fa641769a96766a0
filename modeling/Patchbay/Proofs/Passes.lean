import Patchbay.Proofs.Delivery
import Patchbay.Proofs.Operation

/-!
# What a pass asks of the network

A pass reports what its scene makes of the subscriptions: it ends those that are no longer wanted and begins
those that newly are. If the agent is set to ask for values, it asks every publisher for its value whose
subscription begins, after all changes.

Nothing else asks for values. A session is followed step by step: what a step asks of the network are effects
that begin nothing, and then what a pass does, if there is one.
-/

namespace Patchbay
open Ordered

variable {ρ ν : Type}

def Effect.Plain : Effect → Prop
  | .publish .. => True
  | .subscription c => c.active = false
  | .request .. => False

/-- What one step asks of the network: plain effects, then the changes of a pass, and then a request for
each that begins, if the flag is set. -/
structure Burst where
  plain : List Effect
  changes : List Change
  asks : Bool

def Burst.effects (b : Burst) : List Effect :=
  b.plain ++ (Change.effects b.changes ++ if b.asks then Change.requests b.changes else [])

namespace Session

/-- A step from `s` to `t` emits the burst. Its flag is the one that is set, and if it has changes, a pass
reports them that leads to the agent of `t`. -/
structure Emits (s t : Session ρ ν) (b : Burst) : Prop where
  sent : t.sent = s.sent ++ b.effects
  plain : ∀ x ∈ b.plain, x.Plain
  asks : b.asks = s.agent.config.requestOutputs
  pass : b.changes = [] ∨ ∃ a : Agent ρ, a.config = s.agent.config ∧ a.resolve.agent = t.agent ∧
    a.resolve.result = .ok b.changes

inductive History (s : Session ρ ν) : List Burst → Session ρ ν → Prop
  | start : History s [] s
  | step {bursts : List Burst} {t u : Session ρ ν} {b : Burst} (h : History s bursts t)
      (hstep : Step t u) (hb : Emits t u b) : History s (bursts ++ [b]) u

theorem History.sent {s t : Session ρ ν} {bursts : List Burst} (h : History s bursts t) :
    t.sent = s.sent ++ bursts.flatMap Burst.effects := by
  induction h with
  | start => exact (List.append_nil _).symm
  | step _ _ hb ih =>
    rw [hb.sent, ih, List.flatMap_append, List.flatMap_singleton, List.append_assoc]

theorem plain_effects {changes : List Change} (h : ∀ c ∈ changes, c.active = false) :
    ∀ x ∈ Change.effects changes, x.Plain := by
  intro x hx
  obtain ⟨c, hc, rfl⟩ := List.mem_map.mp hx
  exact h c hc

theorem plain_publication (a : Agent ρ) (kind : SlotKind) (name : String) :
    ∀ x ∈ a.publication kind name, x.Plain := by
  intro x hx
  simp only [Agent.publication] at hx
  split at hx
  · split at hx
    · exact absurd hx List.not_mem_nil
    · split at hx
      · exact absurd hx List.not_mem_nil
      · rw [List.mem_singleton.mp hx]
        trivial
  · exact absurd hx List.not_mem_nil

theorem emits_plain {s t : Session ρ ν} {plain : List Effect} (hsent : t.sent = s.sent ++ plain)
    (hplain : ∀ x ∈ plain, x.Plain) : Emits s t ⟨plain, [], s.agent.config.requestOutputs⟩ := by
  refine ⟨?_, hplain, rfl, .inl rfl⟩
  simp only [Burst.effects, Change.effects, Change.requests, List.filter_nil, List.map_nil, ite_self,
    List.append_nil]
  exact hsent

theorem emits_pass {s t : Session ρ ν} {plain : List Effect} {a : Agent ρ}
    (hsent : t.sent = s.sent ++ (plain ++ a.resolve.sent)) (hplain : ∀ x ∈ plain, x.Plain)
    (hconfig : a.config = s.agent.config) (hagent : a.resolve.agent = t.agent) :
    Emits s t ⟨plain, (a.wiring.resolve a.scene).2, s.agent.config.requestOutputs⟩ := by
  refine ⟨?_, hplain, rfl, .inr ⟨a, hconfig, hagent, rfl⟩⟩
  rw [hsent]
  simp only [Burst.effects, Agent.resolve, hconfig]

theorem exists_burst {s t : Session ρ ν} (h : s.agent.Settled) (hstep : Step s t) :
    ∃ b, Emits s t b := by
  have hnone : ∀ x ∈ ([] : List Effect), x.Plain := fun _ hx => absurd hx List.not_mem_nil
  have hsame {u : Session ρ ν} (hsent : u.sent = s.sent) : ∃ b, Emits s u b :=
    ⟨_, emits_plain (hsent.trans (List.append_nil _).symm) hnone⟩
  cases hstep with
  | operate sound quiet react =>
    obtain ⟨b, sent, hperform, hrewired⟩ := rewired_perform h sound quiet react
    rw [hperform]
    cases hrewired.asked with
    | ends hends => exact ⟨_, emits_plain rfl (plain_effects hends)⟩
    | pass hends hconfig hagent => exact ⟨_, emits_pass rfl (plain_effects hends) hconfig hagent⟩
  | store hwrite => exact ⟨_, emits_plain rfl (plain_publication _ _ _)⟩
  | mute flag => exact hsame rfl
  | freeze flag => exact hsame rfl
  | resolve => exact ⟨_, emits_pass rfl hnone rfl rfl⟩
  | note n => exact hsame rfl

theorem exists_history {s t : Session ρ ν} (h : s.agent.Settled) (hpath : Path s t) :
    ∃ bursts, History s bursts t := by
  induction hpath with
  | refl => exact ⟨[], .start⟩
  | @tail t u hpath hstep ih =>
    obtain ⟨bursts, hhistory⟩ := ih
    have ht : t.agent.Settled := invariant_of_path (fun _ _ => settled_step) hpath h
    obtain ⟨b, hb⟩ := exists_burst ht hstep
    exact ⟨bursts ++ [b], hhistory.step hstep hb⟩

theorem exists_path_of_build {p : Plan} {site : Plan.Site ρ} (h : p.build ρ = .ok site) :
    ∃ name, Path { agent := { config := p.config, definition := { name } } }
      (start site : Session ρ ν) := by
  have hkept : Kept Op.Sound fun t : Session ρ ν =>
      ∃ name, Path { agent := { config := p.config, definition := { name } } } t :=
    kept_of_step fun _ _ ⟨name, hpath⟩ hstep => ⟨name, hpath.tail hstep⟩
  exact hkept.build (fun _ => trivial) (fun _ => trivial) (fun _ _ => trivial)
    (fun name _ => ⟨name, .refl⟩) h

end Session

theorem Agent.resolve_requests (a : Agent ρ) :
    let out := a.wiring.resolve a.scene
    a.resolve =
      { agent := { a with wiring := out.1 }
        sent := Change.effects out.2 ++
          if a.config.requestOutputs then
            (Wiring.without out.1.subscribed a.wiring.subscribed).toList.map fun p =>
              .request p.agent p.output
          else []
        result := .ok out.2 } := by
  intro out
  have hrequests : Change.requests out.2 =
      (Wiring.without out.1.subscribed a.wiring.subscribed).toList.map fun p =>
        .request p.agent p.output := by
    rw [show out.2 = _ from Wiring.changes_resolve a.wiring a.scene, Change.requests_ends_append,
      Change.requests_each]
  rw [← hrequests]
  rfl

namespace Session

/-- A pass leads to the publishers that the links of its scene read from. It reports what is ended and then
what is begun, each in the order of agents and outputs, and once more it has nothing to do. An agent sends
just that, and then, if it is set to, a request for each subscription that begins, in the same order. However
an agent is used, and whatever its observers do, what it has sent is made up of the bursts of its steps, so
there are no requests but those of its passes. -/
theorem passes_exact {p : Plan} {site : Plan.Site ρ} (hbuild : p.build ρ = .ok site)
    {b : Behaviour ρ ν} (hb : b.Sound) (depth : Nat) {ops : List (Op ρ ν)}
    (hops : ∀ op ∈ ops, op.Sound) :
    (∀ (w : Wiring) (scene : Scene), let out := w.resolve scene
      (∀ p, p ∈ out.1.subscribed.toList ↔
        ∃ e ∈ w.entries, ∃ l ∈ (scene.links e.rule).toList, l.isOn = true ∧ l.publisher = p) ∧
      out.2 = Change.each false (Wiring.without w.subscribed out.1.subscribed) ++
        Change.each true (Wiring.without out.1.subscribed w.subscribed) ∧
      (out.2.map Change.publisher).Nodup ∧ out.1.resolve scene = (out.1, [])) ∧
    (∀ a : Agent ρ, let out := a.wiring.resolve a.scene
      a.resolve =
        { agent := { a with wiring := out.1 }
          sent := Change.effects out.2 ++
            if a.config.requestOutputs then
              (Wiring.without out.1.subscribed a.wiring.subscribed).toList.map fun p =>
                .request p.agent p.output
            else []
          result := .ok out.2 }) ∧
    ∃ name bursts,
      let t := (start site).performAll (b.react depth) ops
      History { agent := { config := p.config, definition := { name } } } bursts t ∧
        t.sent = bursts.flatMap Burst.effects := by
  refine ⟨fun w scene => ⟨fun p => w.mem_subscribed_resolve scene, w.changes_resolve scene,
    w.nodup_publishers_resolve scene, w.resolve_again scene⟩, Agent.resolve_requests, ?_⟩
  obtain ⟨name, hstart⟩ := exists_path_of_build (ν := ν) hbuild
  obtain ⟨bursts, hhistory⟩ := exists_history (Agent.settled_bare p.config name)
    (hstart.trans (path_performAll (sound_react hb depth) hops (start site)))
  exact ⟨name, bursts, hhistory, hhistory.sent⟩

/-- The flag is set and unset again, so the lamp is asked for its value and the torch is not. -/
def inquiry : List (Op Unit Unit) :=
  [.createSlot .input "light" .bool none,
    .addRule ⟨.any, .output "light" "lit"⟩,
    .setRequestOutputs true,
    .hearPeer "lamp" (some lamp),
    .setRequestOutputs false,
    .hearPeer "torch" (some { lamp with name := "torch" })]

theorem lamp_asked :
    let p : Plan := { config := { name := "panel" } }
    let s : Session Unit Unit := { agent := { config := p.config, definition := { name := "panel" } } }
    let t := s.performAll (Behaviour.idle.react 0) inquiry
    ∃ name bursts,
      History { agent := { config := p.config, definition := { name } } } bursts t ∧
      bursts.flatMap Burst.effects =
        [.subscription ⟨"lamp", "lit", true⟩, .request "lamp" "lit",
          .subscription ⟨"torch", "lit", true⟩] := by
  intro p s t
  have hops : ∀ op ∈ inquiry, op.Sound := by
    simp [inquiry, Op.Sound]
  have hbuild : ({ config := { name := "panel" } } : Plan).build Unit =
      .ok ⟨{ config := { name := "panel" }, definition := { name := "panel" } }, []⟩ := rfl
  obtain ⟨_, _, name, bursts, hhistory, hsent⟩ :=
    passes_exact hbuild (b := Behaviour.idle) (fun _ _ => trivial) 0 hops
  exact ⟨name, bursts, hhistory, hsent.symm.trans (by decide)⟩

end Session

end Patchbay
