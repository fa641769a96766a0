import Patchbay.Proofs.Alike
import Patchbay.Proofs.Delivery

/-!
# Peers do not disturb one another

What an agent makes of an event depends on what it knows of the peer that sent it and on nothing it
knows of the others. So the events of each peer have the same outcomes as if the others had been
silent, in whatever order the events of several peers arrive, and the end is the same as well, but for
inputs that several of them write.
-/

namespace Patchbay

variable {ρ ν : Type}

namespace Session
open Agent

theorem Filled.calm {s t : Session ρ ν} {inputs : List String} {v : Value} (h : s.Filled inputs v t)
    (hs : s.agent.Calm) : t.agent.Calm := by
  refine ⟨h.settled hs.settled, ?_⟩
  obtain ⟨table, journal, rfl⟩ := h.frame
  exact hs.unobserved

theorem Filled.kin {s t : Session ρ ν} {inputs : List String} {v : Value} (h : s.Filled inputs v t) :
    Kin t.agent s.agent := by
  have htypes := h.type? .input
  obtain ⟨table, journal, rfl⟩ := h.frame
  exact ⟨rfl, htypes, rfl, rfl⟩

theorem Filled.peers {s t : Session ρ ν} {inputs : List String} {v : Value} (h : s.Filled inputs v t) :
    t.agent.peers = s.agent.peers := by
  obtain ⟨table, journal, rfl⟩ := h.frame
  rfl

/-- Where a peer is known alike, its values have the same report and do the same to each input. -/
theorem deliver_congr {s t : Session ρ ν} {peer : String} (h : Alike peer s.agent t.agent)
    (react : React ρ ν) (output : String) (type : ValueType) (payload : List UInt8) :
    let out := s.deliver react peer output type payload
    let out' := t.deliver react peer output type payload
    out.2 = out'.2 ∧ ∀ input,
      s.agent.registry.find? .input input = t.agent.registry.find? .input input →
      out.1.agent.registry.find? .input input = out'.1.agent.registry.find? .input input := by
  intro out out'
  have hs := h.left.settled
  have ht := h.right.settled
  have hroutes : (t.agent.wiring.routes peer output).map (·.2) =
      (s.agent.wiring.routes peer output).map (·.2) := by
    rw [h.routes]
  cases hfrozen : s.agent.frozen with
  | true =>
    have hfrozen' : t.agent.frozen = true := h.kin.frozen ▸ hfrozen
    simp only [out, out', deliver, hfrozen, hfrozen', if_true, true_and]
    exact fun _ hsame => hsame
  | false =>
    have hfrozen' : t.agent.frozen = false := h.kin.frozen ▸ hfrozen
    by_cases hnil : (s.agent.wiring.routes peer output).map (·.2) = []
    · simp only [out, out', deliver_unrouted react hfrozen rfl type payload hnil,
        deliver_unrouted react hfrozen' hroutes type payload hnil, true_and]
      exact fun _ hsame => hsame
    · obtain ⟨_, remote, _, _, htypes⟩ := declared_of_routes hs hnil
      have htypes' : ∀ input ∈ (s.agent.wiring.routes peer output).map (·.2),
          t.agent.registry.type .input input = .ok remote.type := by
        intro input hinput
        rw [Registry.type_eq_ok_iff, ← h.kin.types]
        exact Registry.type_eq_ok_iff.mp (htypes input hinput)
      by_cases htype : type = remote.type
      · rw [← htype] at htypes htypes'
        cases hdecoded : Value.ofWire type payload with
        | ok v =>
          obtain ⟨s', hfilled, hout⟩ := deliver_filled react hfrozen rfl type payload hnil hs
            h.left.unobserved htypes hdecoded
          obtain ⟨t', hfilled', hout'⟩ := deliver_filled react hfrozen' hroutes type payload hnil ht
            h.right.unobserved htypes' hdecoded
          simp only [out, out', hout, hout', true_and]
          intro input hsame
          rw [hfilled.slots, hfilled'.slots, hsame]
        | error fault =>
          simp only [out, out',
            deliver_undecoded react hfrozen rfl type payload hnil hs htypes hdecoded,
            deliver_undecoded react hfrozen' hroutes type payload hnil ht htypes' hdecoded, true_and]
          exact fun _ hsame => hsame
      · simp only [out, out', deliver_mistyped react hfrozen rfl type payload hnil hs htypes htype,
          deliver_mistyped react hfrozen' hroutes type payload hnil ht htypes' htype, true_and]
        exact fun _ hsame => hsame

/-- A delivery changes nothing but what inputs hold. -/
theorem deliver_keeps {s : Session ρ ν} (h : s.agent.Calm) (react : React ρ ν) (agent output : String)
    (type : ValueType) (payload : List UInt8) :
    let after := (s.deliver react agent output type payload).1.agent
    after.Calm ∧ Kin after s.agent ∧ after.peers = s.agent.peers := by
  intro after
  cases deliver_fate react h.settled h.unobserved agent output type payload with
  | inl hkept =>
    have hafter : after = s.agent := congrArg Session.agent hkept
    rw [hafter]
    exact ⟨h, .refl s.agent, rfl⟩
  | inr hfilled =>
    obtain ⟨_, hfilled, _⟩ := hfilled
    exact ⟨hfilled.calm h, hfilled.kin, hfilled.peers⟩

/-- What came of an event is that the input was written. -/
def Writes (outcome : Except Fault InboundOutcome) (input : String) : Prop :=
  ∃ report, outcome = .ok (.delivery report) ∧ input ∈ report.written

section Handle
variable {s t : Session ρ ν} (react : React ρ ν) {event : Inbound} {peer : String}

theorem calm_handle (h : s.agent.Calm) (event : Inbound) : (s.handle react event).1.agent.Calm := by
  cases event with
  | peer agent d => exact h.hearPeer agent d
  | value agent output type payload => exact (deliver_keeps h react agent output type payload).1

theorem kin_handle (h : s.agent.Calm) (event : Inbound) :
    Kin (s.handle react event).1.agent s.agent := by
  cases event with
  | peer agent d => exact kin_hearPeer s.agent agent d
  | value agent output type payload => exact (deliver_keeps h react agent output type payload).2.1

theorem handle_other (h : Alike peer s.agent t.agent) (hne : event.agent ≠ peer) :
    Alike peer (s.handle react event).1.agent t.agent := by
  refine ⟨calm_handle react h.left event, h.right, (kin_handle react h.left event).trans h.kin, ?_⟩
  cases event with
  | peer agent d => exact (h.hearOther hne d).known
  | value agent output type payload =>
    have hpeers := (deliver_keeps h.left react agent output type payload).2.2
    exact (congrArg (Peers.find? · peer) hpeers).trans h.known

theorem handle_own (h : Alike peer s.agent t.agent) (heq : event.agent = peer) :
    (s.handle react event).2 = (t.handle react event).2 ∧
      Alike peer (s.handle react event).1.agent (t.handle react event).1.agent := by
  subst heq
  have hkin := ((kin_handle react h.left event).trans h.kin).trans (kin_handle react h.right event).symm
  cases event with
  | peer agent d =>
    refine ⟨?_, h.hearOwn d⟩
    exact congrArg (Except.map InboundOutcome.peer) (h.result_hearOwn d)
  | value agent output type payload =>
    refine ⟨?_, calm_handle react h.left _, calm_handle react h.right _, hkin, ?_⟩
    · exact congrArg (Except.map InboundOutcome.delivery) (deliver_congr h react output type payload).1
    · have hpeers := (deliver_keeps h.left react agent output type payload).2.2
      have hpeers' := (deliver_keeps h.right react agent output type payload).2.2
      have hknown := h.known
      rw [← hpeers, ← hpeers'] at hknown
      exact hknown

/-- An event that does not write an input leaves it as it is. -/
theorem find?_handle_of_not_writes (h : s.agent.Calm) (event : Inbound) {input : String}
    (hn : ¬Writes (s.handle react event).2 input) :
    (s.handle react event).1.agent.registry.find? .input input =
      s.agent.registry.find? .input input := by
  cases event with
  | peer agent d =>
    change (s.agent.hearPeer agent d).agent.registry.find? .input input = _
    rw [agent_hearPeer]
    rfl
  | value agent output type payload =>
    change (s.deliver react agent output type payload).1.agent.registry.find? .input input = _
    cases deliver_fate react h.settled h.unobserved agent output type payload with
    | inl hkept => rw [hkept]
    | inr hfilled =>
      obtain ⟨v, hfilled, hresult⟩ := hfilled
      rw [hfilled.slots, if_neg]
      intro hmem
      have hwrites : Writes (s.handle react (.value agent output type payload)).2 input :=
        ⟨_, congrArg (Except.map InboundOutcome.delivery) hresult, hmem.2⟩
      exact hn hwrites

theorem find?_handle_own (h : Alike peer s.agent t.agent) (heq : event.agent = peer) {input : String}
    (hsame : s.agent.registry.find? .input input = t.agent.registry.find? .input input) :
    (s.handle react event).1.agent.registry.find? .input input =
      (t.handle react event).1.agent.registry.find? .input input := by
  subst heq
  cases event with
  | peer agent d =>
    change (s.agent.hearPeer agent d).agent.registry.find? .input input =
      (t.agent.hearPeer agent d).agent.registry.find? .input input
    rw [agent_hearPeer, agent_hearPeer]
    exact hsame
  | value agent output type payload =>
    exact (deliver_congr h react output type payload).2 input hsame

end Handle

/-- Events with what came of them, when they are handled one after the other. -/
def outcomes (react : React ρ ν) :
    List Inbound → Session ρ ν → List (Inbound × Except Fault InboundOutcome)
  | [], _ => []
  | event :: rest, s =>
    (event, (s.handle react event).2) :: outcomes react rest (s.handle react event).1

section Drain
variable {s t : Session ρ ν} (react : React ρ ν) {peer : String}

/-- The events of a peer fare among those of others as they do alone. -/
theorem drain_alone (h : Alike peer s.agent t.agent) (events : List Inbound) :
    (s.outcomes react events).filter (·.1.agent == peer) =
        t.outcomes react (events.filter (·.agent == peer)) ∧
      Alike peer (s.drain react events).1.agent
        (t.drain react (events.filter (·.agent == peer))).1.agent := by
  induction events generalizing s t with
  | nil => exact ⟨rfl, h⟩
  | cons event rest ih =>
    by_cases heq : event.agent = peer
    · have hown : (event.agent == peer) = true := beq_iff_eq.mpr heq
      obtain ⟨hresult, halike⟩ := handle_own react h heq
      obtain ⟨hrest, hend⟩ := ih halike
      refine ⟨?_, ?_⟩
      · simp only [outcomes, List.filter_cons, hown, if_true, hrest, hresult]
      · simp only [List.filter_cons, hown, if_true]
        exact hend
    · have hother : (event.agent == peer) = false := beq_eq_false_iff_ne.mpr heq
      obtain ⟨hrest, hend⟩ := ih (handle_other react h heq)
      refine ⟨?_, ?_⟩
      · simp only [outcomes, List.filter_cons, hother, Bool.false_eq_true, if_false, hrest]
      · simp only [List.filter_cons, hother, Bool.false_eq_true, if_false]
        exact hend

/-- An input that only one peer writes ends as the events of that peer alone would leave it. -/
theorem find?_drain_alone (h : Alike peer s.agent t.agent) {input : String}
    (hsame : s.agent.registry.find? .input input = t.agent.registry.find? .input input)
    (events : List Inbound)
    (honly : ∀ o ∈ s.outcomes react events, Writes o.2 input → o.1.agent = peer) :
    (s.drain react events).1.agent.registry.find? .input input =
      (t.drain react (events.filter (·.agent == peer))).1.agent.registry.find? .input input := by
  induction events generalizing s t with
  | nil => exact hsame
  | cons event rest ih =>
    obtain ⟨hfirst, hrest⟩ := List.forall_mem_cons.mp honly
    by_cases heq : event.agent = peer
    · have hown : (event.agent == peer) = true := beq_iff_eq.mpr heq
      simp only [List.filter_cons, hown, if_true]
      exact ih (handle_own react h heq).2 (find?_handle_own react h heq hsame) hrest
    · have hother : (event.agent == peer) = false := beq_eq_false_iff_ne.mpr heq
      have hkept := find?_handle_of_not_writes react h.left event fun hwrites => heq (hfirst hwrites)
      simp only [List.filter_cons, hother, Bool.false_eq_true, if_false]
      exact ih (handle_other react h heq) (hkept.trans hsame) hrest

end Drain

theorem exists_sole_writer {input : String} {os : List (Inbound × Except Fault InboundOutcome)}
    (hone : ∀ o ∈ os, ∀ o' ∈ os, Writes o.2 input → Writes o'.2 input → o.1.agent = o'.1.agent) :
    ∃ peer, ∀ o ∈ os, Writes o.2 input → o.1.agent = peer := by
  by_cases hwritten : ∃ o ∈ os, Writes o.2 input
  · obtain ⟨first, hfirst, hwrites⟩ := hwritten
    refine ⟨first.1.agent, ?_⟩
    intro o ho hw
    exact hone o ho first hfirst hw hwrites
  · refine ⟨"", ?_⟩
    intro o ho hw
    exact absurd ⟨o, ho, hw⟩ hwritten

/-- Two orders that keep the order of each peer give each event the same outcome and end alike, but for
inputs that several peers write. -/
theorem interleaving_independent {s : Session ρ ν} (h : s.Reachable)
    (hnone : s.agent.registry.observers = []) (react : React ρ ν) {xs ys : List Inbound}
    (horder : ∀ peer, xs.filter (·.agent == peer) = ys.filter (·.agent == peer)) :
    let a := (s.drain react xs).1.agent
    let b := (s.drain react ys).1.agent
    (∀ peer, (s.outcomes react xs).filter (·.1.agent == peer) =
      (s.outcomes react ys).filter (·.1.agent == peer)) ∧
    a.peers = b.peers ∧ a.wiring.entries = b.wiring.entries ∧
    a.wiring.subscribed = b.wiring.subscribed ∧
    ∀ input,
      (∀ o ∈ s.outcomes react xs, ∀ o' ∈ s.outcomes react xs,
        Writes o.2 input → Writes o'.2 input → o.1.agent = o'.1.agent) →
      a.registry.find? .input input = b.registry.find? .input input := by
  intro a b
  have hcalm : s.agent.Calm := ⟨h.settled, hnone⟩
  have hself (peer : String) : Alike peer s.agent s.agent := ⟨hcalm, hcalm, .refl s.agent, rfl⟩
  have hxs (peer : String) := drain_alone react (hself peer) xs
  have hys (peer : String) := drain_alone react (hself peer) ys
  have houtcomes (peer : String) : (s.outcomes react xs).filter (·.1.agent == peer) =
      (s.outcomes react ys).filter (·.1.agent == peer) := by
    rw [(hxs peer).1, (hys peer).1, horder]
  -- both ends agree with the end of each peer's own events, hence with one another
  have hpeers : a.peers = b.peers := by
    apply Peers.ext_find?
    intro peer
    have hx := (hxs peer).2.known
    rw [horder, ← (hys peer).2.known] at hx
    exact hx
  have hend := (hxs "").2
  rw [horder] at hend
  have hkin : Kin a b := hend.kin.trans (hys "").2.kin.symm
  obtain ⟨hentries, hsubscribed⟩ := hkin.wiring_eq hend.left.settled (hys "").2.left.settled hpeers
  refine ⟨houtcomes, hpeers, hentries, hsubscribed, ?_⟩
  intro input hone
  obtain ⟨peer, hpeer⟩ := exists_sole_writer hone
  have hpeer' : ∀ o ∈ s.outcomes react ys, Writes o.2 input → o.1.agent = peer := by
    intro o ho hw
    have hmem : o ∈ (s.outcomes react ys).filter (·.1.agent == o.1.agent) :=
      List.mem_filter.mpr ⟨ho, beq_self_eq_true _⟩
    rw [← houtcomes] at hmem
    exact hpeer o (List.mem_filter.mp hmem).1 hw
  have hx := find?_drain_alone react (hself peer) rfl xs hpeer
  have hy := find?_drain_alone react (hself peer) rfl ys hpeer'
  rw [← horder] at hy
  exact hx.trans hy.symm

def lampFirst : List Inbound :=
  [.value "lamp" "lit" .bool [1], .peer "torch" (some lamp), .value "torch" "lit" .integer [0]]

def torchFirst : List Inbound :=
  [.peer "torch" (some lamp), .value "torch" "lit" .integer [0], .value "lamp" "lit" .bool [1]]

theorem lampFirst_eq_torchFirst :
    let a := (panel.drain (fun _ _ s => s) lampFirst).1.agent
    let b := (panel.drain (fun _ _ s => s) torchFirst).1.agent
    a.peers = b.peers ∧ a.wiring.entries = b.wiring.entries ∧
      a.registry.find? .input "light" = b.registry.find? .input "light" ∧
      b.registry.read .input "light" = .ok (.bool true) := by
  intro a b
  have horder (peer : String) :
      lampFirst.filter (·.agent == peer) = torchFirst.filter (·.agent == peer) := by
    by_cases hlamp : "lamp" = peer
    · subst hlamp
      decide
    · by_cases htorch : "torch" = peer
      · subst htorch
        decide
      · simp [lampFirst, torchFirst, Inbound.agent, hlamp, htorch]
  have h := interleaving_independent reachable_panel rfl (fun _ _ s => s) horder
  have houtcomes : panel.outcomes (fun _ _ s => s) lampFirst =
      [(.value "lamp" "lit" .bool [1], .ok (.delivery { written := ["light", "relay"] })),
        (.peer "torch" (some lamp), .ok (.peer [⟨"torch", "lit", true⟩])),
        (.value "torch" "lit" .integer [0],
          .ok (.delivery { failed := [("light", .mistyped "light" .bool .integer)] }))] := rfl
  refine ⟨h.2.1, h.2.2.1, h.2.2.2.2 "light" ?_, by decide⟩
  simp [houtcomes, Writes]

end Session

end Patchbay
