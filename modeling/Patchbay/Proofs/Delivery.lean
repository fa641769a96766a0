import Patchbay.Proofs.Settled

/-!
# Deliveries

A value that arrives is taken to all the inputs that links lead it to or to none of them. The links
that are on agree with the declared types on both sides, as an agent is always resolved, so it only
depends on the announced type and on the payload which of the two it is.
-/

namespace Patchbay
open Interface

variable {ρ ν : Type}

namespace Value

theorem type_of_ofWire {t : ValueType} {bytes : List UInt8} {v : Value} (h : ofWire t bytes = .ok v) :
    v.type = t := by
  simp only [ofWire] at h
  split at h
  · rename_i hdecode
    cases h
    exact type_of_decode? hdecode
  · cases h

theorem fault_of_ofWire {t : ValueType} {bytes : List UInt8} {fault : Fault}
    (h : ofWire t bytes = .error fault) : fault = .conversion .data t := by
  simp only [ofWire] at h
  split at h
  · cases h
  · exact (Except.error.inj h).symm

end Value

namespace Registry

theorem type_eq_ok_iff {r : Registry ρ} {kind : SlotKind} {name : String} {t : ValueType} :
    r.type kind name = .ok t ↔ r.table.type? kind name = some t := by
  simp only [type, get, Interface.get, type?]
  cases r.table.find? kind name with
  | none => simp [Except.map]
  | some s => simp [Except.map]

theorem find?_write {r after : Registry ρ} {kind : SlotKind} {name : String} {v : Value}
    {n : Notification ρ} (h : r.write kind name v = .ok (after, n)) (k : SlotKind) (m : String) :
    after.find? k m = if k = kind ∧ m = name then (r.find? k m).map ({ · with value := v })
      else r.find? k m := by
  obtain ⟨s, hs, _, rfl, _⟩ := write_eq_ok h
  have hname : s.name = name := name_of_find? hs
  simp only [Registry.find?, find?_replace, hname]
  by_cases hkm : k = kind ∧ m = name
  · obtain ⟨rfl, rfl⟩ := hkm
    have hs : r.table.find? k m = some s := hs
    simp [hs, hname]
  · simp [hkm]

end Registry

namespace Session

/-- The inputs hold a value that they were given, and but for the journal nothing else has changed. -/
structure Filled (s : Session ρ ν) (inputs : List String) (v : Value) (t : Session ρ ν) : Prop where
  frame : ∃ table journal, t =
    { s with agent := { s.agent with registry := { s.agent.registry with table } }, journal }
  slots : ∀ kind name, t.agent.registry.find? kind name =
    if kind = .input ∧ name ∈ inputs then (s.agent.registry.find? kind name).map ({ · with value := v })
    else s.agent.registry.find? kind name

theorem filled_nil (s : Session ρ ν) (v : Value) : s.Filled [] v s := by
  refine ⟨⟨s.agent.registry.table, s.journal, rfl⟩, ?_⟩
  intro kind name
  simp

theorem Filled.cons {s t u : Session ρ ν} {input : String} {rest : List String} {v : Value}
    (h : s.Filled [input] v t) (h' : t.Filled rest v u) : s.Filled (input :: rest) v u := by
  refine ⟨?_, ?_⟩
  · obtain ⟨table, journal, rfl⟩ := h.frame
    obtain ⟨table', journal', rfl⟩ := h'.frame
    exact ⟨table', journal', rfl⟩
  · intro kind name
    rw [h'.slots, h.slots]
    by_cases hkind : kind = .input
    · by_cases hname : name = input
      · cases s.agent.registry.find? kind name <;> simp [hkind, hname]
      · simp [hname]
    · simp [hkind]

theorem Filled.type? {s t : Session ρ ν} {inputs : List String} {v : Value} (h : s.Filled inputs v t)
    (kind : SlotKind) (name : String) :
    t.agent.registry.table.type? kind name = s.agent.registry.table.type? kind name := by
  have hslot := h.slots kind name
  simp only [Registry.find?] at hslot
  simp only [Interface.type?, hslot]
  split
  · cases s.agent.registry.table.find? kind name <;> rfl
  · rfl

theorem Filled.settled {s t : Session ρ ν} {inputs : List String} {v : Value}
    (h : s.Filled inputs v t) (hs : s.agent.Settled) : t.agent.Settled := by
  have htypes := h.type?
  obtain ⟨⟨table, journal, rfl⟩, _⟩ := h
  refine hs.frame rfl rfl rfl (htypes .input) ?_
  intro kind name
  exact (htypes kind name).trans (hs.aligned kind name)

theorem commit_unobserved {s : Session ρ ν} (hnone : s.agent.registry.observers = [])
    {input : String} {v : Value} (hv : s.agent.registry.type .input input = .ok v.type)
    (react : React ρ ν) :
    ∃ t, s.Filled [input] v t ∧
      s.commit react .input input (s.agent.registry.write .input input v) = (t, .ok ()) := by
  obtain ⟨slot, hslot, htype⟩ := Option.map_eq_some_iff.mp (Registry.type_eq_ok_iff.mp hv)
  obtain ⟨registry, pending, hwrite⟩ := Registry.write_of_find? hslot htype.symm
  have hfind := Registry.find?_write hwrite
  obtain ⟨_, _, _, hregistry, rfl⟩ := Registry.write_eq_ok hwrite
  refine ⟨s.store .input input registry, ⟨?_, ?_⟩, ?_⟩
  · refine ⟨registry.table, (s.store .input input registry).journal, ?_⟩
    have hsame : registry = { s.agent.registry with table := registry.table } := by
      rw [hregistry]
    rw [← hsame]
    simp only [store, Agent.publication, reduceCtorEq, if_false, List.append_nil]
  · intro kind name
    simp only [List.mem_singleton]
    exact hfind kind name
  · have hquiet : registry.observers = [] := by
      rw [hregistry]
      exact hnone
    rw [hwrite]
    simp only [commit, notify, Registry.notification, Registry.watchers, hquiet, List.filter_nil,
      List.map_nil, List.isEmpty_nil, if_true]

variable (react : React ρ ν) {type : ValueType}

theorem toInput_written {d : Delivery ρ ν} (hnone : d.session.agent.registry.observers = [])
    {input : String} {v : Value} (hv : v.type = type)
    (htype : d.session.agent.registry.type .input input = .ok type) :
    ∃ t, d.session.Filled [input] v t ∧ d.toInput react type (.ok v) input =
      { d with session := t, report := { d.report with written := d.report.written ++ [input] } } := by
  subst hv
  obtain ⟨t, hfilled, hcommit⟩ := commit_unobserved hnone htype react
  refine ⟨t, hfilled, ?_⟩
  simp only [Delivery.toInput, htype, ne_eq, not_true_eq_false, if_false, hcommit]

theorem toInputs_written {inputs : List String} {d : Delivery ρ ν}
    (hnone : d.session.agent.registry.observers = []) {v : Value} (hv : v.type = type)
    (htypes : ∀ input ∈ inputs, d.session.agent.registry.type .input input = .ok type) :
    ∃ t, d.session.Filled inputs v t ∧ inputs.foldl (Delivery.toInput react type (.ok v)) d =
      { d with session := t, report := { d.report with written := d.report.written ++ inputs } } := by
  induction inputs generalizing d with
  | nil =>
    refine ⟨d.session, filled_nil d.session v, ?_⟩
    simp
  | cons input rest ih =>
    obtain ⟨htype, hrest⟩ := List.forall_mem_cons.mp htypes
    obtain ⟨t, hfilled, hstep⟩ := toInput_written react hnone hv htype
    have hnext : ∀ input ∈ rest, t.agent.registry.type .input input = .ok type := by
      intro input hinput
      rw [Registry.type_eq_ok_iff, hfilled.type?]
      exact Registry.type_eq_ok_iff.mp (hrest input hinput)
    have hquiet : t.agent.registry.observers = [] := by
      obtain ⟨⟨table, journal, rfl⟩, _⟩ := hfilled
      exact hnone
    obtain ⟨u, hfilled', hfold⟩ := ih (d := { d with
      session := t, report := { d.report with written := d.report.written ++ [input] } }) hquiet hnext
    refine ⟨u, hfilled.cons hfilled', ?_⟩
    rw [List.foldl_cons, hstep, hfold]
    simp

/-- Where every input fails, the session stays as it is. -/
theorem toInputs_failed {decoded : Except Fault Value} {inputs : List String} (d : Delivery ρ ν)
    (fault : String → Fault)
    (hfail : ∀ input ∈ inputs, ∀ e : Delivery ρ ν, e.session = d.session → ∃ stale,
      e.toInput react type decoded input = { e.fail input (fault input) with stale }) :
    ∃ stale, inputs.foldl (Delivery.toInput react type decoded) d =
      { d with
        report := { d.report with failed := d.report.failed ++ inputs.map fun i => (i, fault i) }
        stale } := by
  induction inputs generalizing d with
  | nil => exact ⟨d.stale, by simp⟩
  | cons input rest ih =>
    obtain ⟨hinput, hrest⟩ := List.forall_mem_cons.mp hfail
    obtain ⟨stale, hstep⟩ := hinput d rfl
    obtain ⟨final, hfold⟩ := ih { d.fail input (fault input) with stale } hrest
    refine ⟨final, ?_⟩
    rw [List.foldl_cons, hstep, hfold]
    simp [Delivery.fail]

theorem toInput_mistyped {d : Delivery ρ ν} {decoded : Except Fault Value} {input : String}
    {expected : ValueType} (htype : d.session.agent.registry.type .input input = .ok expected)
    (hne : type ≠ expected) :
    ∃ stale, d.toInput react type decoded input =
      { d.fail input (.mistyped input expected type) with stale } := by
  refine ⟨true, ?_⟩
  simp only [Delivery.toInput, htype, ne_eq, hne.symm, not_false_eq_true, if_true]

theorem toInput_undecoded {d : Delivery ρ ν} {fault : Fault} {input : String}
    (htype : d.session.agent.registry.type .input input = .ok type) :
    ∃ stale, d.toInput react type (.error fault) input = { d.fail input fault with stale } := by
  refine ⟨d.stale, ?_⟩
  simp only [Delivery.toInput, htype, ne_eq, not_true_eq_false, if_false]
  rfl

/-- Every input that a delivery is taken to has the type of the output that its peer declares. -/
theorem declared_of_routed {a : Agent ρ} (h : a.Settled) {agent output input : String}
    (hinput : input ∈ (a.wiring.routes agent output).map (·.2)) :
    ∃ d remote, a.peers.find? agent = some d ∧ d.find? .output output = some remote ∧
      a.registry.type .input input = .ok remote.type := by
  obtain ⟨route, hroute, rfl⟩ := List.mem_map.mp hinput
  obtain ⟨e, he, _, l, hl, hon, hpublisher, hleads⟩ := Wiring.mem_routes.mp hroute
  rw [Entry.links_of_resolved (h.resolved e he)] at hl
  obtain ⟨d, remote, hpeer, hremote, htype⟩ := Scene.on_of_mem_links hl hon
  cases hpublisher
  rw [hleads] at htype
  exact ⟨d, remote, hpeer, hremote, Registry.type_eq_ok_iff.mpr htype⟩

/-- All the inputs have the type of one output, as the peer and the output are the same. -/
theorem declared_of_routes {a : Agent ρ} (h : a.Settled) {agent output : String}
    (hcons : (a.wiring.routes agent output).map (·.2) ≠ []) :
    ∃ d remote, a.peers.find? agent = some d ∧ d.find? .output output = some remote ∧
      ∀ input ∈ (a.wiring.routes agent output).map (·.2),
        a.registry.type .input input = .ok remote.type := by
  obtain ⟨first, hfirst⟩ := List.exists_mem_of_ne_nil _ hcons
  obtain ⟨d, remote, hpeer, hremote, _⟩ := declared_of_routed h hfirst
  refine ⟨d, remote, hpeer, hremote, ?_⟩
  intro input hinput
  obtain ⟨d', remote', hpeer', hremote', htype⟩ := declared_of_routed h hinput
  cases hpeer.symm.trans hpeer'
  cases hremote.symm.trans hremote'
  exact htype

section Deliver
variable {s : Session ρ ν} {agent output : String} {inputs : List String}
  (hfrozen : s.agent.frozen = false)
  (hinputs : (s.agent.wiring.routes agent output).map (·.2) = inputs)
  (type : ValueType) (payload : List UInt8)
include hfrozen hinputs

theorem deliver_unrouted (hnil : inputs = []) :
    s.deliver react agent output type payload = (s, .ok {}) := by
  subst hnil
  have hroutes : s.agent.wiring.routes agent output = [] := List.map_eq_nil_iff.mp hinputs
  simp only [deliver, hfrozen, Bool.false_eq_true, if_false, hroutes, List.isEmpty_nil, if_true]

theorem deliver_routed (hcons : inputs ≠ []) {d : Delivery ρ ν}
    (hfold : inputs.foldl (Delivery.toInput react type (Value.ofWire type payload))
      { session := s } = d)
    (hsettled : d.session.agent.Settled) :
    s.deliver react agent output type payload = (d.session, .ok d.report) := by
  have hroutes : s.agent.wiring.routes agent output ≠ [] := by
    intro hnil
    rw [hnil] at hinputs
    exact hcons hinputs.symm
  simp only [deliver, hfrozen, Bool.false_eq_true, if_false, List.isEmpty_iff, hroutes, hinputs, hfold,
    run_resolve hsettled, ite_self]

theorem deliver_filled (hcons : inputs ≠ []) (hsettled : s.agent.Settled)
    (hnone : s.agent.registry.observers = [])
    (htypes : ∀ input ∈ inputs, s.agent.registry.type .input input = .ok type) {v : Value}
    (hv : Value.ofWire type payload = .ok v) :
    ∃ t, s.Filled inputs v t ∧
      s.deliver react agent output type payload = (t, .ok { written := inputs }) := by
  have htype : v.type = type := Value.type_of_ofWire hv
  obtain ⟨t, hfilled, hfold⟩ := toInputs_written react (d := { session := s }) hnone htype htypes
  rw [← hv] at hfold
  have hdone :=
    deliver_routed react hfrozen hinputs type payload hcons hfold (hfilled.settled hsettled)
  exact ⟨t, hfilled, by simpa using hdone⟩

theorem deliver_undecoded (hcons : inputs ≠ []) (hsettled : s.agent.Settled)
    (htypes : ∀ input ∈ inputs, s.agent.registry.type .input input = .ok type) {fault : Fault}
    (hfault : Value.ofWire type payload = .error fault) :
    s.deliver react agent output type payload =
      (s, .ok { failed := inputs.map fun i => (i, fault) }) := by
  have hfail : ∀ input ∈ inputs, ∀ d : Delivery ρ ν, d.session = s → ∃ stale,
      d.toInput react type (.error fault) input = { d.fail input fault with stale } := by
    intro input hinput d hd
    exact toInput_undecoded react (hd ▸ htypes input hinput)
  obtain ⟨stale, hfold⟩ := toInputs_failed react { session := s } (fun _ => fault) hfail
  rw [← hfault] at hfold
  simpa using deliver_routed react hfrozen hinputs type payload hcons hfold hsettled

theorem deliver_mistyped (hcons : inputs ≠ []) (hsettled : s.agent.Settled) {declared : ValueType}
    (htypes : ∀ input ∈ inputs, s.agent.registry.type .input input = .ok declared)
    (hne : type ≠ declared) :
    s.deliver react agent output type payload =
      (s, .ok { failed := inputs.map fun i => (i, .mistyped i declared type) }) := by
  have hfail : ∀ input ∈ inputs, ∀ d : Delivery ρ ν, d.session = s → ∃ stale,
      d.toInput react type (Value.ofWire type payload) input =
        { d.fail input (.mistyped input declared type) with stale } := by
    intro input hinput d hd
    exact toInput_mistyped react (hd ▸ htypes input hinput) hne
  obtain ⟨stale, hfold⟩ :=
    toInputs_failed react { session := s } (fun i => .mistyped i declared type) hfail
  simpa using deliver_routed react hfrozen hinputs type payload hcons hfold hsettled

end Deliver

/-- A delivery fills the inputs and reports them as written, or it leaves the session as it is. -/
theorem deliver_fate {s : Session ρ ν} (hsettled : s.agent.Settled)
    (hnone : s.agent.registry.observers = []) (agent output : String) (type : ValueType)
    (payload : List UInt8) :
    let inputs := (s.agent.wiring.routes agent output).map (·.2)
    let out := s.deliver react agent output type payload
    out.1 = s ∨ ∃ v, s.Filled inputs v out.1 ∧ out.2 = .ok { written := inputs } := by
  intro inputs out
  cases hfrozen : s.agent.frozen with
  | true =>
    left
    simp only [out, deliver, hfrozen, if_true]
  | false =>
    by_cases hnil : inputs = []
    · left
      simp only [out, deliver_unrouted react hfrozen rfl type payload hnil]
    · obtain ⟨_, remote, _, _, htypes⟩ := declared_of_routes hsettled hnil
      by_cases htype : type = remote.type
      · rw [← htype] at htypes
        cases hdecoded : Value.ofWire type payload with
        | ok v =>
          obtain ⟨t, hfilled, hout⟩ :=
            deliver_filled react hfrozen rfl type payload hnil hsettled hnone htypes hdecoded
          right
          refine ⟨v, ?_, ?_⟩
          · simpa only [out, hout] using hfilled
          · simp only [out, hout, inputs]
        | error fault =>
          left
          simp only [out, deliver_undecoded react hfrozen rfl type payload hnil hsettled htypes hdecoded]
      · left
        simp only [out, deliver_mistyped react hfrozen rfl type payload hnil hsettled htypes htype]

/-- What becomes of a value that arrives is settled by the links, the type and the payload alone. -/
theorem deliver_all_or_nothing {s : Session ρ ν} (h : s.Reachable) (hfrozen : s.agent.frozen = false)
    (hnone : s.agent.registry.observers = []) (react : React ρ ν) (agent output : String)
    (type : ValueType) (payload : List UInt8) :
    let inputs := (s.agent.wiring.routes agent output).map (·.2)
    let out := s.deliver react agent output type payload
    (inputs = [] → out = (s, .ok {})) ∧
    (inputs ≠ [] → ∃ d remote, s.agent.peers.find? agent = some d ∧
      d.find? .output output = some remote ∧
      (∀ input ∈ inputs, s.agent.registry.type .input input = .ok remote.type) ∧
      (∀ v, type = remote.type → Value.ofWire type payload = .ok v →
        out.2 = .ok { written := inputs } ∧
        ∀ input ∈ inputs, ∃ slot, s.agent.registry.find? .input input = some slot ∧
          out.1.agent.registry.find? .input input = some { slot with value := v }) ∧
      (type ≠ remote.type →
        out = (s, .ok { failed := inputs.map fun i => (i, .mistyped i remote.type type) })) ∧
      (type = remote.type → (∀ v, Value.ofWire type payload ≠ .ok v) →
        out = (s, .ok { failed := inputs.map fun i => (i, .conversion .data type) }))) ∧
    (∀ kind name, ¬(kind = .input ∧ name ∈ inputs) →
      out.1.agent.registry.find? kind name = s.agent.registry.find? kind name) ∧
    ∃ table journal, out.1 =
      { s with agent := { s.agent with registry := { s.agent.registry with table } }, journal } := by
  intro inputs out
  have hfate := deliver_fate react h.settled hnone agent output type payload
  refine ⟨?_, ?_, ?_, ?_⟩
  · exact deliver_unrouted react hfrozen rfl type payload
  · intro hcons
    obtain ⟨d, remote, hpeer, hremote, htypes⟩ := declared_of_routes h.settled hcons
    refine ⟨d, remote, hpeer, hremote, htypes, ?_, ?_, ?_⟩
    · intro v htype hv
      rw [← htype] at htypes
      obtain ⟨t, hfilled, hout⟩ :=
        deliver_filled react hfrozen rfl type payload hcons h.settled hnone htypes hv
      simp only [out, hout]
      refine ⟨rfl, ?_⟩
      intro input hinput
      obtain ⟨slot, hslot, _⟩ :=
        Option.map_eq_some_iff.mp (Registry.type_eq_ok_iff.mp (htypes input hinput))
      have hslot : s.agent.registry.find? .input input = some slot := hslot
      refine ⟨slot, hslot, ?_⟩
      rw [hfilled.slots, if_pos ⟨rfl, hinput⟩, hslot]
      rfl
    · exact deliver_mistyped react hfrozen rfl type payload hcons h.settled htypes
    · intro htype hundecoded
      rw [← htype] at htypes
      cases hdecoded : Value.ofWire type payload with
      | ok v => exact absurd hdecoded (hundecoded v)
      | error fault =>
        rw [← Value.fault_of_ofWire hdecoded]
        exact deliver_undecoded react hfrozen rfl type payload hcons h.settled htypes hdecoded
  · intro kind name hother
    cases hfate with
    | inl hkept => rw [hkept]
    | inr hfilled =>
      obtain ⟨v, hfilled, _⟩ := hfilled
      rw [hfilled.slots, if_neg hother]
  · cases hfate with
    | inl hkept => exact ⟨s.agent.registry.table, s.journal, hkept⟩
    | inr hfilled =>
      obtain ⟨v, hfilled, _⟩ := hfilled
      exact hfilled.frame

def lamp : Definition :=
  { name := "lamp", own := { outputs := [⟨"lit", .bool, .bool false, false⟩] } }

/-- A panel with two inputs that a lamp feeds, one by name and one as anybody would. -/
def panel : Session Unit Unit :=
  performAll (fun _ _ s => s)
    [.createSlot .input "light" .bool none,
      .createSlot .input "relay" .bool none,
      .addRule ⟨.any, .output "light" "lit"⟩,
      .addRule ⟨.named "lamp", .output "relay" "lit"⟩,
      .hearPeer "lamp" (some lamp)]
    (start ⟨{ config := { name := "panel" }, definition := { name := "panel" } }, []⟩)

theorem reachable_panel : panel.Reachable := by
  have hstart : (start ⟨{ config := { name := "panel" }, definition := { name := "panel" } }, []⟩ :
      Session Unit Unit).Reachable := reachable_of_build (p := { config := { name := "panel" } }) rfl
  apply hstart.path
  apply path_performAll
  · exact fun _ _ _ => .refl
  · simp [Op.Sound]

theorem delivered_to_both :
    (panel.deliver (fun _ _ s => s) "lamp" "lit" .bool [1]).2 =
        .ok { written := ["light", "relay"] } ∧
      panel.deliver (fun _ _ s => s) "lamp" "lit" .integer [1] = (panel, .ok { failed :=
        [("light", .mistyped "light" .bool .integer), ("relay", .mistyped "relay" .bool .integer)] }) := by
  have hinputs : (panel.agent.wiring.routes "lamp" "lit").map (·.2) = ["light", "relay"] := by
    decide
  have hlight : panel.agent.registry.type .input "light" = .ok .bool := by decide
  have h (type : ValueType) :=
    deliver_all_or_nothing reachable_panel rfl rfl (fun _ _ s => s) "lamp" "lit" type [1]
  simp only [hinputs] at h
  refine ⟨?_, ?_⟩
  · obtain ⟨d, remote, _, _, htypes, hwritten, _⟩ := (h .bool).2.1 (by simp)
    have htype : remote.type = .bool := Except.ok.inj ((htypes "light" (by simp)).symm.trans hlight)
    exact (hwritten (.bool true) htype.symm rfl).1
  · obtain ⟨d, remote, _, _, htypes, _, hmistyped, _⟩ := (h .integer).2.1 (by simp)
    have htype : remote.type = .bool := Except.ok.inj ((htypes "light" (by simp)).symm.trans hlight)
    rw [htype] at hmistyped
    exact hmistyped (by decide)

end Session

end Patchbay
