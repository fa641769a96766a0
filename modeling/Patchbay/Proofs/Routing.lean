import Mathlib.Data.List.Induction
import Patchbay.Proofs.Delivery

/-!
# A delivery while its observers are at work

The inputs that a value goes to are found once, when it arrives, and each of them has its turn even if an
observer of an earlier one has changed the wiring since. At its turn an input is only asked whether it
still has the announced type. So a delivery writes no input that was not routed when it began, and it
writes each of those that it still fits, be the entry gone or not. That the agent is not frozen and the
route is in place holds when the first input is written, and from then on as long as the observers leave
it so.
-/

namespace Patchbay
open Interface

variable {ρ ν : Type}

namespace Session

/-- The input is live with the announced type, and the payload is a value of that type. -/
def Delivery.Fits (type : ValueType) (payload : List UInt8) (d : Delivery ρ ν) (input : String) : Prop :=
  d.session.agent.registry.type .input input = .ok type ∧ ∃ v, Value.ofWire type payload = .ok v

/-- The agent may be delivered to, and a link of the entry that is on leads the publisher to the input. -/
def Routed (agent output : String) (route : Nat × String) (s : Session ρ ν) : Prop :=
  s.agent.frozen = false ∧ route ∈ s.agent.wiring.routes agent output

/-- Where a delivery stands when some routes have had their turn. -/
def underway (react : React ρ ν) (type : ValueType) (payload : List UInt8) (s : Session ρ ν)
    (routes : List (Nat × String)) : Delivery ρ ν :=
  (routes.map (·.2)).foldl (Delivery.toInput react type (Value.ofWire type payload)) { session := s }

section Turn
variable (react : React ρ ν) {type : ValueType} {payload : List UInt8} {d : Delivery ρ ν}
  {input : String}

/-- An input that fits is written. -/
theorem Delivery.Fits.stores (h : d.Fits type payload input) :
    ∃ v, Value.ofWire type payload = .ok v ∧
      d.Stores react input v (d.toInput react type (Value.ofWire type payload) input) := by
  obtain ⟨htype, v, hv⟩ := h
  obtain ⟨slot, hslot, hdeclared⟩ := Option.map_eq_some_iff.mp (Registry.type_eq_ok_iff.mp htype)
  have hvalue : v.type = slot.type := (Value.type_of_ofWire hv).trans hdeclared.symm
  obtain ⟨registry, pending, hwrite⟩ := Registry.write_of_find? hslot hvalue
  refine ⟨v, hv, registry, pending, hwrite, ?_⟩
  simp only [toInput, htype, ne_eq, not_true_eq_false, if_false, hv, hwrite, commit]

/-- An input that does not fit leaves the session as it is. -/
theorem Delivery.toInput_of_not_fits (h : ¬d.Fits type payload input) :
    ∃ fault stale, d.toInput react type (Value.ofWire type payload) input =
      { d.fail input fault with stale } := by
  rcases d.toInput_cases react type (Value.ofWire type payload) input with ⟨v, htype, hv, _⟩ | hfail
  · exact absurd ⟨htype, v, hv⟩ h
  · exact hfail

end Turn

section Underway
variable (react : React ρ ν) (type : ValueType) (payload : List UInt8) (s : Session ρ ν)

theorem underway_snoc (routes : List (Nat × String)) (route : Nat × String) :
    s.underway react type payload (routes ++ [route]) =
      (s.underway react type payload routes).toInput react type (Value.ofWire type payload) route.2 := by
  simp only [underway, List.map_append, List.map_singleton, List.foldl_append, List.foldl_cons,
    List.foldl_nil]

/-- Only inputs that were routed are written, in the order of the routes, and until one is written nothing
has changed. -/
theorem underway_written (routes : List (Nat × String)) :
    (s.underway react type payload routes).report.written.Sublist (routes.map (·.2)) ∧
      ((s.underway react type payload routes).report.written = [] →
        (s.underway react type payload routes).session = s) := by
  induction routes using List.reverseRecOn with
  | nil => exact ⟨List.Sublist.refl [], fun _ => rfl⟩
  | append_singleton routes route ih =>
    obtain ⟨hsublist, hfirst⟩ := ih
    rw [underway_snoc, List.map_append, List.map_singleton]
    rcases (s.underway react type payload routes).toInput_cases react type (Value.ofWire type payload)
      route.2 with ⟨v, _, _, registry, pending, _, hnext⟩ | ⟨fault, stale, hnext⟩
    · rw [hnext]
      exact ⟨hsublist.append (List.Sublist.refl _), by simp⟩
    · rw [hnext]
      exact ⟨hsublist.trans (List.sublist_append_left _ _), hfirst⟩

/-- A delivery is the turns of its routes, and another pass if an input was found to have another type. -/
theorem deliver_eq_underway {agent output : String} (hfrozen : s.agent.frozen = false) :
    let d := s.underway react type payload (s.agent.wiring.routes agent output)
    s.deliver react agent output type payload =
      (if d.stale && d.session.agent.config.resolveOnMismatch then (d.session.run Agent.resolve).1
        else d.session, .ok d.report) := by
  simp only [deliver, hfrozen, Bool.false_eq_true, if_false]
  by_cases hnil : s.agent.wiring.routes agent output = []
  · simp [hnil, underway]
  · simp [hnil, underway]

end Underway

/-- A frozen agent takes no delivery. Otherwise the inputs that the value is led to are those of the moment
when it arrives, and they have their turns in order. Before the first of them is written nothing has
changed. An input that does not fit any more is passed over; one that does is written if the agent is
not frozen then, whether its route is still in place or not. Where observers never freeze the agent nor
take the route away, the agent is not frozen and the route in place at the turn. -/
theorem deliver_in_turns (react : React ρ ν) (s : Session ρ ν) (agent output : String)
    (type : ValueType) (payload : List UInt8) :
    let routes := s.agent.wiring.routes agent output
    let last := s.underway react type payload routes
    let out := s.deliver react agent output type payload
    (s.agent.frozen = true → out = (s, .error .frozen)) ∧
    (s.agent.frozen = false →
      out = (if last.stale && last.session.agent.config.resolveOnMismatch
          then (last.session.run Agent.resolve).1 else last.session, .ok last.report) ∧
      last.report.written.Sublist (routes.map (·.2)) ∧
      ∀ before route after, routes = before ++ route :: after →
        let d := s.underway react type payload before
        let next := s.underway react type payload (before ++ [route])
        (d.report.written = [] → d.session = s) ∧
        (¬d.Fits type payload route.2 →
          next.session = d.session ∧ next.report.written = d.report.written) ∧
        (d.Fits type payload route.2 → d.session.agent.frozen = false →
          ∃ v, Value.ofWire type payload = .ok v ∧ d.Stores react route.2 v next) ∧
        (react.Keeps (Routed agent output route) → d.session.Routed agent output route)) := by
  intro routes last out
  refine ⟨fun hfrozen => ?_, fun hfrozen => ⟨?_, ?_, ?_⟩⟩
  · simp only [out, deliver, hfrozen, if_true]
  · exact deliver_eq_underway react type payload s hfrozen
  · exact (underway_written react type payload s routes).1
  · intro before route after hsplit d next
    have hnext : next = d.toInput react type (Value.ofWire type payload) route.2 :=
      underway_snoc react type payload s before route
    refine ⟨(underway_written react type payload s before).2, fun hfits => ?_, fun hfits _ => ?_,
      fun hkeeps => ?_⟩
    · obtain ⟨fault, stale, hfail⟩ := Delivery.toInput_of_not_fits react hfits
      rw [hnext, hfail]
      exact ⟨rfl, rfl⟩
    · rw [hnext]
      exact hfits.stores react
    · have hroute : route ∈ routes := hsplit ▸ List.mem_append_right _ List.mem_cons_self
      exact toInputs_keeps hkeeps (fun _ _ _ _ _ _ h => h) type (Value.ofWire type payload)
        (before.map (·.2)) (d := { session := s }) ⟨hfrozen, hroute⟩

/-- With observers that do nothing the second input of the panel is written over a route in place. -/
theorem panel_in_turns :
    let react : React Unit Unit := fun _ _ s => s
    let d := panel.underway react .bool [1] [(1, "light")]
    panel.agent.frozen = false ∧
      panel.agent.wiring.routes "lamp" "lit" = [(1, "light")] ++ (2, "relay") :: [] ∧
      d.Fits .bool [1] "relay" ∧ d.session.Routed "lamp" "lit" (2, "relay") ∧
      ∃ v, Value.ofWire .bool [1] = .ok v ∧
        d.Stores react "relay" v (panel.underway react .bool [1] ([(1, "light")] ++ [(2, "relay")])) := by
  intro react d
  have hfrozen : panel.agent.frozen = false := rfl
  have hroutes : panel.agent.wiring.routes "lamp" "lit" = [(1, "light")] ++ (2, "relay") :: [] := by
    decide
  have hfits : d.Fits .bool [1] "relay" := ⟨by decide, _, rfl⟩
  obtain ⟨_, hstores, hrouted⟩ :=
    (((deliver_in_turns react panel "lamp" "lit" .bool [1]).2 hfrozen).2.2 _ _ _ hroutes).2
  have hkept : d.session.Routed "lamp" "lit" (2, "relay") := hrouted fun _ _ _ h => h
  exact ⟨hfrozen, hroutes, hfits, hkept, hstores hfits hkept.1⟩

/-- An observer that removes the second entry. -/
def unplug : Behaviour Unit Unit := fun _ _ => .once (.removeEntry 2)

/-- The panel with that observer at its first input. -/
def rigged : Session Unit Unit :=
  (panel.perform (unplug.react 1) (.observe .input "light" ())).1

/-- The second input is written although its entry is gone. -/
theorem rigged_written :
    let d := rigged.underway (unplug.react 1) .bool [1] [(1, "light")]
    rigged.Reachable ∧
      rigged.agent.wiring.routes "lamp" "lit" = [(1, "light"), (2, "relay")] ∧
      d.session.agent.frozen = false ∧
      d.session.agent.wiring.contains 2 = false ∧
      (2, "relay") ∉ d.session.agent.wiring.routes "lamp" "lit" ∧
      (rigged.deliver (unplug.react 1) "lamp" "lit" .bool [1]).2 =
        .ok { written := ["light", "relay"] } := by
  refine ⟨?_, by decide⟩
  exact reachable_panel.path (.single (.operate (by trivial) (by trivial) _))

end Session

end Patchbay
