import Patchbay.Proofs.Delivery
import Patchbay.Proofs.Operation

/-!
# Loading the mapping that was exported

An exported mapping has the rules of the entries in their order. Loaded again it keeps every entry with
its identifier, state and links, as no two entries have one rule, and the pass that follows finds nothing
to do.

A rule stays when its local input goes, though, and a mapping is refused for an input that is not there.
So the mapping can be loaded as long as all inputs of its rules are live, and it is refused for the first
of them that is not. The remote names of the rules are no obstacle, as they were checked when the rules
came in.
-/

namespace Patchbay

variable {ρ ν : Type}

namespace Rule

/-- The name that the rule goes by at the other agents. -/
def remoteName (r : Rule) : String :=
  match r.target with
  | .output _ output => output
  | .category category => category

def Named (r : Rule) : Prop := Text.isBlank r.remoteName = false

end Rule

namespace Wiring

theorem named_of_checkRule {inputs : Interface} {r : Rule} (h : checkRule inputs r = .ok ()) :
    r.Named := by
  obtain ⟨source, target⟩ := r
  cases target with
  | output input output =>
    simp only [checkRule] at h
    split at h
    · cases h
    · rename_i hnamed
      exact Bool.eq_false_iff.mpr hnamed
  | category category =>
    simp only [checkRule] at h
    split at h
    · cases h
    · rename_i hnamed
      exact Bool.eq_false_iff.mpr hnamed

theorem checkRule_of_named {inputs : Interface} {r : Rule} (h : r.Named) :
    checkRule inputs r = match r.input?.filter fun input => !inputs.contains .input input with
      | none => .ok ()
      | some input => .error (.unknownSlot .input input) := by
  obtain ⟨source, target⟩ := r
  cases target with
  | output input output =>
    have hnamed : Text.isBlank output = false := h
    simp only [checkRule, Rule.input?, hnamed, Bool.false_eq_true, if_false, Option.filter_some]
    cases inputs.contains .input input <;> rfl
  | category category =>
    have hnamed : Text.isBlank category = false := h
    simp only [checkRule, Rule.input?, hnamed, Bool.false_eq_true, if_false, Option.filter_none]

/-- Rules whose remote names are in order are refused for the first local input that is missing. -/
theorem checkRules_of_named {inputs : Interface} {rules : List Rule} (h : ∀ r ∈ rules, r.Named) :
    checkRules inputs rules =
      match (rules.filterMap Rule.input?).find? fun input => !inputs.contains .input input with
      | none => .ok ()
      | some input => .error (.unknownSlot .input input) := by
  induction rules with
  | nil => rfl
  | cons r rest ih =>
    obtain ⟨hr, hrest⟩ := List.forall_mem_cons.mp h
    simp only [checkRules, checkRule_of_named hr, List.filterMap_cons]
    cases r.input? with
    | none => exact ih hrest
    | some input =>
      cases hlive : inputs.contains .input input with
      | true => simpa [Option.filter_some, hlive] using ih hrest
      | false => simp [Option.filter_some, hlive]

theorem checkRule_of_checkRules {inputs : Interface} {rules : List Rule}
    (h : checkRules inputs rules = .ok ()) : ∀ r ∈ rules, checkRule inputs r = .ok () := by
  induction rules with
  | nil => exact fun r hr => absurd hr List.not_mem_nil
  | cons r rest ih =>
    simp only [checkRules] at h
    split at h
    · cases h
    · rename_i hr
      exact List.forall_mem_cons.mpr ⟨hr, ih h⟩

/-- The rule is one that the step brings, and it passes the check against the local inputs that the step
is given. -/
def Step.Accepts (step : Step) (r : Rule) : Prop :=
  match step with
  | .add inputs rule => r = rule ∧ checkRule inputs r = .ok ()
  | .load inputs m => r ∈ m.rules ∧ checkRule inputs r = .ok ()
  | _ => False

/-- No rule of the wiring has a blank remote name. -/
def Named (w : Wiring) : Prop := ∀ r ∈ w.entries.map (·.rule), r.Named

theorem named_new : ({} : Wiring).Named :=
  fun _ hr => absurd hr List.not_mem_nil

theorem mem_rules_layOut {previous : List Entry} {rules : List Rule} {done : List Entry} {nextId : Nat}
    {r : Rule} (hr : r ∈ (layOut previous rules done nextId).1.map (·.rule)) :
    r ∈ done.map (·.rule) ∨ r ∈ rules := by
  induction rules generalizing done nextId with
  | nil => exact .inl hr
  | cons first rest ih =>
    have hlaid (e : Entry) (he : e.rule = first) (h : r ∈ (done ++ [e]).map (·.rule) ∨ r ∈ rest) :
        r ∈ done.map (·.rule) ∨ r ∈ first :: rest := by
      rw [List.map_append, List.mem_append, List.map_singleton, List.mem_singleton, he] at h
      rw [List.mem_cons]
      tauto
    simp only [layOut] at hr
    split at hr
    · exact (ih hr).imp id (List.mem_cons_of_mem first)
    · split at hr
      · rename_i kept hkept
        exact hlaid kept (rule_of_find? hkept).2 (ih hr)
      · exact hlaid _ rfl (ih hr)

/-- What has an entry after a step had one before it, or is accepted by it. -/
theorem rules_apply (w : Wiring) (step : Step) : ∀ r ∈ (step.apply w).1.entries.map (·.rule),
    r ∈ w.entries.map (·.rule) ∨ step.Accepts r := by
  have hremoved {id : Nat} {after : Wiring} {changes : List Change}
      (hremove : w.remove id = .ok (after, changes)) :
      ∀ r ∈ after.entries.map (·.rule), r ∈ w.entries.map (·.rule) ∨ step.Accepts r := by
    intro r hr
    obtain ⟨e, he, rfl⟩ := List.mem_map.mp hr
    exact .inl (List.mem_map_of_mem (mem_of_mem_remove hremove he))
  cases step with
  | add inputs rule =>
    simp only [Step.apply, Wiring.add]
    cases hcheck : checkRule inputs rule with
    | error fault => exact fun r hr => .inl hr
    | ok _ =>
      simp only
      cases w.ruleId? rule with
      | some id => exact fun r hr => .inl hr
      | none =>
        intro r hr
        simp only [List.map_append, List.mem_append] at hr
        rcases hr with hold | hnew
        · exact .inl hold
        · obtain rfl : r = rule := List.mem_singleton.mp hnew
          exact .inr ⟨rfl, hcheck⟩
  | remove id =>
    simp only [Step.apply]
    split
    · exact hremoved ‹_›
    · exact fun r hr => .inl hr
  | removeFeed input agent output =>
    simp only [Step.apply]
    split
    · exact hremoved (removeFeed_eq_ok ‹_›)
    · exact fun r hr => .inl hr
  | clear => exact fun r hr => absurd hr List.not_mem_nil
  | load inputs m =>
    simp only [Step.apply, Wiring.load]
    cases hcheck : checkRules inputs m.rules with
    | error fault => exact fun r hr => .inl hr
    | ok _ =>
      intro r hr
      have hrule : r ∈ m.rules := (mem_rules_layOut hr).resolve_left List.not_mem_nil
      exact .inr ⟨hrule, checkRule_of_checkRules hcheck r hrule⟩
  | resolve scene => exact fun r hr => .inl (rules_resolve w scene ▸ hr)

theorem Named.apply {w : Wiring} (h : w.Named) (step : Step) : (step.apply w).1.Named := by
  intro r hr
  rcases rules_apply w step r hr with hold | haccepted
  · exact h r hold
  · cases step with
    | add | load => exact named_of_checkRule haccepted.2
    | _ => exact haccepted.elim

theorem Named.run {w : Wiring} (h : w.Named) (steps : List Step) : (w.run steps).1.Named := by
  induction steps generalizing w with
  | nil => exact h
  | cons step rest ih => exact ih (h.apply step)

theorem cutWhere_eq_self {w : Wiring} {p : Entry → Bool} (h : ∀ e ∈ w.entries, p e = false) :
    w.cutWhere p = w := by
  have hentries : (w.entries.map fun e => if p e then e.cut else e) = w.entries := by
    have hkept : ∀ e ∈ w.entries, (if p e then e.cut else e) = e := by
      intro e he
      rw [h e he, if_neg Bool.false_ne_true]
    rw [List.map_congr_left hkept]
    exact List.map_id _
  simp only [cutWhere, hentries]

/-- Entries whose rules are distinct are laid out as they are, none of them anew. -/
theorem layOut_rules {previous done rest : List Entry} (nextId : Nat)
    (hdistinct : ((done ++ rest).map (·.rule)).Nodup)
    (hprevious : ∀ e ∈ rest, previous.find? (·.rule == e.rule) = some e) :
    layOut previous (rest.map (·.rule)) done nextId = (done ++ rest, nextId) := by
  induction rest generalizing done with
  | nil => simp only [List.map_nil, layOut, List.append_nil]
  | cons e rest ih =>
    obtain ⟨he, hrest⟩ := List.forall_mem_cons.mp hprevious
    have hnew : (done.any fun x => x.rule == e.rule) = false :=
      any_eq_false_of_nodup hdistinct List.mem_cons_self
    simp only [List.map_cons, layOut, hnew, Bool.false_eq_true, if_false, he]
    rw [ih (by rwa [List.append_assoc]) hrest, List.append_assoc]
    rfl

theorem Balanced.find?_rule {w : Wiring} (h : w.Balanced) {e : Entry} (he : e ∈ w.entries) :
    w.entries.find? (·.rule == e.rule) = some e := by
  cases hfound : w.entries.find? (·.rule == e.rule) with
  | none =>
    have hne := List.find?_eq_none.mp hfound e he
    exact absurd (beq_self_eq_true e.rule) hne
  | some other =>
    obtain ⟨hother, hrule⟩ := rule_of_find? hfound
    exact congrArg some (List.inj_on_of_nodup_map h.distinct hother he hrule)

theorem Balanced.ruleId?_eq {w : Wiring} (h : w.Balanced) {e : Entry} (he : e ∈ w.entries) :
    w.ruleId? e.rule = some e.id := by
  rw [ruleId?, h.find?_rule he]
  rfl

/-- Loading the rules of the entries changes nothing, if the rules are accepted. -/
theorem Balanced.load_toMapping {w : Wiring} (h : w.Balanced) {inputs : Interface}
    (hcheck : checkRules inputs w.toMapping.rules = .ok ()) :
    w.load inputs w.toMapping = .ok (w, []) := by
  have hcut : (w.cutWhere fun e => !w.toMapping.rules.contains e.rule) = w := by
    apply cutWhere_eq_self
    intro e he
    have hrule : e.rule ∈ w.toMapping.rules := List.mem_map_of_mem he
    simpa using hrule
  have hentries : layOut w.entries w.toMapping.rules [] w.nextId = (w.entries, w.nextId) :=
    layOut_rules w.nextId h.distinct fun e he => h.find?_rule he
  simp only [Wiring.load, hcheck, hcut, h.sync_eq, hentries]
  rfl

end Wiring

namespace Session

theorem Reachable.named {s : Session ρ ν} (h : s.Reachable) : s.agent.wiring.Named :=
  h.wiring_invariant Wiring.named_new (fun _ step hw => hw.apply step) fun _ _ _ _ hw => hw

/-- The exported mapping of a reached session can be loaded again as long as all local inputs that its
rules name are live. Nothing changes then: neither the entries with their identifiers, states, links and
order, nor the words about the mapping, nor the subscriptions, and nothing is asked of the network. If an
input is missing, the mapping is refused for the first that is, and nothing changes either. -/
theorem reload_exported {s : Session ρ ν} (h : s.Reachable) :
    let a := s.agent
    a.loadMapping a.exportMapping =
      match (a.exportMapping.rules.filterMap Rule.input?).find? fun input =>
          !a.registry.table.contains .input input with
      | none => a.done []
      | some input => a.fail (.unknownSlot .input input) := by
  intro a
  have hcheck : Wiring.checkRules a.registry.table a.exportMapping.rules = _ :=
    Wiring.checkRules_of_named h.named
  split at hcheck
  · have hload : a.wiring.load a.registry.table a.exportMapping = .ok (a.wiring, []) :=
      h.settled.balanced.load_toMapping hcheck
    have hpass : Agent.resolve { a with wiring := a.wiring } = a.done [] := h.settled.resolve_eq
    simp only [Agent.loadMapping, hload, hpass]
    rfl
  · simp only [Agent.loadMapping, Wiring.load, hcheck]

/-- The lamp is connected to one input by name and to another as anybody would be. -/
theorem reload_panel :
    (panel.agent.wiring.entries.map (·.state) = [.on, .on]) ∧
      panel.agent.loadMapping panel.agent.exportMapping = panel.agent.done [] := by
  refine ⟨by decide, ?_⟩
  have hlive : ((panel.agent.exportMapping.rules.filterMap Rule.input?).find? fun input =>
      !panel.agent.registry.table.contains .input input) = none := by decide
  have h := reload_exported reachable_panel
  simpa only [hlive] using h

/-- The panel has lost the input that its second rule names. -/
def relayless : Session Unit Unit :=
  (panel.perform (fun _ _ s => s) (.removeSlot .input "relay")).1

/-- A mapping that was exported cannot always be loaded again. -/
theorem reload_refused :
    relayless.Reachable ∧
      (relayless.agent.loadMapping relayless.agent.exportMapping).result =
        .error (.unknownSlot .input "relay") := by
  refine ⟨?_, rfl⟩
  exact reachable_panel.path (.single (.operate (by trivial) (by trivial) _))

end Session

end Patchbay
