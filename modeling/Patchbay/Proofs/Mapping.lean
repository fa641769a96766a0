import Patchbay.Document.Mapping
import Patchbay.Proofs.Declared
import Patchbay.Proofs.Document
import Patchbay.Proofs.Identity

/-!
# Mappings survive their documents

A mapping is written with its rules in their order, each as one object, and reads back as it was. What can
stand in the way is a blank name in a rule, which the reader reports with the first such rule.

A wiring has another check: a remote name must not be blank, and a local input must be there. As nothing
that is there has a blank name, a mapping that is exported never has one, and can be read again.
-/

namespace Patchbay
open Json

namespace Interface

/-- Interfaces as they are put together, from nothing or from a document on. -/
inductive Built : Interface → Prop
  | empty : Built .empty
  | read {fields : List (String × Json)} {i : Interface} : ofFields fields = .ok i → Built i
  | insert {i after : Interface} (kind : SlotKind) {s : Slot} :
      Built i → s.Valid → i.insert kind s = .ok after → Built after
  | remove {i after : Interface} {kind : SlotKind} {name : String} {s : Slot} :
      Built i → i.remove kind name = .ok (s, after) → Built after
  | write {i after : Interface} {kind : SlotKind} {name : String} {v : Value} {s : Slot} :
      Built i → i.update kind name (·.write v) = .ok (s, after) → Built after
  | mute {i after : Interface} {kind : SlotKind} {name : String} {muted : Bool} {s : Slot} :
      Built i → i.update kind name (fun t => .ok { t with muted }) = .ok (s, after) → Built after
  | reset {i after : Interface} {kind : SlotKind} {name : String} {s : Slot} :
      Built i → i.update kind name (fun t => .ok t.clear) = .ok (s, after) → Built after

theorem Built.sound {i : Interface} (h : i.Built) : i.Sound := by
  induction h with
  | empty => exact sound_empty
  | read hread => exact sound_of_ofFields hread
  | insert kind _ hs hinsert ih => exact ih.insert kind hs hinsert
  | remove _ hremove ih =>
    obtain ⟨_, rfl⟩ := remove_eq_ok hremove
    exact ih.erase _ _
  | write _ hwrite ih => exact ih.update (fun _ _ ht => ht.write) hwrite
  | mute _ hmute ih =>
    refine ih.update (fun t u ht hu => ?_) hmute
    cases hu
    exact ⟨ht.named, ht.typed⟩
  | reset _ hreset ih =>
    refine ih.update (fun t u ht hu => ?_) hreset
    cases hu
    exact ht.clear

theorem Sound.isBlank_of_contains {i : Interface} (h : i.Sound) {kind : SlotKind} {name : String}
    (hname : i.contains kind name = true) : Text.isBlank name = false := by
  obtain ⟨s, hs, hsame⟩ := List.any_eq_true.mp hname
  rw [← beq_iff_eq.mp hsame]
  exact (h.valid kind s hs).named

end Interface

namespace Rule

/-- The names that the rule is about, besides the agent. -/
def names (r : Rule) : List String :=
  match r.target with
  | .output input output => [input, output]
  | .category category => [category]

def Spelled (r : Rule) : Prop :=
  ∀ name ∈ r.names, Text.isBlank name = false

instance (r : Rule) : Decidable r.Spelled :=
  inferInstanceAs (Decidable (∀ name ∈ r.names, Text.isBlank name = false))

theorem read_ofCategory (agent category : String) : (ofCategory agent category).source.Read :=
  ⟨agent, rfl⟩

theorem hasBlankName_eq_false_iff {r : Rule} : r.hasBlankName = false ↔ r.Spelled := by
  obtain ⟨source, target⟩ := r
  cases target with
  | output input output => simp [hasBlankName, Spelled, names]
  | category category => simp [hasBlankName, Spelled, names]

theorem hasBlankName_iff {r : Rule} : r.hasBlankName = true ↔ ¬r.Spelled := by
  rw [← hasBlankName_eq_false_iff, Bool.not_eq_false]

/-- The wildcard is written as the text that it is read from, so the selector must not be an agent of
that name. -/
theorem ofJson_toJson {r : Rule} (h : r.source.Read) : ofJson r.toJson.written = .ok r := by
  obtain ⟨source, target⟩ := r
  obtain ⟨text, rfl⟩ : ∃ text, source = .ofText text := h
  cases target <;>
    simp only [toJson, jsonFields, targetFields, written_object, List.map_cons, List.map_nil, ofString,
      written_text, Selector.text_ofText] <;> rfl

theorem plain_toJson (depth : Nat) (r : Rule) : Plain (depth + 2) r.toJson := by
  refine .object (List.forall_mem_cons.mpr ⟨.text _ _, ?_⟩)
  obtain ⟨source, target⟩ := r
  cases target <;> simp only [targetFields, List.forall_mem_cons]
  · exact ⟨.text _ _, .text _ _, .text _ _, fun _ h => absurd h List.not_mem_nil⟩
  · exact ⟨.text _ _, .text _ _, fun _ h => absurd h List.not_mem_nil⟩

end Rule

namespace Mapping

/-- The selectors of the rules are those of texts. -/
def Read (m : Mapping) : Prop :=
  ∀ r ∈ m.rules, r.source.Read

theorem ofJson_toJson {m : Mapping} (h : m.Read) : ofJson m.toJson.written = .ok m := by
  have hrules : asList Rule.ofJson (array (m.rules.map Rule.toJson)).written = .ok m.rules :=
    asList_ok fun r hr => Rule.ofJson_toJson (h r hr)
  let words : Draft := { name := some m.name, description := some m.description, version := some m.version }
  have hstep : Draft.field words "rules" (array (m.rules.map Rule.toJson)).written =
      .ok { words with rules := some m.rules } := map_once_ok hrules _
  simp only [toJson, written_object, List.map_cons, List.map_nil, ofJson, foldRecord]
  rw [foldFields_step rfl rfl, foldFields_step rfl rfl, foldFields_step rfl rfl,
    foldFields_step (isMisnamed_array _) hstep]
  rfl

theorem plain_toJson (depth : Nat) (m : Mapping) : Plain (depth + 4) m.toJson := by
  have hrules : Plain (depth + 3) (array (m.rules.map Rule.toJson)) :=
    .array (List.forall_mem_map.mpr fun r _ => r.plain_toJson depth)
  refine .object ?_
  simp only [List.forall_mem_cons]
  exact ⟨.text _ _, .text _ _, .text _ _, hrules, fun _ h => absurd h List.not_mem_nil⟩

/-- What is read again is the mapping itself, so only its names can be refused. -/
theorem ofText_toText {m : Mapping} (h : m.Read) : ofText m.toText = m.check.map fun _ => m := by
  have hplain : Plain maxDepth m.toJson := m.plain_toJson 123
  simp only [ofText, readDocument, toText, hplain.decode_pretty, ofJson_toJson h, Except.mapError]
  cases m.check <;> rfl

theorem check_eq_ok {m : Mapping} (h : ∀ r ∈ m.rules, r.Spelled) : m.check = .ok () := by
  have hnone : m.rules.find? Rule.hasBlankName = none :=
    List.find?_eq_none.mpr fun r hr hblank => Rule.hasBlankName_iff.mp hblank (h r hr)
  simp only [check, hnone]

theorem check_eq_error {m : Mapping} {before after : List Rule} {r : Rule}
    (hrules : m.rules = before ++ r :: after) (hbefore : ∀ q ∈ before, q.Spelled) (hr : ¬r.Spelled) :
    m.check = .error (.naming (.blank r.text)) := by
  have hfirst : m.rules.find? Rule.hasBlankName = some r := by
    rw [hrules, List.find?_eq_some_iff_append]
    refine ⟨Rule.hasBlankName_iff.mpr hr, before, after, rfl, fun q hq => ?_⟩
    rw [Rule.hasBlankName_eq_false_iff.mpr (hbefore q hq)]
    rfl
  simp only [check, hfirst]

end Mapping

namespace Wiring

/-- The interfaces that the step is given for the local inputs were put together as interfaces are. -/
def Step.Local : Step → Prop
  | .add inputs _ => inputs.Built
  | .load inputs _ => inputs.Built
  | _ => True

theorem spelled_of_checkRule {inputs : Interface} (hinputs : inputs.Sound) {r : Rule}
    (h : checkRule inputs r = .ok ()) : r.Spelled := by
  have hremote : r.Named := named_of_checkRule h
  rw [checkRule_of_named hremote] at h
  obtain ⟨source, target⟩ := r
  cases target with
  | category category => exact List.forall_mem_singleton.mpr hremote
  | output input output =>
    have hlive : inputs.contains .input input = true := by
      by_contra hgone
      rw [Bool.not_eq_true] at hgone
      simp [Rule.input?, Option.filter_some, hgone] at h
    exact List.forall_mem_cons.mpr
      ⟨hinputs.isBlank_of_contains hlive, List.forall_mem_singleton.mpr hremote⟩

section Accepted
variable {step : Step} {r : Rule}

theorem Step.Accepts.read (h : step.Accepts r) (hread : step.Read) : r.source.Read := by
  cases step with
  | add inputs rule =>
    obtain ⟨rfl, _⟩ := h
    exact hread r (List.mem_singleton.mpr rfl)
  | load inputs m => exact hread r h.1
  | _ => exact h.elim

theorem Step.Accepts.spelled (h : step.Accepts r) (hlocal : step.Local) : r.Spelled := by
  cases step with
  | add | load => exact spelled_of_checkRule hlocal.sound h.2
  | _ => exact h.elim

end Accepted

/-- Every rule there is after a run was there before it, or was accepted by one of its steps. -/
theorem rules_run (w : Wiring) (steps : List Step) : ∀ r ∈ (w.run steps).1.entries.map (·.rule),
    r ∈ w.entries.map (·.rule) ∨ ∃ step ∈ steps, step.Accepts r := by
  induction steps generalizing w with
  | nil => exact fun r hr => .inl hr
  | cons step rest ih =>
    intro r hr
    rcases ih (step.apply w).1 r hr with hthere | ⟨later, hlater, haccepted⟩
    · exact (rules_apply w step r hthere).imp_right fun haccepted => ⟨step, List.mem_cons_self, haccepted⟩
    · exact .inr ⟨later, List.mem_cons_of_mem step hlater, haccepted⟩

end Wiring

/-- A mapping whose selectors were read survives its document if none of its names is blank, and otherwise
the first rule with a blank name is reported. The mapping of a wiring is always one that survives, whatever
was done to the wiring with local inputs that were put together as interfaces are. -/
theorem mappings_survive :
    (∀ m : Mapping, m.Read → (∀ r ∈ m.rules, r.Spelled) → Mapping.ofText m.toText = .ok m) ∧
    (∀ (m : Mapping) (before after : List Rule) (r : Rule), m.Read → m.rules = before ++ r :: after →
      (∀ q ∈ before, q.Spelled) → ¬r.Spelled →
      Mapping.ofText m.toText = .error (.naming (.blank r.text))) ∧
    ∀ steps : List Wiring.Step, (∀ step ∈ steps, step.Read ∧ step.Local) →
      let m := (Wiring.run {} steps).1.toMapping
      m.Read ∧ (∀ r ∈ m.rules, r.Spelled) ∧ Mapping.ofText m.toText = .ok m := by
  have hsurvives (m : Mapping) (hread : m.Read) (hspelled : ∀ r ∈ m.rules, r.Spelled) :
      Mapping.ofText m.toText = .ok m := by
    rw [Mapping.ofText_toText hread, Mapping.check_eq_ok hspelled]
    rfl
  refine ⟨hsurvives, ?_, ?_⟩
  · intro m before after r hread hrules hbefore hr
    rw [Mapping.ofText_toText hread, Mapping.check_eq_error hrules hbefore hr]
    rfl
  · intro steps hsteps m
    have haccepted : ∀ r ∈ m.rules, ∃ step ∈ steps, step.Accepts r := fun r hr =>
      (Wiring.rules_run {} steps r hr).resolve_left List.not_mem_nil
    have hread : m.Read := by
      intro r hr
      obtain ⟨step, hstep, h⟩ := haccepted r hr
      exact h.read (hsteps step hstep).1
    have hspelled : ∀ r ∈ m.rules, r.Spelled := by
      intro r hr
      obtain ⟨step, hstep, h⟩ := haccepted r hr
      exact h.spelled (hsteps step hstep).2
    exact ⟨hread, hspelled, hsurvives m hread hspelled⟩

namespace Wiring

/-- A wiring is given a rule, a mapping without it, and another rule. -/
def plugged : List Step :=
  [.add light (.feed "light" "lamp" "lit"),
    .load light { name := "desk", rules := [.feed "light" "*" "lit"] },
    .add light (.ofCategory "lamp" "dimmer")]

end Wiring

/-- Nobody asks for the name of the agent. -/
def anonymous : Mapping := { rules := [.feed "light" "" "lit"] }

def blanked : Mapping :=
  { rules := [.feed "light" "lamp" "lit", .feed " " "lamp" "lit", .ofCategory "lamp" ""] }

/-- The mapping of the wiring survives, and so does one without the name of an agent. In the third, the
input of the second rule is reported and not the category of the last one. -/
theorem desk_survives :
    let desk := (Wiring.run {} Wiring.plugged).1.toMapping
    (∀ step ∈ Wiring.plugged, step.Read ∧ step.Local) ∧
      desk = { name := "desk", rules := [.feed "light" "*" "lit", .ofCategory "lamp" "dimmer"] } ∧
      Mapping.ofText desk.toText = .ok desk ∧
      Mapping.ofText anonymous.toText = .ok anonymous ∧
      Mapping.ofText blanked.toText = .error (.naming (.blank "  <- lamp.lit")) := by
  intro desk
  have hlight : Wiring.light.Built :=
    .insert .input .empty (s := ⟨"light", .bool, .bool false, false⟩) ⟨by decide, rfl⟩ rfl
  have hsteps : ∀ step ∈ Wiring.plugged, step.Read ∧ step.Local := by
    simp [Wiring.plugged, Wiring.Step.Read, Wiring.Step.brings, Wiring.Step.Local, Rule.read_feed,
      Rule.read_ofCategory, hlight]
  have hanonymous : ∀ r ∈ anonymous.rules, r.Spelled := by decide
  have hread : blanked.Read := by
    simp [blanked, Mapping.Read, Rule.read_feed, Rule.read_ofCategory]
  obtain ⟨hsurvives, hreported, hexported⟩ := mappings_survive
  refine ⟨hsteps, by decide, (hexported _ hsteps).2.2, ?_, ?_⟩
  · exact hsurvives anonymous (List.forall_mem_singleton.mpr (Rule.read_feed ..)) hanonymous
  · exact hreported blanked [.feed "light" "lamp" "lit"] [.ofCategory "lamp" ""] _ hread rfl
      (by decide) (by decide)

end Patchbay
