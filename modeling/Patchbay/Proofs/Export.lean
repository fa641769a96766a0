import Patchbay.Proofs.Declared

/-!
# Exporting the definition

An exported definition is put together anew: categories, calls and slots are added one after the other,
and each addition could be refused. None is, as what is added is what a coherent definition has already.
The own slots come out with the values and mute flags of the live ones, and everything else as it is
declared.

Whoever loads the export has these slots live, and the slots of the categories as in their templates.
-/

namespace Patchbay
open Interface

variable {ρ ν : Type}

namespace Definition

/-- The definition with the slots of another interface for its own. -/
def withOwn (d : Definition) (own : Interface) : Definition := { d with own }

theorem effective_withOwn (d : Definition) (own : Interface) (kind : SlotKind) :
    (d.withOwn own).effective kind =
      own.slots kind ++ d.categories.flatMap fun c => c.slots.slots kind := rfl

section Rebuild
variable {d : Definition}

theorem addCategory_of_new {c : Category} (hfree : d.hasCategory c.name = false)
    (hslots : ∀ kind, ∀ s ∈ c.slots.slots kind, d.find? kind s.name = none) :
    d.addCategory c = .ok { d with categories := d.categories ++ [c] } := by
  have hnone : (c.slots.all.find? fun t => (d.find? t.1 t.2.name).isSome) = none := by
    apply List.find?_eq_none.mpr
    intro t ht
    rw [hslots t.1 t.2 (mem_all.mp ht)]
    exact Bool.false_ne_true
  simp only [addCategory, hfree, Bool.false_eq_true, if_false]
  split
  · rename_i hsome
    rw [show _ = none from hnone] at hsome
    cases hsome
  · rfl

/-- Categories are taken in again if their names are distinct and no slot comes up twice. -/
theorem foldlM_addCategory {cs : List Category}
    (hcategories : ((d.categories ++ cs).map (·.name)).Nodup)
    (hnames : ∀ kind,
      ((d.effective kind ++ cs.flatMap fun c => c.slots.slots kind).map (·.name)).Nodup) :
    cs.foldlM addCategory d = .ok { d with categories := d.categories ++ cs } := by
  induction cs generalizing d with
  | nil =>
    rw [List.append_nil]
    rfl
  | cons c rest ih =>
    have hfree : d.hasCategory c.name = false :=
      any_eq_false_of_nodup hcategories List.mem_cons_self
    have hslots : ∀ kind, ∀ s ∈ c.slots.slots kind, d.find? kind s.name = none := by
      intro kind s hs
      rw [← Option.not_isSome_iff_eq_none, ← mem_names_iff]
      exact not_mem_map_of_nodup (hnames kind) (List.mem_append_left _ hs)
    have hnext : ∀ kind, ((({ d with categories := d.categories ++ [c] } : Definition).effective kind ++
        rest.flatMap fun c => c.slots.slots kind).map (·.name)).Nodup := by
      intro kind
      rw [effective_snoc, List.append_assoc]
      exact hnames kind
    rw [List.foldlM_cons, addCategory_of_new hfree hslots]
    have hrest := ih (d := { d with categories := d.categories ++ [c] })
      (by rwa [List.append_assoc]) hnext
    rw [List.append_assoc] at hrest
    exact hrest

theorem foldlM_addCall {cs : List Call} (hcalls : ∀ c ∈ cs, c.check = .ok ())
    (hnames : ((d.calls ++ cs).map (·.name)).Nodup) :
    cs.foldlM addCall d = .ok { d with calls := d.calls ++ cs } := by
  induction cs generalizing d with
  | nil =>
    rw [List.append_nil]
    rfl
  | cons c rest ih =>
    obtain ⟨hc, hrest⟩ := List.forall_mem_cons.mp hcalls
    have hfree : d.hasCall c.name = false :=
      any_eq_false_of_nodup hnames List.mem_cons_self
    have hadd : d.addCall c = .ok { d with calls := d.calls ++ [c] } := by
      simp only [addCall, hc, hfree, Bool.false_eq_true, if_false]
    rw [List.foldlM_cons, hadd]
    have hall := ih (d := { d with calls := d.calls ++ [c] }) hrest (by rwa [List.append_assoc])
    rw [List.append_assoc] at hall
    exact hall

theorem addSlot_of_new {kind : SlotKind} {s : Slot} (hfree : d.contributor? kind s.name = none)
    (hnew : s.name ∉ d.own.names kind) :
    ∃ own, d.own.insert kind s = .ok own ∧ d.addSlot kind s = .ok (d.withOwn own) := by
  obtain ⟨own, hinsert⟩ := insert_of_not_mem hnew
  refine ⟨own, hinsert, ?_⟩
  simp only [addSlot, hfree, Option.isSome_none, Bool.false_eq_true, if_false, hinsert]
  rfl

/-- Own slots are taken in again if no slot comes up twice. -/
theorem foldlM_addSlot {ts : List (SlotKind × Slot)} {own : Interface}
    (hnames : ∀ kind, ((own.slots kind ++ ofKind ts kind ++
      d.categories.flatMap fun c => c.slots.slots kind).map (·.name)).Nodup) :
    ∃ after, ts.foldlM (fun d t => addSlot d t.1 t.2) (d.withOwn own) = .ok (d.withOwn after) ∧
      ∀ kind, after.slots kind = own.slots kind ++ ofKind ts kind := by
  induction ts generalizing own with
  | nil => exact ⟨own, rfl, fun kind => by simp [ofKind]⟩
  | cons t rest ih =>
    obtain ⟨k, s⟩ := t
    have hsplit (kind : SlotKind) :
        ofKind ((k, s) :: rest) kind = ofKind [(k, s)] kind ++ ofKind rest kind :=
      ofKind_append [(k, s)] rest kind
    have hk := hnames k
    rw [hsplit, ofKind_singleton_self] at hk
    have hfree : (d.withOwn own).contributor? k s.name = none := by
      apply Option.map_eq_none_iff.mpr
      apply List.find?_eq_none.mpr
      intro c hc hcontains
      obtain ⟨t, ht, heq⟩ := List.any_eq_true.mp hcontains
      have hlater : t ∈ d.categories.flatMap fun c => c.slots.slots k :=
        List.mem_flatMap.mpr ⟨c, hc, ht⟩
      refine not_mem_map_of_nodup hk hlater ?_
      simp [beq_iff_eq.mp heq]
    have hnew : s.name ∉ own.names k := by
      rw [List.append_assoc] at hk
      exact not_mem_map_of_nodup hk List.mem_cons_self
    obtain ⟨next, hinsert, hadd⟩ := addSlot_of_new hfree hnew
    have hinsert : own.insert k s = .ok next := hinsert
    have hnext : ∀ kind, ((next.slots kind ++ ofKind rest kind ++
        d.categories.flatMap fun c => c.slots.slots kind).map (·.name)).Nodup := by
      intro kind
      rw [slots_insert hinsert, List.append_assoc (own.slots kind), ← hsplit]
      exact hnames kind
    obtain ⟨after, hall, hslots⟩ := ih hnext
    refine ⟨after, ?_, fun kind => ?_⟩
    · rw [List.foldlM_cons, hadd]
      exact hall
    · rw [hslots, slots_insert hinsert, hsplit, List.append_assoc]

end Rebuild

end Definition

namespace Agent

/-- The slot as it is now, where it is live. -/
def current (a : Agent ρ) (kind : SlotKind) (s : Slot) : Slot :=
  (a.registry.find? kind s.name).getD s

theorem name_current (a : Agent ρ) (kind : SlotKind) (s : Slot) : (a.current kind s).name = s.name := by
  simp only [current]
  cases hfound : a.registry.find? kind s.name with
  | none => rfl
  | some t => exact name_of_find? hfound

/-- The export of a coherent agent succeeds. It has the own slots as they are now, and is the definition
in all else. -/
theorem Coherent.exportDefinition {a : Agent ρ} (h : a.Coherent) :
    ∃ own, a.exportDefinition = .ok (a.definition.withOwn own) ∧
      ∀ kind, own.slots kind = (a.definition.own.slots kind).map (a.current kind) := by
  have hd := h.declared
  have hnew : Definition.new a.definition.name = .ok { name := a.definition.name } := by
    simp only [Definition.new, checkName_eq_ok_iff.mpr hd.named]
  let words : Definition :=
    { name := a.definition.name
      description := a.definition.description
      version := a.definition.version }
  have hcategories : a.definition.categories.foldlM Definition.addCategory words =
      .ok { words with categories := a.definition.categories } := by
    refine Definition.foldlM_addCategory hd.categories fun kind => ?_
    have hempty : words.effective kind = [] := by cases kind <;> rfl
    rw [hempty, List.nil_append]
    exact (hd.names kind).sublist ((List.sublist_append_right _ _).map _)
  have hcalls : a.definition.calls.foldlM Definition.addCall
      { words with categories := a.definition.categories } =
        .ok { words with categories := a.definition.categories, calls := a.definition.calls } :=
    Definition.foldlM_addCall hd.calls hd.callNames
  let ts := a.definition.own.all.map fun t => (t.1, a.current t.1 t.2)
  have hts (kind : SlotKind) : ofKind ts kind = (a.definition.own.slots kind).map (a.current kind) := by
    rw [ofKind_map_slots, ofKind_all]
  have hslots : ∀ kind, ((({} : Interface).slots kind ++ ofKind ts kind ++
      a.definition.categories.flatMap fun c => c.slots.slots kind).map (·.name)).Nodup := by
    intro kind
    have hempty : ({} : Interface).slots kind = [] := by cases kind <;> rfl
    have hnames := hd.names kind
    rw [Definition.effective, List.map_append] at hnames
    rw [hempty, List.nil_append, hts, List.map_append, List.map_map]
    have hsame : ((·.name) ∘ a.current kind : Slot → String) = (·.name) := funext (a.name_current kind)
    rwa [hsame]
  obtain ⟨own, hown, hall⟩ := Definition.foldlM_addSlot (d := a.definition) hslots
  refine ⟨own, ?_, fun kind => ?_⟩
  · rw [List.foldlM_map] at hown
    simp only [Agent.exportDefinition, hnew]
    change (a.definition.categories.foldlM Definition.addCategory words >>= fun d =>
      a.definition.calls.foldlM Definition.addCall d >>= fun d => _) = _
    rw [hcategories]
    change (a.definition.calls.foldlM Definition.addCall
      { words with categories := a.definition.categories } >>= fun d => _) = _
    rw [hcalls]
    exact hown
  · rw [hall, hts]
    cases kind <;> rfl

/-- An own slot of the definition is live, with the type that is declared. -/
theorem find?_current {a : Agent ρ} (h : a.Coherent) (hs : a.Settled) {kind : SlotKind} {s : Slot}
    (hown : s ∈ a.definition.own.slots kind) :
    a.registry.find? kind s.name = some (a.current kind s) ∧ (a.current kind s).type = s.type := by
  have hdeclared : a.definition.find? kind s.name = some s :=
    h.declared.find?_of_mem (List.mem_append_left _ hown)
  have htype : (a.registry.find? kind s.name).map (·.type) = some s.type := by
    have haligned := hs.aligned kind s.name
    rwa [hdeclared] at haligned
  obtain ⟨t, ht, htype⟩ := Option.map_eq_some_iff.mp htype
  have hcurrent : a.current kind s = t := by
    simp only [current, ht, Option.getD_some]
  rw [hcurrent]
  exact ⟨ht, htype⟩

section Exported
variable {a : Agent ρ} (h : a.Coherent) (hs : a.Settled) {own : Interface}
  (hown : ∀ kind, own.slots kind = (a.definition.own.slots kind).map (a.current kind))
include hown

theorem names_exported (kind : SlotKind) :
    ((a.definition.withOwn own).effective kind).map (·.name) =
      (a.definition.effective kind).map (·.name) := by
  have hsame : ((·.name) ∘ a.current kind : Slot → String) = (·.name) := funext (a.name_current kind)
  rw [Definition.effective_withOwn, Definition.effective, hown, List.map_append, List.map_append,
    List.map_map, hsame]

include h hs

theorem coherent_exported : (a.definition.withOwn own).Coherent := by
  have hd := h.declared
  refine ⟨hd.named, hd.categories, hd.calls, hd.callNames, ?_, ?_⟩
  · intro kind
    rw [names_exported hown]
    exact hd.names kind
  · intro kind t ht
    rw [Definition.effective_withOwn, hown] at ht
    rcases List.mem_append.mp ht with hcurrent | hcategory
    · obtain ⟨s, hs', rfl⟩ := List.mem_map.mp hcurrent
      exact h.live.of_find? (find?_current h hs hs').1
    · exact hd.valid kind t (List.mem_append_right _ hcategory)

theorem identical_exported : (a.definition.withOwn own).identical a.definition = true := by
  have hdeclarations (kind : SlotKind) :
      (a.definition.withOwn own).declarations kind = a.definition.declarations kind := by
    simp only [Definition.declarations]
    rw [Definition.effective_withOwn, Definition.effective, hown, List.map_append, List.map_append,
      List.map_map]
    refine congrArg (· ++ _) (List.map_congr_left fun s hs' => ?_)
    simp only [Function.comp_apply, a.name_current, (find?_current h hs hs').2]
  have hself {β : Type} [DecidableEq β] (l : List β) : sameMembers l l = true :=
    sameMembers_iff.mpr fun _ => Iff.rfl
  simp only [Definition.identical, hdeclarations, hself]
  simp [Definition.withOwn, Definition.signatures, hself]

end Exported

/-- A coherent definition can be loaded by anybody, and its effective set is live then. -/
theorem loadDefinition_of_coherent {d : Definition} (h : d.Coherent) (b : Agent ρ) :
    ∃ changes, (b.loadDefinition d).result = .ok changes ∧
      (b.loadDefinition d).agent.definition = d ∧
      ∀ kind, ∀ s ∈ d.effective kind,
        (b.loadDefinition d).agent.registry.find? kind s.name = some s := by
  obtain ⟨table, htable⟩ := h.exists_interface
  simp only [loadDefinition, h.validate, htable]
  refine ⟨_, rfl, rfl, ?_⟩
  intro kind s hs
  have hfind := Definition.find?_interface htable kind s.name
  rw [h.find?_of_mem hs] at hfind
  exact hfind

end Agent

namespace Session

/-- The definition of an agent and its live slots never drift apart, whatever has been done to it. The
definition passes its check; its effective set and the live slots have the same names, each once, with
the same types; and the values are of these types. So the definition can be exported. The export is
identical to it, has the own slots as they are live, and whoever loads it has these live, with the slots
of the categories as in their templates. -/
theorem definition_in_step {s : Session ρ ν} (h : s.Proper) :
    let a := s.agent
    a.definition.validate = .ok () ∧
    (∃ table, a.definition.interface = .ok table ∧ ∀ kind,
      (table.names kind).Nodup ∧ (a.registry.table.names kind).Nodup ∧
      ∀ name, a.registry.table.type? kind name = table.type? kind name) ∧
    (∀ kind, ∀ slot ∈ a.registry.table.slots kind, slot.value.type = slot.type) ∧
    ∃ d, a.exportDefinition = .ok d ∧ d.identical a.definition = true ∧
      d.categories = a.definition.categories ∧
      (∀ kind, d.own.names kind = a.definition.own.names kind) ∧
      (∀ kind, ∀ slot ∈ d.own.slots kind, a.registry.find? kind slot.name = some slot) ∧
      ∀ (ρ' : Type) (b : Agent ρ'), ∃ changes, (b.loadDefinition d).result = .ok changes ∧
        let c := (b.loadDefinition d).agent
        c.definition = d ∧
        (∀ kind, ∀ name ∈ a.definition.own.names kind,
          c.registry.find? kind name = a.registry.find? kind name) ∧
        ∀ category ∈ a.definition.categories, ∀ kind, ∀ template ∈ category.slots.slots kind,
          c.registry.find? kind template.name = some template := by
  intro a
  have hcoherent : a.Coherent := h.coherent
  have hsettled : a.Settled := h.reachable.settled
  obtain ⟨table, htable⟩ := hcoherent.declared.exists_interface
  obtain ⟨own, hexport, hown⟩ := hcoherent.exportDefinition
  have hexported := Agent.coherent_exported hcoherent hsettled hown
  have hnames (kind : SlotKind) : own.names kind = a.definition.own.names kind := by
    simp only [Interface.names, hown, List.map_map]
    exact List.map_congr_left fun s _ => a.name_current kind s
  have hlive : ∀ kind, ∀ slot ∈ own.slots kind, a.registry.find? kind slot.name = some slot := by
    intro kind slot hslot
    rw [hown] at hslot
    obtain ⟨s, hs, rfl⟩ := List.mem_map.mp hslot
    rw [a.name_current]
    exact (Agent.find?_current hcoherent hsettled hs).1
  refine ⟨hcoherent.declared.validate, ⟨table, htable, fun kind => ⟨?_, ?_, fun name => ?_⟩⟩, ?_,
    a.definition.withOwn own, hexport, Agent.identical_exported hcoherent hsettled hown, rfl, hnames,
    hlive, ?_⟩
  · exact (hcoherent.declared.sound_interface htable).distinct kind
  · exact hcoherent.live.distinct kind
  · rw [hsettled.aligned, ← Definition.find?_interface htable]
    rfl
  · exact fun kind slot hslot => (hcoherent.live.valid kind slot hslot).typed
  · intro ρ' b
    obtain ⟨changes, hresult, hdefinition, hfind⟩ := Agent.loadDefinition_of_coherent hexported b
    refine ⟨changes, hresult, hdefinition, ?_, ?_⟩
    · intro kind name hname
      rw [← hnames] at hname
      obtain ⟨slot, hslot, rfl⟩ := List.mem_map.mp hname
      rw [hlive kind slot hslot]
      exact hfind kind slot (List.mem_append_left _ hslot)
    · intro category hcategory kind template htemplate
      apply hfind
      exact List.mem_append_right _ (List.mem_flatMap.mpr ⟨category, hcategory, htemplate⟩)

def switch : Category :=
  { name := "switch", slots := { inputs := [⟨"on", .bool, .bool false, false⟩] } }

theorem sound_switch : switch.slots.Sound :=
  sound_empty.insert .input (s := ⟨"on", .bool, .bool false, false⟩) ⟨by decide, rfl⟩ rfl

/-- A lamp that has adopted a switch, was switched on and lit, and keeps that to itself. -/
def switched : Session Unit Unit :=
  performAll (fun _ _ s => s)
    [.addCategory switch,
      .createSlot .output "lit" .bool none,
      .write .input "on" (.bool true),
      .write .output "lit" (.bool true),
      .setOutputMuted "lit" true]
    (start ⟨{ config := { name := "lamp" }, definition := { name := "lamp" } }, []⟩)

theorem switched_exported :
    ∃ d, switched.agent.exportDefinition = .ok d ∧
      switched.agent.registry.read .input "on" = .ok (.bool true) ∧
      ∀ b : Agent Unit, ∃ changes, (b.loadDefinition d).result = .ok changes ∧
        (b.loadDefinition d).agent.registry.find? .output "lit" =
          some ⟨"lit", .bool, .bool true, true⟩ ∧
        (b.loadDefinition d).agent.registry.find? .input "on" =
          some ⟨"on", .bool, .bool false, false⟩ := by
  have hstart : (start ⟨{ config := { name := "lamp" }, definition := { name := "lamp" } }, []⟩ :
      Session Unit Unit).Proper := .start (p := { config := { name := "lamp" } }) (by simp) rfl
  have hproper : switched.Proper := by
    apply kept_proper.performAll (fun _ _ _ h => h) ?_ hstart
    simpa [Op.Proper] using sound_switch
  obtain ⟨_, _, _, d, hexport, _, _, _, _, hload⟩ := definition_in_step hproper
  refine ⟨d, hexport, by decide, fun b => ?_⟩
  obtain ⟨changes, hresult, _, hown, htemplates⟩ := hload Unit b
  have hlit : "lit" ∈ switched.agent.definition.own.names .output := by decide
  have hon : switch ∈ switched.agent.definition.categories := by decide
  have hlive : switched.agent.registry.find? .output "lit" = some ⟨"lit", .bool, .bool true, true⟩ := by
    decide
  refine ⟨changes, hresult, (hown .output "lit" hlit).trans hlive, ?_⟩
  exact htemplates switch hon .input ⟨"on", .bool, .bool false, false⟩ List.mem_cons_self

end Session

end Patchbay
