import Patchbay.Proofs.Export
import Patchbay.Proofs.Views

/-!
# Editing definitions

A definition is edited a step at a time, and every step has a check of its own, which looks only at what
it adds. The check of a definition as a whole agrees with all of them: it never fails on what is left, and
an addition is refused only if it would fail on what came of it. So it does not matter in which order slots
and categories come.
-/

namespace Patchbay
open Interface

inductive Edit
  | addSlot (kind : SlotKind) (s : Slot)
  | removeSlot (kind : SlotKind) (name : String)
  | addCategory (c : Category)
  | addCall (c : Call)
  | removeCall (name : String)
  | addArgument (call argument : String) (type : ValueType)
  | removeArgument (call argument : String)

namespace Edit

def outcome (d : Definition) : Edit → Except Fault Definition
  | addSlot kind s => d.addSlot kind s
  | removeSlot kind name => (d.removeSlot kind name).map (·.2)
  | addCategory c => d.addCategory c
  | addCall c => d.addCall c
  | removeCall name => (d.removeCall name).map (·.2)
  | addArgument call argument type => d.addArgument call argument type
  | removeArgument call argument => d.removeArgument call argument

/-- The slots that are added, one by one or as a category, were put together by declaring them. A call may
be any, as one that is read without a check. -/
def Sound : Edit → Prop
  | addSlot _ s => s.Valid
  | addCategory c => c.slots.Sound
  | _ => True

end Edit

namespace Definition

/-- The definition after an edit, which is as it was if the edit is refused. -/
def edit (d : Definition) (e : Edit) : Definition :=
  match e.outcome d with
  | .ok after => after
  | .error _ => d

def editAll (d : Definition) (edits : List Edit) : Definition :=
  edits.foldl edit d

/-- The definition is one to start from: a new one, or one that is read. -/
def Given (d : Definition) : Prop :=
  (∃ name, new name = .ok d) ∨ ∃ text, ofText text = .ok d

theorem Given.coherent {d : Definition} (h : d.Given) : d.Coherent := by
  rcases h with ⟨name, hnew⟩ | ⟨text, hread⟩
  · obtain rfl := new_eq_ok hnew
    refine coherent_bare ?_
    simp only [new] at hnew
    split at hnew
    · assumption
    · cases hnew
  · exact coherent_of_ofText hread

section Step
variable {d after : Definition} {e : Edit}

theorem Coherent.outcome (h : d.Coherent) (he : e.Sound) (hout : e.outcome d = .ok after) :
    after.Coherent := by
  cases e with
  | addSlot kind s => exact h.addSlot he hout
  | removeSlot kind name =>
    obtain ⟨removed, hremove, rfl⟩ := of_map_eq_ok hout
    exact h.removeSlot hremove
  | addCategory c => exact h.addCategory he hout
  | addCall c => exact h.addCall hout
  | removeCall name =>
    obtain ⟨removed, hremove, rfl⟩ := of_map_eq_ok hout
    exact h.removeCall hremove
  | addArgument call argument type => exact h.addArgument hout
  | removeArgument call argument => exact h.removeArgument hout

/-- An edit adds or takes out a slot, adopts a category, or is about calls only. -/
theorem outcome_cases (hout : e.outcome d = .ok after) :
    (∃ kind s, e = .addSlot kind s ∧ d.addSlot kind s = .ok after) ∨
    (∃ kind name s, e = .removeSlot kind name ∧ d.removeSlot kind name = .ok (s, after)) ∨
    (∃ c, e = .addCategory c ∧ d.addCategory c = .ok after) ∨
    ∃ calls, after = { d with calls } := by
  cases e with
  | addSlot kind s => exact .inl ⟨kind, s, rfl, hout⟩
  | removeSlot kind name =>
    obtain ⟨⟨s, _⟩, hremove, rfl⟩ := of_map_eq_ok hout
    exact .inr (.inl ⟨kind, name, s, rfl, hremove⟩)
  | addCategory c => exact .inr (.inr (.inl ⟨c, rfl, hout⟩))
  | addCall c => exact .inr (.inr (.inr ⟨_, (addCall_eq_ok hout).2.2⟩))
  | removeCall name =>
    obtain ⟨removed, hremove, rfl⟩ := of_map_eq_ok hout
    simp only [removeCall] at hremove
    split at hremove
    · cases hremove
      exact .inr (.inr (.inr ⟨_, rfl⟩))
    · cases hremove
  | addArgument | removeArgument => exact .inr (.inr (.inr (Agent.updateCall_eq_ok hout)))

/-- Categories are added at the end and never taken away. -/
theorem categories_of_outcome (hout : e.outcome d = .ok after) : d.categories <+: after.categories := by
  rcases outcome_cases hout with ⟨kind, s, _, hadd⟩ | ⟨kind, name, s, _, hremove⟩ | ⟨c, _, hadd⟩ |
    ⟨calls, rfl⟩
  · simp only [addSlot] at hadd
    split at hadd
    · cases hadd
    · obtain ⟨own, _, rfl⟩ := of_map_eq_ok hadd
      exact List.prefix_refl _
  · simp only [removeSlot] at hremove
    split at hremove
    · cases hremove
    · obtain ⟨left, _, heq⟩ := of_map_eq_ok hremove
      cases heq
      exact List.prefix_refl _
  · obtain ⟨_, rfl⟩ := addCategory_eq_ok hadd
    exact List.prefix_append _ _
  · exact List.prefix_refl _

theorem Coherent.edit (h : d.Coherent) (he : e.Sound) : (d.edit e).Coherent := by
  simp only [Definition.edit]
  split
  · exact h.outcome he ‹_›
  · exact h

theorem categories_edit (d : Definition) (e : Edit) : d.categories <+: (d.edit e).categories := by
  simp only [edit]
  split
  · exact categories_of_outcome ‹_›
  · exact List.prefix_refl _

theorem Coherent.editAll {edits : List Edit} (h : d.Coherent) (hedits : ∀ e ∈ edits, e.Sound) :
    (d.editAll edits).Coherent := by
  induction edits generalizing d with
  | nil => exact h
  | cons e rest ih =>
    obtain ⟨he, hrest⟩ := List.forall_mem_cons.mp hedits
    exact ih (h.edit he) hrest

theorem categories_editAll (d : Definition) (edits : List Edit) :
    d.categories <+: (d.editAll edits).categories := by
  induction edits generalizing d with
  | nil => exact List.prefix_refl _
  | cons e rest ih => exact (categories_edit d e).trans (ih (d.edit e))

end Step

section Acceptance
variable {d : Definition}

theorem exists_addSlot_iff {kind : SlotKind} {s : Slot} :
    (∃ after, d.addSlot kind s = .ok after) ↔ s.name ∉ (d.effective kind).map (·.name) := by
  rw [mem_names_iff, Option.not_isSome_iff_eq_none]
  constructor
  · rintro ⟨after, hadd⟩
    exact find?_eq_none_of_addSlot hadd
  · intro hnone
    rw [find?_eq_or, Option.or_eq_none_iff, List.findSome?_eq_none_iff] at hnone
    obtain ⟨hown, hcategories⟩ := hnone
    have hfree : d.contributor? kind s.name = none := by
      refine Option.map_eq_none_iff.mpr (List.find?_eq_none.mpr fun c hc => ?_)
      exact Bool.eq_false_iff.mp (find?_eq_none_iff.mp (hcategories c hc))
    have hnew : s.name ∉ d.own.names kind := fun hmem =>
      Bool.eq_false_iff.mp (find?_eq_none_iff.mp hown) (contains_iff_mem_names.mpr hmem)
    obtain ⟨own, _, hadd⟩ := addSlot_of_new hfree hnew
    exact ⟨_, hadd⟩

/-- A category is adopted if the definition passes its check with it. -/
theorem Coherent.exists_addCategory_iff (h : d.Coherent) {c : Category} (hc : c.slots.Sound) :
    (∃ after, d.addCategory c = .ok after) ↔
      ({ d with categories := d.categories ++ [c] } : Definition).validate = .ok () := by
  constructor
  · rintro ⟨after, hadd⟩
    rw [← (addCategory_eq_ok hadd).2]
    exact (h.addCategory hc hadd).validate
  · intro hvalid
    have hsound : ({ d with categories := d.categories ++ [c] } : Definition).Sound := by
      refine ⟨h.sound.own, fun other hother => ?_⟩
      rcases List.mem_append.mp hother with hold | hnew
      · exact h.sound.categories other hold
      · exact List.mem_singleton.mp hnew ▸ hc
    have hwith := (validate_eq_ok_iff hsound).mp hvalid
    refine ⟨_, addCategory_of_new (any_eq_false_of_nodup hwith.categories List.mem_cons_self) ?_⟩
    intro kind s hs
    rw [← Option.not_isSome_iff_eq_none, ← mem_names_iff]
    exact not_mem_map_of_nodup (effective_snoc d c kind ▸ hwith.names kind) hs

/-- A call is declared if the definition passes its check with it. -/
theorem Coherent.exists_addCall_iff (h : d.Coherent) {c : Call} :
    (∃ after, d.addCall c = .ok after) ↔
      ({ d with calls := d.calls ++ [c] } : Definition).validate = .ok () := by
  constructor
  · rintro ⟨after, hadd⟩
    rw [← (addCall_eq_ok hadd).2.2]
    exact (h.addCall hadd).validate
  · intro hvalid
    have hsound : ({ d with calls := d.calls ++ [c] } : Definition).Sound :=
      ⟨h.sound.own, h.sound.categories⟩
    have hwith := (validate_eq_ok_iff hsound).mp hvalid
    have hcheck : c.check = .ok () := hwith.calls c (List.mem_append_right _ List.mem_cons_self)
    have hfree : d.hasCall c.name = false := any_eq_false_of_nodup hwith.callNames List.mem_cons_self
    simp only [Definition.addCall, hcheck, hfree, Bool.false_eq_true, if_false]
    exact ⟨_, rfl⟩

end Acceptance

section Member
variable {d : Definition} (h : d.Coherent) {c : Category} (hc : c ∈ d.categories) {kind : SlotKind}
  {s : Slot} (hs : s ∈ c.slots.slots kind)
include h hc hs

/-- A slot of a category is a slot of no other. -/
theorem Coherent.contributor?_eq : d.contributor? kind s.name = some c.name := by
  have hcontains : c.slots.contains kind s.name = true :=
    contains_iff_mem_names.mpr (List.mem_map_of_mem hs)
  rw [contributor?_eq_head?, (filter_contains (h.names kind) hc hcontains).1]
  rfl

theorem Coherent.removeSlot_member :
    d.removeSlot kind s.name = .error (.malformed (.contributed kind s.name c.name)) := by
  simp only [Definition.removeSlot, h.contributor?_eq hc hs]

theorem Coherent.find?_member_editAll {edits : List Edit} (hedits : ∀ e ∈ edits, e.Sound) :
    (d.editAll edits).find? kind s.name = some s := by
  have hkept : c ∈ (d.editAll edits).categories := (categories_editAll d edits).subset hc
  exact (h.editAll hedits).find?_of_mem
    (List.mem_append_right _ (List.mem_flatMap.mpr ⟨c, hkept, hs⟩))

end Member

/-- A definition that is new or read passes its check after any edits, and has no name twice in a kind. A
refused edit leaves it as it is, and no addition is refused but for what the check would refuse. No slot of
a category that is adopted can be taken out, then or after any further edits. -/
theorem edited_valid {d : Definition} (hd : d.Given) {edits : List Edit} (hedits : ∀ e ∈ edits, e.Sound) :
    let t := d.editAll edits
    t.validate = .ok () ∧
    (∀ kind, ((t.effective kind).map (·.name)).Nodup) ∧
    (∀ e fault, e.outcome t = .error fault → t.edit e = t) ∧
    (∀ kind s, (∃ after, t.addSlot kind s = .ok after) ↔ s.name ∉ (t.effective kind).map (·.name)) ∧
    (∀ c : Category, c.slots.Sound → ((∃ after, t.addCategory c = .ok after) ↔
      ({ t with categories := t.categories ++ [c] } : Definition).validate = .ok ())) ∧
    (∀ c, (∃ after, t.addCall c = .ok after) ↔
      ({ t with calls := t.calls ++ [c] } : Definition).validate = .ok ()) ∧
    ∀ c ∈ t.categories, ∀ kind, ∀ s ∈ c.slots.slots kind, ∀ later, (∀ e ∈ later, e.Sound) →
      (t.editAll later).removeSlot kind s.name = .error (.malformed (.contributed kind s.name c.name)) ∧
      (t.editAll later).find? kind s.name = some s := by
  intro t
  have ht : t.Coherent := hd.coherent.editAll hedits
  refine ⟨ht.validate, ht.names, ?_, fun kind s => exists_addSlot_iff,
    fun c hc => ht.exists_addCategory_iff hc, fun c => ht.exists_addCall_iff, ?_⟩
  · intro e fault hrefused
    simp only [edit, hrefused]
  · intro c hc kind s hs later hlater
    have hkept := (categories_editAll t later).subset hc
    exact ⟨(ht.editAll hlater).removeSlot_member hkept hs, ht.find?_member_editAll hc hs hlater⟩

/-- A lamp adopts a switch and goes on as if it had not, and declares a call that has an argument twice
before it declares it right. -/
def fitting : List Edit :=
  [.addCategory Session.switch,
    .addSlot .input ⟨"on", .bool, .bool false, false⟩,
    .addSlot .output ⟨"lit", .bool, .bool false, false⟩,
    .addCall { name := "dim", arguments := [⟨"to", .integer⟩, ⟨"to", .integer⟩] },
    .addCall { name := "dim" },
    .addArgument "dim" "to" .integer,
    .removeSlot .input "on"]

def fitted : Definition :=
  { name := "lamp"
    categories := [Session.switch]
    calls := [{ name := "dim", arguments := [⟨"to", .integer⟩] }]
    own := { outputs := [⟨"lit", .bool, .bool false, false⟩] } }

theorem lamp_fitted :
    ({ name := "lamp" } : Definition).Given ∧ (∀ e ∈ fitting, e.Sound) ∧
      editAll { name := "lamp" } fitting = fitted ∧ fitted.validate = .ok () ∧
      fitted.removeSlot .input "on" = .error (.malformed (.contributed .input "on" "switch")) := by
  have hgiven : ({ name := "lamp" } : Definition).Given := .inl ⟨"lamp", by decide⟩
  have hsound : ∀ e ∈ fitting, e.Sound := by
    have hslot (name : String) (hname : Text.isBlank name = false) :
        (⟨name, .bool, .bool false, false⟩ : Slot).Valid := ⟨hname, rfl⟩
    simpa [fitting, Edit.Sound] using
      ⟨Session.sound_switch, hslot "on" (by decide), hslot "lit" (by decide)⟩
  have hfitted : editAll { name := "lamp" } fitting = fitted := by decide
  obtain ⟨hvalid, _, _, _, _, _, hmember⟩ := edited_valid hgiven hsound
  rw [hfitted] at hvalid hmember
  have hon := hmember Session.switch List.mem_cons_self .input ⟨"on", .bool, .bool false, false⟩
    List.mem_cons_self [] fun e he => absurd he List.not_mem_nil
  exact ⟨hgiven, hsound, hfitted, hvalid, hon.1⟩

end Definition

end Patchbay
