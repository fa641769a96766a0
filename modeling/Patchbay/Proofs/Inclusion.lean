import Patchbay.Proofs.Akin
import Patchbay.Proofs.Editing

/-!
# Satisfaction as inclusion

A definition that passes its check satisfies a category if and only if what the category declares is among
what the definition declares, by kind, name and type. The check looks names up in the definition's own
slots and then in its categories, and only because no name comes up twice is that the same. So satisfaction
outlives whatever is added, and does not tell definitions apart that declare the same.
-/

namespace Patchbay
open Interface

namespace Interface

/-- The slots of a kind by name and type. -/
def declarations (i : Interface) (kind : SlotKind) : List (String × ValueType) :=
  (i.slots kind).map fun s => (s.name, s.type)

theorem mem_declarations {i : Interface} {kind : SlotKind} {name : String} {type : ValueType} :
    (name, type) ∈ i.declarations kind ↔ ∃ s ∈ i.slots kind, s.name = name ∧ s.type = type := by
  simp only [declarations, List.mem_map, Prod.mk.injEq]

theorem declarations_subset_iff {i : Interface} {kind : SlotKind} {l : List (String × ValueType)} :
    i.declarations kind ⊆ l ↔ ∀ s ∈ i.slots kind, (s.name, s.type) ∈ l :=
  List.forall_mem_map

end Interface

/-- The edit takes no slot out. -/
def Edit.Keeping : Edit → Prop
  | removeSlot _ _ => False
  | _ => True

namespace Definition

section Look
variable {d : Definition} {kind : SlotKind} {name : String} {s : Slot}

theorem find?_outcome {e : Edit} {after : Definition} (he : e.Keeping) (hout : e.outcome d = .ok after)
    (hs : d.find? kind name = some s) : after.find? kind name = some s := by
  rcases outcome_cases hout with ⟨k, t, _, hadd⟩ | ⟨k, n, t, rfl, _⟩ | ⟨c, _, hadd⟩ | ⟨calls, rfl⟩
  · have hnew : d.find? k t.name = none := find?_eq_none_of_addSlot hadd
    rw [find?_addSlot hadd, if_neg, hs]
    rintro ⟨rfl, rfl⟩
    rw [hs] at hnew
    cases hnew
  · exact he.elim
  · rw [find?_addCategory hadd, hs, Option.some_or]
  · exact hs

theorem find?_edit {e : Edit} (he : e.Keeping) (hs : d.find? kind name = some s) :
    (d.edit e).find? kind name = some s := by
  simp only [edit]
  split
  · exact find?_outcome he ‹_› hs
  · exact hs

/-- What is there stays there as long as nothing is taken out. -/
theorem find?_editAll {edits : List Edit} (hedits : ∀ e ∈ edits, e.Keeping)
    (hs : d.find? kind name = some s) : (d.editAll edits).find? kind name = some s := by
  induction edits generalizing d with
  | nil => exact hs
  | cons e rest ih =>
    obtain ⟨he, hrest⟩ := List.forall_mem_cons.mp hedits
    exact ih hrest (find?_edit he hs)

end Look

section Satisfaction
variable {d other : Definition} {c : Category} {scope : Scope}

theorem satisfies_editAll {edits : List Edit} (hedits : ∀ e ∈ edits, e.Keeping)
    (h : d.satisfies c scope = true) : (d.editAll edits).satisfies c scope = true := by
  rw [satisfies_iff] at h ⊢
  intro kind hkind t ht
  obtain ⟨s, hs, htype⟩ := Option.map_eq_some_iff.mp (h kind hkind t ht)
  rw [find?_editAll hedits hs, Option.map_some, htype]

theorem Coherent.mem_declarations_iff (h : d.Coherent) {kind : SlotKind} {name : String}
    {type : ValueType} :
    (name, type) ∈ d.declarations kind ↔ (d.find? kind name).map (·.type) = some type := by
  simp only [Definition.declarations, List.mem_map, Prod.mk.injEq, Option.map_eq_some_iff]
  constructor
  · rintro ⟨s, hs, rfl, htype⟩
    exact ⟨s, h.find?_of_mem hs, htype⟩
  · rintro ⟨s, hs, htype⟩
    have hname := name_of_find? hs
    rw [find?_eq_effective] at hs
    exact ⟨s, List.mem_of_find?_eq_some hs, hname, htype⟩

theorem Coherent.satisfies_iff_subset (h : d.Coherent) : d.satisfies c scope = true ↔
    ∀ kind ∈ scope.kinds, c.slots.declarations kind ⊆ d.declarations kind := by
  rw [satisfies_iff]
  refine forall₂_congr fun kind _ => ?_
  rw [declarations_subset_iff]
  exact forall₂_congr fun t _ => h.mem_declarations_iff.symm

theorem Coherent.satisfies_of_mem (h : d.Coherent) (hc : c ∈ d.categories) :
    d.satisfies c scope = true := by
  rw [satisfies_iff]
  intro kind _ t ht
  rw [h.find?_of_mem (List.mem_append_right _ (List.mem_flatMap.mpr ⟨c, hc, ht⟩)), Option.map_some]

theorem declarations_interface {table : Interface} (h : d.interface = .ok table) (kind : SlotKind) :
    table.declarations kind = d.declarations kind := by
  rw [Interface.declarations, slots_interface h, Definition.declarations]

theorem Coherent.satisfies_mono (h : d.Coherent) (hother : other.Coherent)
    (hmore : ∀ kind ∈ scope.kinds, d.declarations kind ⊆ other.declarations kind)
    (hsat : d.satisfies c scope = true) : other.satisfies c scope = true := by
  rw [h.satisfies_iff_subset] at hsat
  rw [hother.satisfies_iff_subset]
  exact fun kind hkind => List.Subset.trans (hsat kind hkind) (hmore kind hkind)

theorem Coherent.satisfies_congr (h : d.Coherent) (hother : other.Coherent) {c' : Category}
    (hd : ∀ kind ∈ scope.kinds, ∀ x, x ∈ d.declarations kind ↔ x ∈ other.declarations kind)
    (hc : ∀ kind ∈ scope.kinds, ∀ x, x ∈ c.slots.declarations kind ↔ x ∈ c'.slots.declarations kind) :
    d.satisfies c scope = other.satisfies c' scope := by
  rw [Bool.eq_iff_iff, h.satisfies_iff_subset, hother.satisfies_iff_subset]
  refine forall₂_congr fun kind hkind => forall_congr' fun x => ?_
  rw [hc kind hkind, hd kind hkind]

theorem declarations_of_identical (h : d.identical other = true) (kind : SlotKind)
    (x : String × ValueType) : x ∈ d.declarations kind ↔ x ∈ other.declarations kind := by
  simp only [identical, Bool.and_eq_true, List.all_eq_true] at h
  exact sameMembers_iff.mp (h.2 kind (SlotKind.mem_all kind)) x

/-- Identical definitions that pass their checks show the same types under every name. -/
theorem Coherent.types_of_identical (h : d.Coherent) (hother : other.Coherent)
    (hsame : d.identical other = true) (kind : SlotKind) (name : String) :
    (d.find? kind name).map (·.type) = (other.find? kind name).map (·.type) := by
  apply Option.ext
  intro type
  rw [← h.mem_declarations_iff, ← hother.mem_declarations_iff]
  exact declarations_of_identical hsame kind (name, type)

end Satisfaction

/-- A definition that passes its check satisfies a category in a scope if the table of its effective set has
every template of the scope by kind, name and type. It satisfies the categories it adopts, and goes on to
satisfy what it did as slots and categories are added. Definitions that declare the same names and types
satisfy the same categories, whatever their versions, values and mute flags and wherever and in whatever
order they declare them; identical definitions are such. -/
theorem satisfaction_is_inclusion {d : Definition} (hd : d.Sound) (hvalid : d.validate = .ok ()) :
    (∃ table, d.interface = .ok table ∧ ∀ (c : Category) (scope : Scope),
      (d.satisfies c scope = true ↔ ∀ kind ∈ scope.kinds, ∀ template ∈ c.slots.slots kind,
        ∃ s ∈ table.slots kind, s.name = template.name ∧ s.type = template.type)) ∧
    (∀ c ∈ d.categories, ∀ scope, d.satisfies c scope = true) ∧
    (∀ edits, (∀ e ∈ edits, e.Keeping) → ∀ c scope,
      d.satisfies c scope = true → (d.editAll edits).satisfies c scope = true) ∧
    ∀ other : Definition, other.Sound → other.validate = .ok () →
      (∀ c scope, (∀ kind ∈ scope.kinds, d.declarations kind ⊆ other.declarations kind) →
        d.satisfies c scope = true → other.satisfies c scope = true) ∧
      (∀ c c' scope,
        (∀ kind ∈ scope.kinds, ∀ x, x ∈ d.declarations kind ↔ x ∈ other.declarations kind) →
        (∀ kind ∈ scope.kinds, ∀ x, x ∈ c.slots.declarations kind ↔ x ∈ c'.slots.declarations kind) →
        d.satisfies c scope = other.satisfies c' scope) ∧
      (d.identical other = true → ∀ c scope, d.satisfies c scope = other.satisfies c scope) := by
  have h : d.Coherent := (validate_eq_ok_iff hd).mp hvalid
  obtain ⟨table, htable⟩ := h.exists_interface
  refine ⟨⟨table, htable, fun c scope => ?_⟩, fun c hc scope => h.satisfies_of_mem hc,
    fun edits hedits c scope => satisfies_editAll hedits, fun other hother hvalid => ?_⟩
  · rw [h.satisfies_iff_subset]
    refine forall₂_congr fun kind _ => ?_
    rw [← declarations_interface htable, declarations_subset_iff]
    exact forall₂_congr fun t _ => mem_declarations
  · have hother : other.Coherent := (validate_eq_ok_iff hother).mp hvalid
    refine ⟨fun c scope => h.satisfies_mono hother, fun c c' scope => h.satisfies_congr hother, ?_⟩
    intro hsame c scope
    exact h.satisfies_congr hother (fun kind _ => declarations_of_identical hsame kind)
      fun _ _ _ => Iff.rfl

/-- A lamp that has its input from a category. -/
def adopting : Definition :=
  { name := "lamp"
    categories := [Session.switch]
    own := { outputs := [⟨"level", .integer, .integer 7, false⟩, ⟨"lit", .bool, .bool false, true⟩] } }

/-- The same lamp, for anybody who only sees names and types. -/
def standalone : Definition :=
  { name := "lamp"
    description := "declares everything itself"
    own :=
      { inputs := [⟨"on", .bool, .bool true, true⟩]
        outputs := [⟨"lit", .bool, .bool true, false⟩, ⟨"level", .integer, .integer 0, false⟩] } }

def warming : List Edit :=
  [.addSlot .parameter ⟨"warmth", .integer, .integer 0, false⟩]

theorem standalone_satisfies_switch :
    adopting.Sound ∧ adopting.validate = .ok () ∧ standalone.Sound ∧ standalone.validate = .ok () ∧
      adopting.identical standalone = true ∧ (∀ e ∈ warming, e.Keeping) ∧
      (∀ scope, standalone.satisfies Session.switch scope = true) ∧
      ∀ scope, (adopting.editAll warming).satisfies Session.switch scope = true := by
  have hd : adopting.Sound := sound_of_ofJson (by rfl : ofJson .direct adopting.toJson = .ok adopting)
  have hother : standalone.Sound := sound_of_ofJson (by rfl : ofJson .direct standalone.toJson = .ok standalone)
  have hvalid : adopting.validate = .ok () := by rfl
  have hother' : standalone.validate = .ok () := by rfl
  have hsame : adopting.identical standalone = true := by decide
  have hkeeping : ∀ e ∈ warming, e.Keeping := List.forall_mem_singleton.mpr trivial
  obtain ⟨_, hmember, hedits, hothers⟩ := satisfaction_is_inclusion hd hvalid
  have hswitch := hmember Session.switch List.mem_cons_self
  refine ⟨hd, hvalid, hother, hother', hsame, hkeeping, fun scope => ?_, fun scope => ?_⟩
  · rw [← (hothers standalone hother hother').2.2 hsame]
    exact hswitch scope
  · exact hedits _ hkeeping _ scope (hswitch scope)

end Definition

end Patchbay
