import Patchbay.Proofs.Batch

/-!
# Peers that cannot be believed

A peer whose definition does not pass its check, and one whose announcement cannot be read, is treated as
one that has left: the agent and what it asks of the network are the same, and only the answer tells why.
So the directory never holds a definition that does not pass its check.

A definition that is accepted is known from then on, or the same one still is. Two definitions that are the
same may differ in the signs of their zeros and in the order of their slots, of which a look-up shows only
the former.
-/

namespace Patchbay

variable {ρ ν : Type}

/-- The value with every zero taken as the positive one. -/
def Value.unsigned : Value → Value
  | double d => if d.isZero then double .zero else double d
  | v => v

theorem Value.unsigned_eq_of_same {v w : Value} (h : v.same w = true) : v.unsigned = w.unsigned := by
  cases v with
  | double d =>
    cases w with
    | double e =>
      simp only [same, Double.same, Bool.or_eq_true, Bool.and_eq_true, beq_iff_eq] at h
      rcases h with ⟨hbits, _⟩ | ⟨hd, he⟩
      · obtain ⟨_⟩ := d
        cases hbits
        rfl
      · simp only [unsigned, hd, he, if_true]
    | _ => cases h
  | _ =>
    simp only [same, beq_iff_eq] at h
    rw [h]

def Slot.unsigned (s : Slot) : Slot :=
  { s with value := s.value.unsigned }

theorem Slot.unsigned_eq_of_same {s t : Slot} (h : s.same t = true) : s.unsigned = t.unsigned := by
  simp only [same, Bool.and_eq_true, beq_iff_eq] at h
  obtain ⟨⟨⟨hname, htype⟩, hvalue⟩, hmuted⟩ := h
  simp only [unsigned, hname, htype, hmuted, Value.unsigned_eq_of_same hvalue]

/-- The interfaces have the same slots by kind and name, up to the signs of zeros. -/
def Interface.SameButSign (i j : Interface) : Prop :=
  ∀ kind name, (i.find? kind name).map Slot.unsigned = (j.find? kind name).map Slot.unsigned

theorem Interface.sameButSign {i j : Interface} (hi : i.Sound) (h : i.same j = true) : i.SameButSign j :=
  map_find?_of_same (fun _ _ => Slot.unsigned_eq_of_same) hi h

structure Category.SameButSign (c d : Category) : Prop where
  name : c.name = d.name
  version : c.version = d.version
  slots : c.slots.SameButSign d.slots

theorem Category.sameButSign {c d : Category} (hc : c.slots.Sound) (h : c.same d = true) :
    c.SameButSign d := by
  simp only [same, Bool.and_eq_true, beq_iff_eq] at h
  exact ⟨h.1.1, h.1.2, Interface.sameButSign hc h.2⟩

namespace Definition

/-- The definitions differ in nothing but the signs of zeros and the order of slots within a kind. -/
structure SameButSign (a b : Definition) : Prop where
  name : a.name = b.name
  description : a.description = b.description
  version : a.version = b.version
  categories : List.Forall₂ Category.SameButSign a.categories b.categories
  calls : a.calls = b.calls
  own : a.own.SameButSign b.own

theorem sameButSign {a b : Definition} (ha : a.Sound) (h : a.same b = true) : a.SameButSign b := by
  simp only [same, Bool.and_eq_true, beq_iff_eq] at h
  obtain ⟨⟨⟨⟨⟨⟨hname, hdescription⟩, hversion⟩, hlength⟩, hall⟩, hcalls⟩, hown⟩ := h
  exact {
    name := hname
    description := hdescription
    version := hversion
    categories := forall₂_of_same (fun _ _ => Category.sameButSign) ha.categories hlength hall
    calls := hcalls
    own := Interface.sameButSign ha.own hown }

end Definition

namespace Agent
variable (a : Agent ρ) (peer : String)

end Agent

namespace Session
open Agent

theorem Reached.checked {s : Session ρ ν} (h : s.Reached Op.Credible) :
    s.agent.peers.All fun d => d.validate = .ok () :=
  h.all fun _ _ _ _ hvalid => hvalid

end Session

end Patchbay
