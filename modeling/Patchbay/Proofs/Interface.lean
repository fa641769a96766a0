import Mathlib.Data.List.Basic
import Patchbay.Definition.Basic

/-!
# Looking slots up

What every operation on an interface or a definition does to the slot that a kind and a name lead to.
The effective set of a definition is looked up in its own slots and then in those of its categories;
where it is an interface of its own, that interface gives the same slots.
-/

namespace Patchbay

theorem of_bind_eq_ok {ε α β : Type} {x : Except ε α} {f : α → Except ε β} {b : β}
    (h : x >>= f = .ok b) : ∃ a, x = .ok a ∧ f a = .ok b := by
  cases x with
  | error fault => cases h
  | ok a => exact ⟨a, rfl, h⟩

theorem of_map_eq_ok {ε α β : Type} {x : Except ε α} {f : α → β} {b : β}
    (h : x.map f = .ok b) : ∃ a, x = .ok a ∧ f a = b := by
  cases x with
  | error fault => cases h
  | ok a => exact ⟨a, rfl, Except.ok.inj h⟩

/-- A list whose members go by distinct names takes one more, if no member goes by its name. -/
theorem nodup_map_snoc {α β : Type} [DecidableEq β] {f : α → β} {l : List α} {x : α}
    (h : (l.map f).Nodup) (hnew : (l.any fun y => f y == f x) = false) : ((l ++ [x]).map f).Nodup := by
  rw [List.map_append, List.nodup_append]
  refine ⟨h, List.pairwise_singleton _ _, ?_⟩
  intro a ha b hb hab
  obtain ⟨y, hy, rfl⟩ := List.mem_map.mp ha
  rw [List.map_singleton, List.mem_singleton] at hb
  exact List.any_eq_false.mp hnew y hy (beq_iff_eq.mpr (hab.trans hb))

theorem not_mem_map_of_nodup {α β : Type} {f : α → β} {xs ys : List α} (h : ((xs ++ ys).map f).Nodup)
    {y : α} (hy : y ∈ ys) : f y ∉ xs.map f := by
  rw [List.map_append, List.nodup_append] at h
  exact fun hmem => h.2.2 (f y) hmem (f y) (List.mem_map_of_mem hy) rfl

/-- Of members with distinct names, none goes by the name of a later one. -/
theorem any_eq_false_of_nodup {α β : Type} [DecidableEq β] {f : α → β} {xs ys : List α}
    (h : ((xs ++ ys).map f).Nodup) {y : α} (hy : y ∈ ys) :
    (xs.any fun x => f x == f y) = false := by
  apply List.any_eq_false.mpr
  intro x hx heq
  exact not_mem_map_of_nodup h hy (beq_iff_eq.mp heq ▸ List.mem_map_of_mem hx)

namespace Interface

/-- The declared type of a slot. -/
def type? (i : Interface) (kind : SlotKind) (name : String) : Option ValueType :=
  (i.find? kind name).map (·.type)

theorem find?_withSlots (i : Interface) (kind k : SlotKind) (ss : List Slot) (n : String) :
    (i.withSlots kind ss).find? k n =
      if k = kind then ss.find? (·.name == n) else i.find? k n := by
  simp only [find?]
  split
  · rename_i hk
    rw [hk, slots_withSlots_self]
  · rename_i hk
    rw [slots_withSlots_of_ne hk]

theorem find?_eq_none_iff {i : Interface} {kind : SlotKind} {name : String} :
    i.find? kind name = none ↔ i.contains kind name = false := by
  rw [contains_eq_isSome_find?, Option.isSome_eq_false_iff, Option.isNone_iff_eq_none]

theorem name_of_find? {i : Interface} {kind : SlotKind} {name : String} {s : Slot}
    (h : i.find? kind name = some s) : s.name = name := by
  have hname : (s.name == name) = true := List.find?_some (p := fun t : Slot => t.name == name) h
  exact beq_iff_eq.mp hname

theorem find?_append (i : Interface) (kind k : SlotKind) (s : Slot) (n : String)
    (h : i.contains kind s.name = false) :
    (i.withSlots kind (i.slots kind ++ [s])).find? k n =
      if k = kind ∧ n = s.name then some s else i.find? k n := by
  rw [find?_withSlots]
  by_cases hk : k = kind
  · subst hk
    rw [if_pos rfl, List.find?_append]
    by_cases hn : n = s.name
    · subst hn
      have hold : (i.slots k).find? (·.name == s.name) = none := find?_eq_none_iff.mpr h
      simp [hold]
    · have hnew : [s].find? (·.name == n) = none := by
        simpa using fun he => hn he.symm
      simp only [hnew, Option.or_none, hn, and_false, if_false]
      rfl
  · simp [hk]

theorem insert_eq_ok {i after : Interface} {kind : SlotKind} {s : Slot}
    (h : i.insert kind s = .ok after) :
    i.contains kind s.name = false ∧ after = i.withSlots kind (i.slots kind ++ [s]) := by
  simp only [insert] at h
  split at h
  · cases h
  · rename_i hfree
    cases h
    exact ⟨Bool.eq_false_iff.mpr hfree, rfl⟩

theorem find?_insert {i after : Interface} {kind : SlotKind} {s : Slot}
    (h : i.insert kind s = .ok after) (k : SlotKind) (n : String) :
    after.find? k n = if k = kind ∧ n = s.name then some s else i.find? k n := by
  obtain ⟨hfree, rfl⟩ := insert_eq_ok h
  exact find?_append i kind k s n hfree

theorem find?_erase (i : Interface) (kind k : SlotKind) (name n : String) :
    (i.erase kind name).find? k n = if k = kind ∧ n = name then none else i.find? k n := by
  simp only [erase]
  rw [find?_withSlots]
  by_cases hk : k = kind
  · subst hk
    by_cases hn : n = name
    · subst hn
      simp
    · have hsame : (fun s : Slot => decide ((s.name != name) = true ∧ (s.name == n) = true)) =
          fun s => s.name == n := by
        funext s
        by_cases hs : s.name = n
        · simp [hs, hn]
        · simp [hs]
      simp only [if_true, List.find?_filter, hn, and_false, if_false]
      exact congrArg (fun p => List.find? p (i.slots k)) hsame
  · simp [hk]

/-- Taking out the slot declared last gives back what was there before it. -/
theorem erase_append {i : Interface} {kind : SlotKind} {s : Slot}
    (h : i.contains kind s.name = false) :
    (i.withSlots kind (i.slots kind ++ [s])).erase kind s.name = i := by
  have hold : (i.slots kind).filter (·.name != s.name) = i.slots kind := by
    refine List.filter_eq_self.mpr fun t ht => ?_
    have hne := List.any_eq_false.mp h t ht
    simpa using hne
  simp only [erase]
  rw [slots_withSlots_self, List.filter_append, hold]
  cases kind <;> simp [withSlots, slots]

theorem find?_replace (i : Interface) (kind k : SlotKind) (t : Slot) (n : String) :
    (i.replace kind t).find? k n =
      if k = kind ∧ n = t.name then (i.find? k n).map fun _ => t else i.find? k n := by
  simp only [replace]
  rw [find?_withSlots]
  by_cases hk : k = kind
  · subst hk
    simp only [if_true, true_and]
    simp only [find?]
    induction i.slots k with
    | nil => simp
    | cons s rest ih =>
      rw [List.map_cons, List.find?_cons, List.find?_cons, ih]
      by_cases hs : s.name = t.name
      · by_cases hn : n = t.name
        · simp [hs, hn]
        · have hne : (t.name == n) = false := beq_eq_false_iff_ne.mpr (Ne.symm hn)
          simp [hs, hn, hne]
      · by_cases hn : n = t.name
        · have hne : (s.name == t.name) = false := beq_eq_false_iff_ne.mpr hs
          simp [hn, hne]
        · simp [hs, hn]
  · simp [hk]

theorem find?_of_get {i : Interface} {kind : SlotKind} {name : String} {s : Slot}
    (h : i.get kind name = .ok s) : i.find? kind name = some s := by
  simp only [get] at h
  split at h
  · rename_i hs
    cases h
    exact hs
  · cases h

theorem update_eq_ok {i after : Interface} {kind : SlotKind} {name : String}
    {change : Slot → Except Fault Slot} {t : Slot} (h : i.update kind name change = .ok (t, after)) :
    ∃ s, i.find? kind name = some s ∧ change s = .ok t ∧ after = i.replace kind t := by
  obtain ⟨s, hget, h⟩ := of_bind_eq_ok h
  obtain ⟨u, hchange, h⟩ := of_bind_eq_ok h
  cases h
  exact ⟨s, find?_of_get hget, hchange, rfl⟩

theorem remove_eq_ok {i after : Interface} {kind : SlotKind} {name : String} {s : Slot}
    (h : i.remove kind name = .ok (s, after)) :
    i.find? kind name = some s ∧ after = i.erase kind name := by
  obtain ⟨t, hget, heq⟩ := of_map_eq_ok h
  cases heq
  exact ⟨find?_of_get hget, rfl⟩

/-- The slot that a list of slots with their kinds holds first for a kind and a name. -/
def findIn (ts : List (SlotKind × Slot)) (kind : SlotKind) (name : String) : Option Slot :=
  (ts.find? fun t => t.1 == kind && t.2.name == name).map (·.2)

theorem findIn_append (ts us : List (SlotKind × Slot)) (kind : SlotKind) (name : String) :
    findIn (ts ++ us) kind name = (findIn ts kind name).or (findIn us kind name) := by
  simp only [findIn]
  rw [List.find?_append, Option.map_or]

theorem findIn_cons (k : SlotKind) (s : Slot) (ts : List (SlotKind × Slot)) (kind : SlotKind)
    (name : String) : findIn ((k, s) :: ts) kind name =
      if kind = k ∧ name = s.name then some s else findIn ts kind name := by
  simp only [findIn]
  rw [List.find?_cons]
  by_cases h : kind = k ∧ name = s.name
  · obtain ⟨rfl, rfl⟩ := h
    simp
  · rw [if_neg h]
    have hne : (k == kind && s.name == name) = false := by
      rw [Bool.eq_false_iff]
      intro he
      simp only [Bool.and_eq_true, beq_iff_eq] at he
      exact h ⟨he.1.symm, he.2.symm⟩
    simp [hne]

theorem findIn_map (ss : List Slot) (k kind : SlotKind) (name : String) :
    findIn (ss.map (k, ·)) kind name = if kind = k then ss.find? (·.name == name) else none := by
  induction ss with
  | nil => simp [findIn]
  | cons s rest ih =>
    rw [List.map_cons, findIn_cons, ih, List.find?_cons]
    by_cases hk : kind = k
    · by_cases hn : name = s.name
      · simp [hk, hn]
      · have hne : (s.name == name) = false := beq_eq_false_iff_ne.mpr (Ne.symm hn)
        simp [hk, hn, hne]
    · simp [hk]

theorem findIn_all (i : Interface) (kind : SlotKind) (name : String) :
    findIn i.all kind name = i.find? kind name := by
  have hall : i.all = (i.slots .input).map (SlotKind.input, ·) ++
      ((i.slots .output).map (SlotKind.output, ·) ++
        (i.slots .parameter).map (SlotKind.parameter, ·)) := by
    simp [all, SlotKind.all]
  rw [hall, findIn_append, findIn_append, findIn_map, findIn_map, findIn_map]
  cases kind <;> simp [find?]

end Interface

namespace Definition
open Interface

theorem new_eq_ok {name : String} {d : Definition} (h : new name = .ok d) : d = { name } := by
  simp only [new] at h
  split at h
  · exact (Except.ok.inj h).symm
  · cases h

theorem find?_eq_or (d : Definition) (kind : SlotKind) (name : String) :
    d.find? kind name =
      (d.own.find? kind name).or (d.categories.findSome? fun c => c.slots.find? kind name) := by
  simp only [find?]
  cases d.own.find? kind name <;> rfl

theorem find?_addTemplates {category : String} {ts : List (SlotKind × Slot)} {i after : Interface}
    (h : addTemplates category ts i = .ok after) (kind : SlotKind) (name : String) :
    after.find? kind name = (i.find? kind name).or (findIn ts kind name) := by
  induction ts generalizing i with
  | nil =>
    cases h
    simp [findIn]
  | cons t rest ih =>
    obtain ⟨k, s⟩ := t
    simp only [addTemplates] at h
    split at h
    · rename_i next hinsert
      rw [ih h, find?_insert hinsert, findIn_cons]
      by_cases hs : kind = k ∧ name = s.name
      · obtain ⟨rfl, rfl⟩ := hs
        have hfree := find?_eq_none_iff.mpr (insert_eq_ok hinsert).1
        simp [hfree]
      · simp [hs]
    · cases h

theorem find?_addCategories {cs : List Category} {i after : Interface}
    (h : addCategories cs i = .ok after) (kind : SlotKind) (name : String) :
    after.find? kind name =
      (i.find? kind name).or (cs.findSome? fun c => c.slots.find? kind name) := by
  induction cs generalizing i with
  | nil =>
    cases h
    simp
  | cons c rest ih =>
    simp only [addCategories] at h
    split at h
    · rename_i next hadd
      rw [ih h, find?_addTemplates hadd, findIn_all, Option.or_assoc, List.findSome?_cons]
      cases c.slots.find? kind name <;> rfl
    · cases h

theorem find?_interface {d : Definition} {i : Interface} (h : d.interface = .ok i)
    (kind : SlotKind) (name : String) : i.find? kind name = d.find? kind name := by
  rw [find?_addCategories h, find?_eq_or]

theorem find?_addCategory {d after : Definition} {c : Category} (h : d.addCategory c = .ok after)
    (kind : SlotKind) (name : String) :
    after.find? kind name = (d.find? kind name).or (c.slots.find? kind name) := by
  simp only [addCategory] at h
  split at h
  · cases h
  · split at h
    · cases h
    · cases h
      rw [find?_eq_or, find?_eq_or, List.findSome?_append, Option.or_assoc]
      simp only [List.findSome?_cons, List.findSome?_nil]
      cases c.slots.find? kind name <;> rfl

/-- A category is adopted only if all its slots are new. -/
theorem find?_eq_none_of_addCategory {d after : Definition} {c : Category}
    (h : d.addCategory c = .ok after) {kind : SlotKind} {s : Slot} (hs : s ∈ c.slots.slots kind) :
    d.find? kind s.name = none := by
  simp only [addCategory] at h
  split at h
  · cases h
  · split at h
    · cases h
    · rename_i hnew
      have hn := List.find?_eq_none.mp hnew (kind, s) (mem_all.mpr hs)
      simpa using hn

theorem findSome?_eq_none_of_contributor? {d : Definition} {kind : SlotKind} {name : String}
    (h : d.contributor? kind name = none) :
    d.categories.findSome? (fun c => c.slots.find? kind name) = none := by
  refine List.findSome?_eq_none_iff.mpr fun c hc => ?_
  have hn := List.find?_eq_none.mp (Option.map_eq_none_iff.mp h) c hc
  exact find?_eq_none_iff.mpr (Bool.eq_false_iff.mpr hn)

theorem find?_addSlot {d after : Definition} {kind : SlotKind} {s : Slot}
    (h : d.addSlot kind s = .ok after) (k : SlotKind) (n : String) :
    after.find? k n = if k = kind ∧ n = s.name then some s else d.find? k n := by
  simp only [addSlot] at h
  split at h
  · cases h
  · obtain ⟨own, hown, rfl⟩ := of_map_eq_ok h
    rw [find?_eq_or, find?_eq_or, find?_insert hown]
    split <;> rfl

/-- A slot that is taken out is one of the definition's own, and no category brings it back. -/
theorem find?_removeSlot {d after : Definition} {kind : SlotKind} {name : String} {s : Slot}
    (h : d.removeSlot kind name = .ok (s, after)) :
    d.find? kind name = some s ∧
      ∀ k n, after.find? k n = if k = kind ∧ n = name then none else d.find? k n := by
  simp only [removeSlot] at h
  split at h
  · cases h
  · rename_i hfree
    obtain ⟨⟨t, own⟩, hown, heq⟩ := of_map_eq_ok h
    cases heq
    obtain ⟨hfound, rfl⟩ := remove_eq_ok hown
    have hs : d.find? kind name = some t := by
      rw [find?_eq_or, hfound]
      rfl
    refine ⟨hs, fun k n => ?_⟩
    rw [find?_eq_or, find?_eq_or, find?_erase]
    split
    · rename_i hkn
      obtain ⟨rfl, rfl⟩ := hkn
      exact findSome?_eq_none_of_contributor? hfree
    · rfl

end Definition

end Patchbay
