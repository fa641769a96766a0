import Patchbay.Proofs.Declared

/-!
# Handling interfaces

An interface starts empty or is read from a document, and then slots are declared, changed and taken out
one step after the other. A step either is refused, and then nothing happened, or it comes to one of four
things: a slot more at the end, a slot less, another slot of the same name and type in the place of one, or
nothing left at all. So every interface is sound at any time, and what is done to one kind of slot is not
felt by the others.
-/

namespace Patchbay

namespace Slot

inductive Change
  | write (value : Value)
  | mute (muted : Bool)
  | clear

def Change.apply (s : Slot) : Change → Except Fault Slot
  | write value => s.write value
  | mute muted => .ok { s with muted }
  | clear => .ok s.clear

/-- Slots as they come about: new ones, ones that are read, and what changes make of them. -/
inductive Made : Slot → Prop
  | new {name : String} {type : ValueType} {s : Slot} : Slot.new name type = .ok s → Made s
  | ofValue {name : String} {value : Value} {s : Slot} : Slot.ofValue name value = .ok s → Made s
  | read {o : Json.Origin} {j : Json} {s : Slot} : ofJson o j = .ok s → Made s
  | change {s t : Slot} (c : Change) : Made s → c.apply s = .ok t → Made t

section Change
variable {s t : Slot} {c : Change}

theorem kept_of_change (h : c.apply s = .ok t) : t.name = s.name ∧ t.type = s.type := by
  cases c with
  | write value =>
    obtain ⟨_, rfl⟩ := write_eq_ok h
    exact ⟨rfl, rfl⟩
  | mute | clear =>
    cases h
    exact ⟨rfl, rfl⟩

theorem Valid.change (hs : s.Valid) (h : c.apply s = .ok t) : t.Valid := by
  cases c with
  | write value => exact hs.write h
  | mute muted =>
    cases h
    exact ⟨hs.named, hs.typed⟩
  | clear =>
    cases h
    exact hs.clear

theorem Made.valid (h : s.Made) : s.Valid := by
  induction h with
  | new hnew => exact valid_of_new hnew
  | ofValue hvalue =>
    obtain ⟨bare, hnew, rfl⟩ := of_map_eq_ok hvalue
    have hbare := valid_of_new hnew
    obtain rfl := Registry.slot_new_eq_ok hnew
    exact ⟨hbare.named, rfl⟩
  | read hread => exact valid_of_ofJson hread
  | change c _ hchange ih => exact ih.change hchange

end Change

end Slot

namespace Interface

/-- Interfaces to start from: an empty one, a document of its own, and what stands among the fields of a
category or a definition. -/
inductive Given : Interface → Prop
  | empty : Given .empty
  | document {text : String} {i : Interface} : readDocument (ofJson .direct) text = .ok i → Given i
  | fields {fields : List (String × Json)} {i : Interface} : ofFields fields = .ok i → Given i

inductive Step
  | insert (kind : SlotKind) (s : Slot)
  | remove (kind : SlotKind) (name : String)
  | change (kind : SlotKind) (name : String) (c : Slot.Change)
  | clear

namespace Step

def outcome (i : Interface) : Step → Except Fault Interface
  | insert kind s => i.insert kind s
  | remove kind name => (i.remove kind name).map (·.2)
  | change kind name c => (i.update kind name c.apply).map (·.2)
  | clear => .ok .empty

/-- The kind that the step is about, unless it is about all of them. -/
def kind? : Step → Option SlotKind
  | insert kind _ | remove kind _ | change kind _ _ => some kind
  | clear => none

def Made : Step → Prop
  | insert _ s => s.Made
  | _ => True

end Step

/-- The interface after a step, which is as it was if the step is refused. -/
def after (i : Interface) (step : Step) : Interface :=
  match step.outcome i with
  | .ok next => next
  | .error _ => i

def run (i : Interface) (steps : List Step) : Interface :=
  steps.foldl after i

theorem Given.sound {i : Interface} (h : i.Given) : i.Sound := by
  cases h with
  | empty => exact sound_empty
  | document hread => exact sound_of_ofJson (of_readDocument_eq_ok hread)
  | fields hread => exact sound_of_ofFields hread

section Step
variable {i next : Interface} {step : Step}

theorem outcome_cases (h : step.outcome i = .ok next) :
    (∃ kind s, step = .insert kind s ∧ i.insert kind s = .ok next) ∨
    (∃ kind name, step = .remove kind name ∧ next = i.erase kind name) ∨
    (∃ kind name c s t, step = .change kind name c ∧ i.find? kind name = some s ∧ c.apply s = .ok t ∧
      next = i.replace kind t) ∨
    step = .clear ∧ next = .empty := by
  cases step with
  | insert kind s => exact .inl ⟨kind, s, rfl, h⟩
  | remove kind name =>
    obtain ⟨⟨s, left⟩, hremove, rfl⟩ := of_map_eq_ok h
    exact .inr (.inl ⟨kind, name, rfl, (remove_eq_ok hremove).2⟩)
  | change kind name c =>
    obtain ⟨⟨t, changed⟩, hupdate, rfl⟩ := of_map_eq_ok h
    obtain ⟨s, hs, hchange, hnext⟩ := update_eq_ok hupdate
    exact .inr (.inr (.inl ⟨kind, name, c, s, t, rfl, hs, hchange, hnext⟩))
  | clear =>
    cases h
    exact .inr (.inr (.inr ⟨rfl, rfl⟩))

theorem Sound.outcome (h : i.Sound) (hmade : step.Made) (hout : step.outcome i = .ok next) :
    next.Sound := by
  rcases outcome_cases hout with ⟨kind, s, rfl, hinsert⟩ | ⟨kind, name, _, rfl⟩ |
    ⟨kind, name, c, s, t, _, hs, hchange, rfl⟩ | ⟨_, rfl⟩
  · exact h.insert kind (Slot.Made.valid hmade) hinsert
  · exact h.erase kind name
  · exact h.replace kind ((h.of_find? hs).change hchange)
  · exact sound_empty

theorem slots_of_outcome (hout : step.outcome i = .ok next) {kind other : SlotKind}
    (hkind : step.kind? = some kind) (hother : other ≠ kind) : next.slots other = i.slots other := by
  rcases outcome_cases hout with ⟨k, s, rfl, hinsert⟩ | ⟨k, name, rfl, rfl⟩ |
    ⟨k, name, c, s, t, rfl, _, _, rfl⟩ | ⟨rfl, _⟩
  · obtain ⟨_, rfl⟩ := insert_eq_ok hinsert
    cases hkind
    exact slots_withSlots_of_ne hother
  · cases hkind
    exact slots_withSlots_of_ne hother
  · cases hkind
    exact slots_withSlots_of_ne hother
  · cases hkind

theorem Sound.after (h : i.Sound) (hmade : step.Made) : (i.after step).Sound := by
  simp only [Interface.after]
  split
  · exact h.outcome hmade ‹_›
  · exact h

theorem slots_after {kind other : SlotKind} (hkind : step.kind? = some kind) (hother : other ≠ kind) :
    (i.after step).slots other = i.slots other := by
  simp only [Interface.after]
  split
  · exact slots_of_outcome ‹_› hkind hother
  · rfl

theorem Sound.run {steps : List Step} (h : i.Sound) (hmade : ∀ step ∈ steps, step.Made) :
    (i.run steps).Sound := by
  induction steps generalizing i with
  | nil => exact h
  | cons step rest ih =>
    obtain ⟨hstep, hrest⟩ := List.forall_mem_cons.mp hmade
    exact ih (h.after hstep) hrest

end Step

section Free
variable {i : Interface} {kind : SlotKind} {s : Slot}

theorem insert_free (hfree : s.name ∉ i.names kind) :
    ∃ next, i.insert kind s = .ok next ∧ next.slots kind = i.slots kind ++ [s] := by
  obtain ⟨next, hinsert⟩ := insert_of_not_mem hfree
  obtain ⟨_, rfl⟩ := insert_eq_ok hinsert
  exact ⟨_, hinsert, slots_withSlots_self i kind _⟩

theorem insert_taken (htaken : s.name ∈ i.names kind) :
    i.insert kind s = .error (.naming (.taken s.name)) := by
  simp only [insert, contains_iff_mem_names.mpr htaken, if_true]

theorem remove_unknown {name : String} (hfree : name ∉ i.names kind) :
    i.remove kind name = .error (.unknownSlot kind name) := by
  have hnone : i.find? kind name = none :=
    find?_eq_none_iff.mpr (Bool.eq_false_iff.mpr fun hc => hfree (contains_iff_mem_names.mp hc))
  simp only [remove, get, hnone]
  rfl

end Free

section Place
variable {i : Interface} {kind : SlotKind} {s : Slot} {before behind : List Slot}

/-- A slot has its name to itself. -/
theorem Sound.others (h : i.Sound) (hslots : i.slots kind = before ++ s :: behind) :
    ∀ t ∈ before ++ behind, t.name ≠ s.name := by
  have hnames := h.distinct kind
  rw [names, hslots, List.map_append, List.map_cons, List.nodup_middle, List.nodup_cons,
    ← List.map_append] at hnames
  exact fun t ht hname => hnames.1 (hname ▸ List.mem_map_of_mem ht)

theorem Sound.get_of_place (h : i.Sound) (hslots : i.slots kind = before ++ s :: behind) :
    i.get kind s.name = .ok s := by
  have hs : s ∈ i.slots kind := hslots ▸ List.mem_append_right before List.mem_cons_self
  simp only [get, h.find?_of_mem hs]

theorem slots_erase (hslots : i.slots kind = before ++ s :: behind)
    (hothers : ∀ t ∈ before ++ behind, t.name ≠ s.name) :
    (i.erase kind s.name).slots kind = before ++ behind := by
  obtain ⟨hbefore, hbehind⟩ := List.forall_mem_append.mp hothers
  have hkeep {ts : List Slot} (h : ∀ t ∈ ts, t.name ≠ s.name) :
      ts.filter (·.name != s.name) = ts :=
    List.filter_eq_self.mpr fun t ht => bne_iff_ne.mpr (h t ht)
  simp only [erase]
  rw [slots_withSlots_self, hslots, List.filter_append, List.filter_cons, hkeep hbefore, hkeep hbehind]
  simp

theorem slots_replace {t : Slot} (hslots : i.slots kind = before ++ s :: behind)
    (hname : t.name = s.name) (hothers : ∀ t ∈ before ++ behind, t.name ≠ s.name) :
    (i.replace kind t).slots kind = before ++ t :: behind := by
  obtain ⟨hbefore, hbehind⟩ := List.forall_mem_append.mp hothers
  have hkeep {ts : List Slot} (h : ∀ t ∈ ts, t.name ≠ s.name) :
      (ts.map fun u => if u.name == t.name then t else u) = ts := by
    have hsame : ∀ u ∈ ts, (if u.name == t.name then t else u) = u := by
      intro u hu
      rw [hname, if_neg (mt beq_iff_eq.mp (h u hu))]
    rw [List.map_congr_left hsame, List.map_id']
  simp only [replace]
  rw [slots_withSlots_self, hslots, List.map_append, List.map_cons, hkeep hbefore, hkeep hbehind]
  simp [hname]

theorem Sound.remove_of_place (h : i.Sound) (hslots : i.slots kind = before ++ s :: behind) :
    ∃ next, i.remove kind s.name = .ok (s, next) ∧ next.slots kind = before ++ behind := by
  refine ⟨i.erase kind s.name, ?_, slots_erase hslots (h.others hslots)⟩
  simp only [remove, h.get_of_place hslots, Except.map]

theorem Sound.update_of_place (h : i.Sound) (hslots : i.slots kind = before ++ s :: behind)
    {c : Slot.Change} {t : Slot} (hchange : c.apply s = .ok t) :
    ∃ next, i.update kind s.name c.apply = .ok (t, next) ∧ next.slots kind = before ++ t :: behind := by
  have hname : t.name = s.name := (Slot.kept_of_change hchange).1
  refine ⟨i.replace kind t, ?_, slots_replace hslots hname (h.others hslots)⟩
  simp only [Interface.update, h.get_of_place hslots, bind, Except.bind, hchange, pure, Except.pure]

end Place

/-- Every operation heeds the order of declaration. -/
structure Orderly (i : Interface) : Prop where
  appends : ∀ kind s, s.name ∉ i.names kind →
    ∃ next, i.insert kind s = .ok next ∧ next.slots kind = i.slots kind ++ [s]
  refuses : ∀ kind s, s.name ∈ i.names kind →
    i.insert kind s = .error (.naming (.taken s.name)) ∧ i.after (.insert kind s) = i
  closesUp : ∀ kind before s behind, i.slots kind = before ++ s :: behind →
    ∃ next, i.remove kind s.name = .ok (s, next) ∧ next.slots kind = before ++ behind
  misses : ∀ kind name, name ∉ i.names kind → i.remove kind name = .error (.unknownSlot kind name)
  changesInPlace : ∀ kind before s behind, i.slots kind = before ++ s :: behind →
    ∀ (c : Slot.Change) (t : Slot), c.apply s = .ok t → t.name = s.name ∧ t.type = s.type ∧
      ∃ next, i.update kind s.name c.apply = .ok (t, next) ∧ next.slots kind = before ++ t :: behind
  leavesOthers : ∀ (step : Step) kind, step.kind? = some kind →
    ∀ other ≠ kind, (i.after step).slots other = i.slots other

theorem Sound.orderly {i : Interface} (h : i.Sound) : i.Orderly where
  appends _ _ := insert_free
  refuses kind s htaken := by
    have hrefused := insert_taken htaken
    refine ⟨hrefused, ?_⟩
    simp only [Interface.after, Step.outcome, hrefused]
  closesUp _ _ _ _ := h.remove_of_place
  misses _ _ := remove_unknown
  changesInPlace kind before s behind hslots c t hchange := by
    obtain ⟨hname, htype⟩ := Slot.kept_of_change hchange
    exact ⟨hname, htype, h.update_of_place hslots hchange⟩
  leavesOthers _ _ hkind _ := slots_after hkind

end Interface

end Patchbay
