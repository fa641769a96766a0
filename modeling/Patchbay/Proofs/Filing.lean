import Mathlib.Logic.Function.Basic
import Patchbay.Proofs.Document
import Patchbay.Proofs.Handling

/-!
# Interfaces as indexes

An index files things under keys and remembers in which order the keys came. It does not know what it
files, so a slot might lie under a name that is not its own. Whoever files slots has to see to it that it
never does.

Kept in three indexes, one for each kind, an interface takes every step as it does in its lists: with the
same outcome, with every slot under its name, and in the same order. That also goes for a list that is read,
whose slots are put into an index one by one until one of them pushes another out.
-/

namespace Patchbay

structure Index (α : Type) where
  entries : List (String × α) := []

namespace Index
variable {α : Type}

def get? (x : Index α) (key : String) : Option α :=
  x.entries.lookup key

/-- Files something in the place of what is there under the key, which comes back, or else at the end. -/
def put (x : Index α) (key : String) (a : α) : Option α × Index α :=
  match x.get? key with
  | some old => (some old, ⟨x.entries.map fun e => if e.1 == key then (key, a) else e⟩)
  | none => (none, ⟨x.entries ++ [(key, a)]⟩)

def drop (x : Index α) (key : String) : Index α :=
  ⟨x.entries.filter (·.1 != key)⟩

def values (x : Index α) : List α :=
  x.entries.map (·.2)

/-- Every slot is put under its name, until one comes back. -/
def fill (x : Index Slot) : List Slot → Except Flaw (Index Slot)
  | [] => .ok x
  | s :: rest =>
    match x.put s.name s with
    | (none, x) => fill x rest
    | (some _, _) => .error (.naming (.taken s.name))

/-- Every slot is under its name, no name is blank or comes twice, and values have the declared types. -/
structure Sound (x : Index Slot) : Prop where
  keyed : ∀ e ∈ x.entries, e.1 = e.2.name
  named : ∀ e ∈ x.entries, Text.isBlank e.1 = false
  distinct : (x.entries.map (·.1)).Nodup
  typed : ∀ e ∈ x.entries, e.2.value.type = e.2.type

/-- Every slot under its name. -/
def file (slots : List Slot) : Index Slot :=
  ⟨slots.map fun s => (s.name, s)⟩

section File
variable {slots : List Slot}

theorem get?_file (slots : List Slot) (key : String) :
    (file slots).get? key = slots.find? (·.name == key) := by
  simp only [file, get?]
  induction slots with
  | nil => rfl
  | cons s rest ih =>
    rw [List.map_cons, List.lookup_cons, List.find?_cons, ih, BEq.comm]

theorem put_file_new {s : Slot} (h : slots.find? (·.name == s.name) = none) :
    (file slots).put s.name s = (none, file (slots ++ [s])) := by
  simp only [put, get?_file, h]
  simp only [file, List.map_append, List.map_singleton]

theorem put_file_old {s t : Slot} (h : slots.find? (·.name == t.name) = some s) :
    (file slots).put t.name t =
      (some s, file (slots.map fun u => if u.name == t.name then t else u)) := by
  simp only [put, get?_file, h]
  simp only [file, List.map_map]
  congr 3
  funext u
  simp only [Function.comp_apply]
  split <;> rfl

theorem drop_file (slots : List Slot) (key : String) :
    (file slots).drop key = file (slots.filter (·.name != key)) := by
  simp only [drop, file, List.filter_map]
  rfl

theorem values_file (slots : List Slot) : (file slots).values = slots := by
  simp only [file, values, List.map_map]
  exact List.map_id slots

theorem sound_file (h : Interface.Listed slots) : (file slots).Sound where
  keyed := List.forall_mem_map.mpr fun _ _ => rfl
  named := List.forall_mem_map.mpr fun s hs => (h.valid s hs).named
  distinct := by
    simp only [file, List.map_map]
    exact h.distinct
  typed := List.forall_mem_map.mpr fun s hs => (h.valid s hs).typed

/-- The first slot that pushes another out is the first whose name was there before. -/
theorem fill_file {before slots : List Slot} {seen : List String}
    (h : ∀ name, name ∈ seen ↔ name ∈ before.map (·.name)) :
    (file before).fill slots =
      match Interface.repeated? seen (slots.map (·.name)) with
      | some name => .error (.naming (.taken name))
      | none => .ok (file (before ++ slots)) := by
  -- What was filed goes along: the names that were seen are those of the slots before.
  induction slots generalizing before seen with
  | nil => simp [fill, Interface.repeated?]
  | cons s rest ih =>
    by_cases hs : s.name ∈ seen
    · obtain ⟨t, ht, hname⟩ := List.mem_map.mp ((h s.name).mp hs)
      have hfound : (before.find? (·.name == s.name)).isSome :=
        List.find?_isSome.mpr ⟨t, ht, by simpa using hname⟩
      obtain ⟨old, hold⟩ := Option.isSome_iff_exists.mp hfound
      simp only [fill, put_file_old hold, List.map_cons, Interface.repeated?, if_pos hs]
    · have hnew : before.find? (·.name == s.name) = none :=
        List.find?_eq_none.mpr fun t ht hname =>
          hs ((h s.name).mpr (beq_iff_eq.mp hname ▸ List.mem_map_of_mem ht))
      have hseen : ∀ name, name ∈ s.name :: seen ↔ name ∈ (before ++ [s]).map (·.name) := by
        intro name
        simp [h, or_comm]
      simp only [fill, put_file_new hnew, List.map_cons, Interface.repeated?, if_neg hs, ih hseen,
        List.append_assoc, List.singleton_append]

theorem fill_empty (slots : List Slot) :
    fill {} slots =
      match Interface.repeated? [] (slots.map (·.name)) with
      | some name => .error (.naming (.taken name))
      | none => .ok (file slots) :=
  @fill_file [] slots [] fun _ => Iff.rfl

end File

end Index

abbrev Filing := SlotKind → Index Slot

namespace Filing

def outcome (f : Filing) : Interface.Step → Except Fault Filing
  | .insert kind s =>
    match (f kind).get? s.name with
    | some _ => .error (.naming (.taken s.name))
    | none => .ok (Function.update f kind ((f kind).put s.name s).2)
  | .remove kind name =>
    match (f kind).get? name with
    | some _ => .ok (Function.update f kind ((f kind).drop name))
    | none => .error (.unknownSlot kind name)
  | .change kind name c =>
    match (f kind).get? name with
    | some s => (c.apply s).map fun t => Function.update f kind ((f kind).put name t).2
    | none => .error (.unknownSlot kind name)
  | .clear => .ok fun _ => {}

def after (f : Filing) (step : Interface.Step) : Filing :=
  match f.outcome step with
  | .ok next => next
  | .error _ => f

def run (f : Filing) (steps : List Interface.Step) : Filing :=
  steps.foldl after f

end Filing

namespace Interface
open Index

def filing (i : Interface) : Filing :=
  fun kind => file (i.slots kind)

theorem filing_withSlots (i : Interface) (kind : SlotKind) (slots : List Slot) :
    (i.withSlots kind slots).filing = Function.update i.filing kind (file slots) := by
  funext k
  by_cases hk : k = kind
  · subst hk
    rw [filing, slots_withSlots_self, Function.update_self]
  · rw [filing, slots_withSlots_of_ne hk, Function.update_of_ne hk, filing]

theorem get?_filing (i : Interface) (kind : SlotKind) (name : String) :
    (i.filing kind).get? name = i.find? kind name :=
  get?_file (i.slots kind) name

theorem filing_outcome (i : Interface) (step : Step) :
    i.filing.outcome step = (step.outcome i).map filing := by
  cases step with
  | insert kind s =>
    simp only [Filing.outcome, get?_filing, Step.outcome, insert, contains_eq_isSome_find?]
    cases hs : i.find? kind s.name with
    | some t => rfl
    | none =>
      have hput : ((i.filing kind).put s.name s).2 = file (i.slots kind ++ [s]) := by
        rw [filing, put_file_new hs]
      simp only [hput, Option.isSome_none, Bool.false_eq_true, if_false, Except.map, filing_withSlots]
  | remove kind name =>
    simp only [Filing.outcome, get?_filing, Step.outcome, remove, get]
    cases hs : i.find? kind name with
    | none => rfl
    | some s =>
      have hdrop : (i.filing kind).drop name = file ((i.slots kind).filter (·.name != name)) :=
        drop_file (i.slots kind) name
      simp only [hdrop, Except.map, erase, filing_withSlots]
  | change kind name c =>
    simp only [Filing.outcome, get?_filing, Step.outcome, update, get]
    cases hs : i.find? kind name with
    | none => rfl
    | some s =>
      cases ht : c.apply s with
      | error fault => simp [Except.map, bind, Except.bind, ht]
      | ok t =>
        -- The changed slot still goes by the key that it was found under.
        have hname : t.name = name := (Slot.kept_of_change ht).1.trans (name_of_find? hs)
        subst hname
        have hput : ((i.filing kind).put t.name t).2 =
            file ((i.slots kind).map fun u => if u.name == t.name then t else u) := by
          rw [filing, put_file_old hs]
        simp only [ht, hput, Except.map, bind, Except.bind, pure, Except.pure, replace,
          filing_withSlots]
  | clear =>
    simp only [Filing.outcome, Step.outcome, Except.map]
    congr 1
    funext kind
    cases kind <;> rfl

theorem filing_run (i : Interface) (steps : List Step) : i.filing.run steps = (i.run steps).filing := by
  induction steps generalizing i with
  | nil => rfl
  | cons step rest ih =>
    have hafter : i.filing.after step = (i.after step).filing := by
      simp only [Filing.after, after, filing_outcome]
      cases step.outcome i <;> rfl
    change (i.filing.after step).run rest = ((i.after step).run rest).filing
    rw [hafter, ih]

/-- The indexes of a sound interface are what comes of putting its slots into empty ones. -/
theorem Sound.fill_slots {i : Interface} (h : i.Sound) (kind : SlotKind) :
    Index.fill {} (i.slots kind) = .ok (i.filing kind) := by
  have hdistinct : repeated? [] ((i.slots kind).map (·.name)) = none :=
    repeated?_eq_none (unseen_nil_iff.mpr (h.distinct kind))
  rw [fill_empty, hdistinct, filing]

section Lists
variable {o : Json.Origin} {j : Json}

/-- A list is read by putting its slots into an index. -/
theorem slotsOfJson_eq_fill (o : Json.Origin) (j : Json) :
    slotsOfJson o j =
      Json.asList (Slot.ofJson o) j >>= fun slots => (Index.fill {} slots).map values := by
  cases hread : Json.asList (Slot.ofJson o) j with
  | error flaw =>
    simp only [slotsOfJson, hread]
    rfl
  | ok slots =>
    simp only [slotsOfJson, hread, bind, Except.bind, fill_empty]
    cases repeated? [] (slots.map (·.name)) with
    | some name => rfl
    | none => exact congrArg Except.ok (values_file slots).symm

/-- The document with a list for each kind. -/
def document (lists : SlotKind → Json) : Json :=
  .object [("inputs", lists .input), ("outputs", lists .output), ("parameters", lists .parameter)]

theorem foldFields_slots {d : Draft} {key : String} (put : Option (List Slot) → Draft)
    (hfield : d.field o key j = (Json.once (slotsOfJson o) none j).map put)
    (rest : List (String × Json)) :
    Json.foldFields (Draft.field o) d ((key, j) :: rest) =
      slotsOfJson o j >>= fun slots => Json.foldFields (Draft.field o) (put (some slots)) rest := by
  cases hname : j.isMisnamed with
  | false =>
    rw [Json.foldFields_cons hname, hfield]
    simp only [Json.once]
    cases slotsOfJson o j <;> rfl
  | true =>
    cases j with
    | misnamed =>
      simp only [Json.foldFields, List.foldlM_cons, hname, if_true]
      rfl
    | _ => cases hname

theorem ofJson_document (o : Json.Origin) (lists : SlotKind → Json) :
    ofJson o (document lists) = (do
      let inputs ← slotsOfJson o (lists .input)
      let outputs ← slotsOfJson o (lists .output)
      let parameters ← slotsOfJson o (lists .parameter)
      return { inputs, outputs, parameters }) := by
  simp only [ofJson, document, Json.foldRecord]
  rw [foldFields_slots (fun inputs => { inputs }) rfl]
  cases slotsOfJson o (lists .input) with
  | error flaw => rfl
  | ok inputs =>
    simp only [bind, Except.bind]
    rw [foldFields_slots (fun outputs => { inputs := some inputs, outputs }) rfl]
    cases slotsOfJson o (lists .output) with
    | error flaw => rfl
    | ok outputs =>
      simp only [bind, Except.bind]
      rw [foldFields_slots
        (fun parameters => { inputs := some inputs, outputs := some outputs, parameters }) rfl]
      cases slotsOfJson o (lists .parameter) <;> rfl

/-- A document is accepted if each of its lists is. -/
theorem ofJson_document_eq_ok_iff {lists : SlotKind → Json} {i : Interface} :
    ofJson o (document lists) = .ok i ↔ ∀ kind, slotsOfJson o (lists kind) = .ok (i.slots kind) := by
  rw [ofJson_document]
  constructor
  · intro h
    obtain ⟨inputs, hinputs, h⟩ := of_bind_eq_ok h
    obtain ⟨outputs, houtputs, h⟩ := of_bind_eq_ok h
    obtain ⟨parameters, hparameters, h⟩ := of_bind_eq_ok h
    cases h
    intro kind
    cases kind with
    | input => exact hinputs
    | output => exact houtputs
    | parameter => exact hparameters
  · intro h
    rw [h .input, h .output, h .parameter]
    rfl

end Lists

/-- An interface that was begun in any way and then handled in any way can be kept in sound indexes, which
hold its slots in the order of declaration and take the next step as it does. Every operation heeds that
order. A list is accepted if its items are slots and no name comes twice, and then its order is the order of
declaration. That is what comes of putting the items into an index one by one, and a document is accepted if
each of its lists is. -/
theorem filed_under_names {i : Interface} (hi : i.Given) {steps : List Step}
    (hsteps : ∀ step ∈ steps, step.Made) :
    (∀ kind, Index.fill {} (i.slots kind) = .ok (i.filing kind) ∧
      (i.filing.run steps kind).Sound ∧ (i.filing.run steps kind).values = (i.run steps).slots kind) ∧
    (∀ step, (i.filing.run steps).outcome step = (step.outcome (i.run steps)).map filing) ∧
    (i.run steps).Orderly ∧
    (∀ o j slots, slotsOfJson o j = .ok slots ↔
      ∃ items, j = .array items ∧ List.Forall₂ (fun item s => Slot.ofJson o item = .ok s) items slots ∧
        (slots.map (·.name)).Nodup) ∧
    (∀ o j, slotsOfJson o j =
      Json.asList (Slot.ofJson o) j >>= fun slots => (Index.fill {} slots).map values) ∧
    ∀ o lists k, ofJson o (document lists) = .ok k ↔
      ∀ kind, slotsOfJson o (lists kind) = .ok (k.slots kind) := by
  have hi := hi.sound
  have ht : (i.run steps).Sound := hi.run hsteps
  rw [filing_run]
  refine ⟨fun kind => ⟨hi.fill_slots kind, ?_, values_file _⟩, filing_outcome _, ht.orderly,
    fun o j slots => slotsOfJson_eq_ok_iff, slotsOfJson_eq_fill,
    fun o lists k => ofJson_document_eq_ok_iff⟩
  exact sound_file ⟨ht.valid kind, ht.distinct kind⟩

def fader : Interface :=
  { inputs := [⟨"gain", .integer, .integer 0, false⟩, ⟨"mode", .string, .string "auto", false⟩]
    outputs := [⟨"gain", .bool, .bool true, true⟩] }

def faderText : String :=
  "\x7b\"outputs\": [[\"gain\", \"bool\", [\"bool\", true], true]],
    \"inputs\": [\x7b\"type\": \"integer\", \"name\": \"gain\"\x7d,
      \x7b\"name\": \"mode\", \"type\": \"string\", \"value\": [\"string\", \"auto\"]\x7d]\x7d"

/-- The second `gain` and the number for a truth value are refused. -/
def faderSteps : List Step :=
  [.insert .input ⟨"gain", .bool, .bool false, false⟩, .insert .input ⟨"solo", .bool, .bool false, false⟩,
    .change .input "mode" (.write (.string "manual")), .remove .input "gain",
    .change .output "gain" (.write (.integer 3)), .change .output "gain" (.mute false)]

set_option maxRecDepth 2000 in
theorem decode_faderText : Json.decode (ofJson .direct) faderText = .ok fader :=
  Json.decode_ofList (by decide)

theorem fader_filed :
    readDocument (ofJson .direct) faderText = .ok fader ∧ (∀ step ∈ faderSteps, step.Made) ∧
      (fader.filing.run faderSteps .input).entries =
        [("mode", ⟨"mode", .string, .string "manual", false⟩),
          ("solo", ⟨"solo", .bool, .bool false, false⟩)] ∧
      (∀ kind, (fader.filing.run faderSteps kind).Sound) ∧ (fader.run faderSteps).Orderly := by
  have hread : readDocument (ofJson .direct) faderText = .ok fader := by
    rw [readDocument, decode_faderText]
    rfl
  have hgain : Slot.new "gain" .bool = .ok ⟨"gain", .bool, .bool false, false⟩ := by decide
  have hsolo : Slot.new "solo" .bool = .ok ⟨"solo", .bool, .bool false, false⟩ := by decide
  have hmade : ∀ step ∈ faderSteps, step.Made := by
    simp only [faderSteps, List.forall_mem_cons]
    exact ⟨.new hgain, .new hsolo, trivial, trivial, trivial, trivial, by simp⟩
  obtain ⟨hfiled, _, horderly, _⟩ := filed_under_names (.document hread) hmade
  exact ⟨hread, hmade, by decide, fun kind => (hfiled kind).2.1, horderly⟩

end Interface

end Patchbay
