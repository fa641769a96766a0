import Patchbay.Document.Definition
import Patchbay.Proofs.Coherent

/-!
# Definitions that are read

Reading a document puts interfaces together as declaring their slots would: every slot that is accepted
has a name and a value of its type, and a list with a name twice is refused. So a definition that is read
and passes the check is coherent, whatever the document.
-/

namespace Patchbay

namespace Json
variable {α δ : Type}

/-- What every field keeps holds after all fields of a record. -/
theorem foldFields_keeps {P : δ → Prop} {step : δ → String → Json → Except Flaw δ}
    (hstep : ∀ draft key j next, P draft → step draft key j = .ok next → P next)
    {fields : List (String × Json)} {start after : δ} (hstart : P start)
    (h : foldFields step start fields = .ok after) : P after := by
  simp only [foldFields] at h
  induction fields generalizing start with
  | nil =>
    cases h
    exact hstart
  | cons field rest ih =>
    rw [List.foldlM_cons] at h
    obtain ⟨next, hnext, h⟩ := of_bind_eq_ok h
    split at hnext
    · cases hnext
    · exact ih (hstep start _ _ next hstart hnext) h

theorem foldRecord_keeps {P : δ → Prop} {names : List String} {step : δ → String → Json → Except Flaw δ}
    (hstep : ∀ draft key j next, P draft → step draft key j = .ok next → P next)
    {j : Json} {start after : δ} (hstart : P start) (h : foldRecord names step start j = .ok after) :
    P after := by
  cases j with
  | object fields => exact foldFields_keeps hstep hstart h
  | array items =>
    obtain ⟨draft, hfold, h⟩ := of_bind_eq_ok h
    split at h
    · cases h
    · cases h
      exact foldFields_keeps hstep hstart hfold
  | _ => cases h

theorem of_decode_eq_ok {decoder : Decoder α} {s : String} {a : α} (h : decode decoder s = .ok a) :
    decoder (read s.toList).1 = .ok a := by
  simp only [decode] at h
  split at h
  · cases h
  · rename_i hread
    split at h
    · cases h
      exact hread
    · cases h

/-- A text that is given by its characters need not be taken apart to be read. -/
theorem decode_ofList {decoder : Decoder α} {cs : List Char} {a : α}
    (h : decoder (read cs).1 = .ok a ∧ (read cs).2.any (·.all isBlank) = true) :
    decode decoder (String.ofList cs) = .ok a := by
  simp only [decode, String.toList_ofList, h.1, h.2, if_true]

theorem once_eq_ok {item : Decoder α} {seen after : Option α} {j : Json}
    (h : once item seen j = .ok after) : ∃ a, item j = .ok a ∧ after = some a := by
  simp only [once] at h
  split at h
  · cases h
  · obtain ⟨a, ha, heq⟩ := of_map_eq_ok h
    exact ⟨a, ha, heq.symm⟩

theorem mapM_eq_ok_iff {item : Decoder α} {items : List Json} {as : List α} :
    items.mapM item = .ok as ↔ List.Forall₂ (fun j a => item j = .ok a) items as := by
  induction items generalizing as with
  | nil =>
    rw [List.mapM_nil, List.forall₂_nil_left_iff]
    exact ⟨fun h => (Except.ok.inj h).symm, fun h => congrArg Except.ok h.symm⟩
  | cons j rest ih =>
    rw [List.mapM_cons, List.forall₂_cons_left_iff]
    constructor
    · intro h
      obtain ⟨a, ha, h⟩ := of_bind_eq_ok h
      obtain ⟨bs, hbs, h⟩ := of_bind_eq_ok h
      cases h
      exact ⟨a, bs, ha, ih.mp hbs, rfl⟩
    · rintro ⟨a, bs, ha, hbs, rfl⟩
      rw [ha, ih.mpr hbs]
      rfl

/-- A list is accepted if it is an array and every item is accepted, and it comes out in its order. -/
theorem asList_eq_ok_iff {item : Decoder α} {j : Json} {as : List α} :
    asList item j = .ok as ↔
      ∃ items, j = .array items ∧ List.Forall₂ (fun j a => item j = .ok a) items as := by
  constructor
  · intro h
    cases j with
    | array items => exact ⟨items, rfl, mapM_eq_ok_iff.mp h⟩
    | _ => cases h
  · rintro ⟨items, rfl, h⟩
    exact mapM_eq_ok_iff.mpr h

theorem exists_of_mem_asList {item : Decoder α} {j : Json} {as : List α} (h : asList item j = .ok as)
    {a : α} (ha : a ∈ as) : ∃ j, item j = .ok a := by
  obtain ⟨items, -, hitems⟩ := asList_eq_ok_iff.mp h
  clear h
  induction hitems with
  | nil => exact absurd ha List.not_mem_nil
  | cons hitem _ ih =>
    rcases List.mem_cons.mp ha with rfl | ha
    · exact ⟨_, hitem⟩
    · exact ih ha

end Json

theorem of_readDocument_eq_ok {α : Type} {decoder : Json.Decoder α} {s : String} {a : α}
    (h : readDocument decoder s = .ok a) : decoder (Json.read s.toList).1 = .ok a := by
  simp only [readDocument] at h
  cases hread : Json.decode decoder s with
  | error flaw =>
    rw [hread] at h
    cases h
  | ok b =>
    rw [hread] at h
    cases h
    exact Json.of_decode_eq_ok hread

namespace Slot

theorem valid_of_declare {name : String} {type : ValueType} {value : Option Value} {muted : Bool}
    {s : Slot} (h : declare name type value muted = .ok s) : s.Valid := by
  simp only [declare] at h
  split at h
  · cases h
  · rename_i hname
    split at h
    · rename_i htype
      cases h
      exact ⟨checkName_eq_ok_iff.mp hname, htype⟩
    · cases h

theorem valid_of_ofJson {o : Json.Origin} {j : Json} {s : Slot} (h : ofJson o j = .ok s) : s.Valid := by
  simp only [ofJson] at h
  obtain ⟨draft, _, h⟩ := of_bind_eq_ok h
  simp only [Draft.finish] at h
  obtain ⟨name, _, h⟩ := of_bind_eq_ok h
  obtain ⟨type, _, h⟩ := of_bind_eq_ok h
  exact valid_of_declare h

end Slot

namespace Interface

/-- Slots as they stand in a list of an interface. -/
structure Listed (slots : List Slot) : Prop where
  valid : ∀ s ∈ slots, s.Valid
  distinct : (slots.map (·.name)).Nodup

theorem listed_nil : Listed [] :=
  ⟨fun _ hs => absurd hs List.not_mem_nil, List.nodup_nil⟩

theorem unseen_of_repeated? {seen names : List String} (h : repeated? seen names = none) :
    Unseen seen names := by
  induction names generalizing seen with
  | nil => exact ⟨List.nodup_nil, fun name hname => absurd hname List.not_mem_nil⟩
  | cons name rest ih =>
    simp only [repeated?] at h
    split at h
    · cases h
    · rename_i hnew
      exact unseen_cons.mpr ⟨hnew, ih h⟩

theorem repeated?_eq_none {seen names : List String} (h : Unseen seen names) :
    repeated? seen names = none := by
  induction names generalizing seen with
  | nil => rfl
  | cons name rest ih =>
    obtain ⟨hnew, hrest⟩ := unseen_cons.mp h
    rw [repeated?, if_neg hnew, ih hrest]

/-- A list of slots is accepted if it is an array of slots and no name comes twice. -/
theorem slotsOfJson_eq_ok_iff {o : Json.Origin} {j : Json} {slots : List Slot} :
    slotsOfJson o j = .ok slots ↔
      ∃ items, j = .array items ∧ List.Forall₂ (fun item s => Slot.ofJson o item = .ok s) items slots ∧
        (slots.map (·.name)).Nodup := by
  constructor
  · intro h
    simp only [slotsOfJson] at h
    obtain ⟨read, hread, h⟩ := of_bind_eq_ok h
    split at h
    · cases h
    · rename_i hrepeated
      cases h
      obtain ⟨items, hj, hitems⟩ := Json.asList_eq_ok_iff.mp hread
      exact ⟨items, hj, hitems, unseen_nil_iff.mp (unseen_of_repeated? hrepeated)⟩
  · rintro ⟨items, hj, hitems, hdistinct⟩
    have hread : Json.asList (Slot.ofJson o) j = .ok slots := Json.asList_eq_ok_iff.mpr ⟨items, hj, hitems⟩
    have hnew := repeated?_eq_none (unseen_nil_iff.mpr hdistinct)
    simp only [slotsOfJson, hread, bind, Except.bind, hnew]
    rfl

theorem listed_of_slotsOfJson {o : Json.Origin} {j : Json} {slots : List Slot}
    (h : slotsOfJson o j = .ok slots) : Listed slots := by
  obtain ⟨items, hj, hitems, hdistinct⟩ := slotsOfJson_eq_ok_iff.mp h
  have hread : Json.asList (Slot.ofJson o) j = .ok slots := Json.asList_eq_ok_iff.mpr ⟨items, hj, hitems⟩
  refine ⟨fun s hs => ?_, hdistinct⟩
  obtain ⟨_, hslot⟩ := Json.exists_of_mem_asList hread hs
  exact Slot.valid_of_ofJson hslot

theorem sound_of_listed {i : Interface} (h : ∀ kind, Listed (i.slots kind)) : i.Sound :=
  ⟨fun kind => (h kind).valid, fun kind => (h kind).distinct⟩

/-- The lists that were read so far. -/
structure Draft.Sound (d : Draft) : Prop where
  inputs : ∀ slots, d.inputs = some slots → Listed slots
  outputs : ∀ slots, d.outputs = some slots → Listed slots
  parameters : ∀ slots, d.parameters = some slots → Listed slots

theorem Draft.Sound.field {o : Json.Origin} {d after : Draft} (h : d.Sound) {key : String} {j : Json}
    (hfield : d.field o key j = .ok after) : after.Sound := by
  have hread {seen list : Option (List Slot)} (honce : Json.once (slotsOfJson o) seen j = .ok list) :
      ∀ slots, list = some slots → Listed slots := by
    obtain ⟨slots, hslots, rfl⟩ := Json.once_eq_ok honce
    intro other heq
    cases heq
    exact listed_of_slotsOfJson hslots
  simp only [Draft.field] at hfield
  split at hfield
  · obtain ⟨list, honce, rfl⟩ := of_map_eq_ok hfield
    exact ⟨hread honce, h.outputs, h.parameters⟩
  · obtain ⟨list, honce, rfl⟩ := of_map_eq_ok hfield
    exact ⟨h.inputs, hread honce, h.parameters⟩
  · obtain ⟨list, honce, rfl⟩ := of_map_eq_ok hfield
    exact ⟨h.inputs, h.outputs, hread honce⟩
  · obtain ⟨_, _, rfl⟩ := of_map_eq_ok hfield
    exact h

theorem listed_getD {list : Option (List Slot)} (h : ∀ slots, list = some slots → Listed slots) :
    Listed (list.getD []) := by
  cases list with
  | none => exact listed_nil
  | some slots => exact h slots rfl

theorem draft_sound_empty : ({} : Draft).Sound :=
  ⟨by simp, by simp, by simp⟩

theorem Draft.Sound.finish {d : Draft} (h : d.Sound) : d.finish.Sound := by
  apply sound_of_listed
  intro kind
  cases kind with
  | input => exact listed_getD h.inputs
  | output => exact listed_getD h.outputs
  | parameter => exact listed_getD h.parameters

theorem sound_of_ofFields {fields : List (String × Json)} {i : Interface}
    (h : ofFields fields = .ok i) : i.Sound := by
  simp only [ofFields] at h
  obtain ⟨draft, hfold, rfl⟩ := of_map_eq_ok h
  exact (Json.foldFields_keeps (fun d key j next hd hnext => hd.field hnext) draft_sound_empty hfold).finish

theorem sound_of_ofJson {o : Json.Origin} {j : Json} {i : Interface} (h : ofJson o j = .ok i) :
    i.Sound := by
  simp only [ofJson] at h
  obtain ⟨draft, hfold, rfl⟩ := of_map_eq_ok h
  exact (Json.foldRecord_keeps (fun d key j next hd hnext => hd.field hnext) draft_sound_empty hfold).finish

end Interface

theorem Category.sound_of_ofJson {j : Json} {c : Category} (h : ofJson j = .ok c) : c.slots.Sound := by
  simp only [ofJson] at h
  split at h
  · obtain ⟨draft, _, h⟩ := of_bind_eq_ok h
    simp only [Draft.finish] at h
    obtain ⟨name, _, h⟩ := of_bind_eq_ok h
    obtain ⟨slots, hslots, h⟩ := of_bind_eq_ok h
    cases h
    exact Interface.sound_of_ofFields hslots
  · cases h

/-- A category that is read by itself has a name, besides sound slots. -/
theorem Category.sound_of_ofText {text : String} {c : Category} (h : ofText text = .ok c) :
    c.slots.Sound ∧ Text.isBlank c.name = false := by
  simp only [ofText] at h
  split at h
  · cases h
  · rename_i hread
    split at h
    · cases h
    · rename_i hname
      cases h
      exact ⟨sound_of_ofJson (Json.of_decode_eq_ok hread), checkName_eq_ok_iff.mp hname⟩

namespace Definition

theorem categories_of_field {o : Json.Origin} {d after : Draft} {key : String} {j : Json}
    (h : ∀ cs, d.categories = some cs → ∀ c ∈ cs, c.slots.Sound)
    (hfield : d.field o key j = .ok after) :
    ∀ cs, after.categories = some cs → ∀ c ∈ cs, c.slots.Sound := by
  simp only [Draft.field] at hfield
  split at hfield
  case h_4 =>
    obtain ⟨list, honce, rfl⟩ := of_map_eq_ok hfield
    obtain ⟨cs, hcs, rfl⟩ := Json.once_eq_ok honce
    intro other heq c hc
    cases heq
    obtain ⟨_, hcategory⟩ := Json.exists_of_mem_asList hcs hc
    exact Category.sound_of_ofJson hcategory
  all_goals
    obtain ⟨_, _, rfl⟩ := of_map_eq_ok hfield
    exact h

theorem sound_of_ofJson {o : Json.Origin} {j : Json} {d : Definition} (h : ofJson o j = .ok d) :
    d.Sound := by
  simp only [ofJson] at h
  split at h
  · obtain ⟨draft, hfold, h⟩ := of_bind_eq_ok h
    have hdraft : ∀ cs, draft.categories = some cs → ∀ c ∈ cs, c.slots.Sound :=
      Json.foldFields_keeps (fun d key j next hd hnext => categories_of_field hd hnext) (by simp) hfold
    simp only [Draft.finish] at h
    obtain ⟨name, _, h⟩ := of_bind_eq_ok h
    obtain ⟨own, hown, h⟩ := of_bind_eq_ok h
    cases h
    refine ⟨Interface.sound_of_ofFields hown, ?_⟩
    intro c hc
    cases hcs : draft.categories with
    | none =>
      rw [hcs] at hc
      exact absurd hc List.not_mem_nil
    | some cs =>
      rw [hcs] at hc
      exact hdraft cs hcs c hc
  · cases h

theorem sound_of_ofText {s : String} {d : Definition} (h : ofText s = .ok d) : d.Sound := by
  simp only [ofText] at h
  split at h
  · cases h
  · rename_i read hread
    split at h
    · cases h
    · cases h
      exact sound_of_ofJson (Json.of_decode_eq_ok hread)

theorem validate_of_ofText {text : String} {d : Definition} (h : ofText text = .ok d) :
    d.validate = .ok () := by
  simp only [ofText] at h
  split at h
  · cases h
  · split at h
    · cases h
    · rename_i hvalid
      cases h
      exact hvalid

theorem coherent_of_ofText {s : String} {d : Definition} (h : ofText s = .ok d) : d.Coherent :=
  (validate_eq_ok_iff (sound_of_ofText h)).mp (validate_of_ofText h)

end Definition

end Patchbay
