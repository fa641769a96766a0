import Patchbay.Document.Definition
import Patchbay.Proofs.Printing
import Patchbay.Proofs.Reading

/-!
# Definitions and categories survive their documents

What is written and read again is what it was, with every slot, category, call and value in its place, as
long as every double in it is finite. One that is not is written as `null`, and no reader takes that for a
double, so the whole document is refused.
-/

namespace Patchbay

namespace Json
variable {α β δ : Type}

/-- What reading makes of something that was written whole, or not. -/
def taken (whole : Bool) (a : α) : Except Flaw α :=
  if whole then .ok a else .error .form

@[simp] theorem taken_true (a : α) : taken true a = .ok a := rfl

theorem taken_map (whole : Bool) (a : α) (f : α → β) : (taken whole a).map f = taken whole (f a) := by
  cases whole <;> rfl

theorem map_once {item : Decoder α} {j : Json} {whole : Bool} {a : α} (h : item j = taken whole a)
    (put : Option α → β) : (once item none j).map put = taken whole (put (some a)) := by
  simp only [once, h, taken_map]

theorem map_once_ok {item : Decoder α} {j : Json} {a : α} (h : item j = .ok a) (put : Option α → β) :
    (once item none j).map put = .ok (put (some a)) := by
  simp only [once, h, Except.map]

theorem asList_taken {item : Decoder α} {encode : α → Json} {whole : α → Bool} {as : List α}
    (h : ∀ a ∈ as, item (encode a).written = taken (whole a) a) :
    asList item (array (as.map encode)).written = taken (as.all whole) as := by
  rw [written_array, List.map_map]
  simp only [asList]
  induction as with
  | nil => rfl
  | cons a rest ih =>
    obtain ⟨ha, hrest⟩ := List.forall_mem_cons.mp h
    rw [List.map_cons, List.mapM_cons, Function.comp_apply, ha, ih hrest, List.all_cons]
    cases whole a <;> cases rest.all whole <;> rfl

theorem asList_ok {item : Decoder α} {encode : α → Json} {as : List α}
    (h : ∀ a ∈ as, item (encode a).written = .ok a) :
    asList item (array (as.map encode)).written = .ok as := by
  have htaken : ∀ a ∈ as, item (encode a).written = taken true a := h
  have hall : (as.all fun _ => true) = true := List.all_eq_true.mpr fun _ _ => rfl
  rw [asList_taken htaken, hall, taken_true]

theorem isMisnamed_array (items : List Json) : (array items).written.isMisnamed = false := by
  rw [written_array]
  rfl

section Fields
variable {step : δ → String → Json → Except Flaw δ} {start next : δ} {key : String} {j : Json}

theorem foldFields_cons (hname : j.isMisnamed = false) (rest : List (String × Json)) :
    foldFields step start ((key, j) :: rest) =
      step start key j >>= fun draft => foldFields step draft rest := by
  simp only [foldFields, List.foldlM_cons, hname, Bool.false_eq_true, if_false]

theorem foldFields_nil : foldFields step start [] = taken true start := rfl

theorem foldFields_step (hname : j.isMisnamed = false) (hstep : step start key j = .ok next)
    (rest : List (String × Json)) :
    foldFields step start ((key, j) :: rest) = foldFields step next rest := by
  rw [foldFields_cons hname, hstep]
  rfl

/-- What comes out of a field that is left out where it says nothing new. -/
def unlessDefault (isDefault : Bool) (a : α) : Option α :=
  if isDefault then none else some a

theorem getD_unlessDefault {isDefault : Bool} {a default : α} (h : isDefault = true → a = default) :
    (unlessDefault isDefault a).getD default = a := by
  cases isDefault with
  | true => exact (h rfl).symm
  | false => rfl

theorem foldFields_optional {isDefault : Bool} {a : α} (put : Option α → δ)
    (hname : j.isMisnamed = false) (hstep : step (put none) key j = .ok (put (some a)))
    (rest : List (String × Json)) :
    foldFields step (put none) (fieldUnless isDefault key j ++ rest) =
      foldFields step (put (unlessDefault isDefault a)) rest := by
  cases isDefault with
  | true => rw [fieldUnless, if_pos rfl, List.nil_append, unlessDefault, if_pos rfl]
  | false =>
    rw [fieldUnless, if_neg Bool.false_ne_true, List.singleton_append, foldFields_step hname hstep,
      unlessDefault, if_neg Bool.false_ne_true]

/-- Fields that are kept for later. -/
theorem foldFields_kept {keys : List String} (put : List (String × Json) → δ)
    (hstep : ∀ kept key j, key ∈ keys → j.isReadable = true →
      step (put kept) key j = .ok (put (kept ++ [(key, j)])))
    {fields : List (String × Json)} (hfields : ∀ f ∈ fields, f.1 ∈ keys ∧ f.2.isReadable = true)
    (kept : List (String × Json)) :
    foldFields step (put kept) fields = .ok (put (kept ++ fields)) := by
  induction fields generalizing kept with
  | nil =>
    rw [List.append_nil]
    rfl
  | cons f rest ih =>
    obtain ⟨⟨hkey, hreadable⟩, hrest⟩ := List.forall_mem_cons.mp hfields
    rw [foldFields_step (isMisnamed_of_isReadable hreadable) (hstep kept _ _ hkey hreadable), ih hrest,
      List.append_assoc, List.singleton_append]

/-- What comes out of a field with a list that is left out if the list is empty. -/
def listed (as : List α) : Option (List α) :=
  unlessDefault as.isEmpty as

theorem getD_listed (as : List α) : (listed as).getD [] = as :=
  getD_unlessDefault List.isEmpty_iff.mp

/-- A field with a list that is left out if the list is empty, and the fields after it. -/
theorem foldFields_list {as : List α} {encode : α → Json} {whole : α → Bool} {others : Bool} {last : δ}
    {rest : List (String × Json)} (put : Option (List α) → δ)
    (hstep : step (put none) key (array (as.map encode)).written = taken (as.all whole) (put (some as)))
    (hrest : foldFields step (put (listed as)) rest = taken others last) :
    foldFields step (put none) (fieldUnless as.isEmpty key (array (as.map encode)).written ++ rest) =
      taken (as.all whole && others) last := by
  cases as with
  | nil => exact hrest
  | cons a as =>
    rw [List.isEmpty_cons, fieldUnless, if_neg Bool.false_ne_true, List.singleton_append,
      foldFields_cons (isMisnamed_array _), hstep]
    cases (a :: as).all whole with
    | true => exact hrest
    | false => rfl

theorem foldFields_list_last {as : List α} {encode : α → Json} {whole : α → Bool}
    (put : Option (List α) → δ)
    (hstep : step (put none) key (array (as.map encode)).written =
      taken (as.all whole) (put (some as))) :
    foldFields step (put none) (fieldUnless as.isEmpty key (array (as.map encode)).written) =
      taken (as.all whole) (put (listed as)) := by
  have hfold := foldFields_list put hstep foldFields_nil
  rwa [Bool.and_true, List.append_nil] at hfold

theorem map_fieldUnless (isDefault : Bool) (key : String) (j : Json) :
    (fieldUnless isDefault key j).map (fun (key, j) => (key, j.written)) =
      fieldUnless isDefault key j.written := by
  cases isDefault <;> rfl

theorem forall_mem_fieldUnless {isDefault : Bool} {P : String × Json → Prop} (h : P (key, j)) :
    ∀ f ∈ fieldUnless isDefault key j, P f := by
  intro f hf
  cases isDefault with
  | true => cases hf
  | false =>
    rw [List.mem_singleton.mp hf]
    exact h

end Fields

end Json

open Json

theorem ValueType.ofJson_toJson (o : Origin) (t : ValueType) : ofJson o t.toJson.written = .ok t := by
  simp only [toJson, ofString, written_text, ofJson, asMember]
  cases o <;> simp [memberName?, ofName?_name]

namespace Value

theorem asByte_toNat (b : UInt8) : asByte (int b.toNat) = .ok b := by
  have hb : b.toNat < 256 := b.toNat_lt
  have hrange : (0 : Int) ≤ b.toNat ∧ (b.toNat : Int) < 256 := by omega
  simp only [asByte, asNat, Nat.cast_ofNat, hrange, and_self, if_true, Int.toNat_natCast]
  exact congrArg Except.ok UInt8.ofNat_toNat

theorem ofContent_written (v : Value) :
    ofContent v.type (v.content?.map written) = taken v.isFinite v := by
  cases v with
  | integer n =>
    have hrange : Int64.minValue.toInt ≤ n.toInt ∧ n.toInt ≤ Int64.maxValue.toInt :=
      ⟨Int64.minValue_le_toInt n, Int64.toInt_le n⟩
    simp only [type, content?, Option.map_some, written_int, ofContent, asInt64, hrange, and_self,
      if_true, Int64.ofInt_toInt]
    rfl
  | double d =>
    simp only [type, content?, Option.map_some, written_double, ofContent, isFinite]
    cases d.isFinite <;> rfl
  | string s => rfl
  | bool b => rfl
  | impulsion => rfl
  | data bytes =>
    have hbytes : asList asByte (ofBytes bytes).written = .ok bytes :=
      asList_ok fun b _ => asByte_toNat b
    simp only [type, content?, Option.map_some, ofContent, hbytes]
    rfl

theorem plain_content {v : Value} {j : Json} (h : v.content? = some j) (depth : Nat) :
    Plain (depth + 1) j := by
  cases v with
  | integer n =>
    cases h
    have hlow : -(2 ^ 63) ≤ n.toInt := Int64.minValue_le_toInt n
    have hhigh : n.toInt ≤ 2 ^ 63 - 1 := Int64.toInt_le n
    exact .int _ hlow (by omega)
  | double d =>
    cases h
    exact .double _ d
  | string s =>
    cases h
    exact .text _ s
  | bool b =>
    cases h
    exact .bool _ b
  | impulsion => cases h
  | data bytes =>
    cases h
    refine .array (List.forall_mem_map.mpr fun b _ => ?_)
    have hb : b.toNat < 256 := b.toNat_lt
    exact .int _ (by omega) (by omega)

theorem plain_toJson (depth : Nat) (v : Value) : Plain (depth + 2) v.toJson := by
  refine .object (List.forall_mem_cons.mpr ⟨.text _ _, fun f hf => ?_⟩)
  obtain ⟨j, hj, rfl⟩ := Option.map_eq_some_iff.mp (Option.mem_toList.mp hf)
  exact plain_content hj depth

theorem ofJson_toJson (o : Origin) (v : Value) : ofJson o v.toJson.written = taken v.isFinite v := by
  have htype : Draft.field o {} "type" v.type.toJson.written = .ok { type := some v.type } := by
    simp only [Draft.field, once, ValueType.ofJson_toJson]
    rfl
  simp only [toJson, written_object, List.map_cons, ofJson]
  rw [foldFields_step rfl htype, ← ofContent_written]
  cases hcontent : v.content? with
  | none => rfl
  | some j =>
    have hname := isMisnamed_of_isReadable (plain_content hcontent 0).isReadable_written
    simp only [Option.map_some, Option.toList_some, List.map_cons, List.map_nil]
    rw [foldFields_step hname rfl]
    rfl

end Value

namespace Slot

theorem declare_self {s : Slot} (h : s.Valid) :
    declare s.name s.type (some s.value) s.muted = .ok s := by
  simp only [declare, checkName_eq_ok_iff.mpr h.named, Option.getD_some, h.typed, if_true]

theorem ofJson_toJson (o : Origin) {s : Slot} (h : s.Valid) :
    ofJson o s.toJson.written = taken s.value.isFinite s := by
  let named : Draft := { name := some s.name }
  let typed : Draft := { named with type := some s.type }
  let valued : Draft := { typed with value := some (some s.value) }
  have htype : Draft.field o named "type" s.type.toJson.written = .ok typed := by
    simp only [Draft.field, named, typed, once, ValueType.ofJson_toJson]
    rfl
  have hvalue : Draft.field o typed "value" s.value.toJson.written = taken s.value.isFinite valued := by
    have hsome : asOption (Value.ofJson o) s.value.toJson.written =
        taken s.value.isFinite (some s.value) := by
      rw [← taken_map, ← Value.ofJson_toJson o]
      rfl
    simp only [Draft.field, named, typed, valued, once, hsome, taken_map]
  have hmuted : (foldFields (Draft.field o) valued (fieldUnless (!s.muted) "muted" (.bool true)) >>=
      Draft.finish) = .ok s := by
    rw [← declare_self h]
    cases s.muted <;> rfl
  simp only [toJson, written_object, List.map_cons, map_fieldUnless, ofJson, foldRecord,
    List.cons_append, List.nil_append]
  rw [foldFields_step rfl rfl, foldFields_step rfl htype, foldFields_cons rfl, hvalue]
  cases s.value.isFinite with
  | true => exact hmuted
  | false => rfl

theorem plain_toJson (depth : Nat) (s : Slot) : Plain (depth + 3) s.toJson := by
  refine .object (List.forall_mem_append.mpr ⟨?_, ?_⟩)
  · simp only [List.forall_mem_cons]
    exact ⟨.text _ _, .text _ _, Value.plain_toJson depth _, fun _ h => absurd h List.not_mem_nil⟩
  · exact forall_mem_fieldUnless (P := fun f => Plain (depth + 2) f.2) (.bool _ _)

end Slot

namespace Interface

/-- Every double in the slots is finite. -/
def isFinite (i : Interface) : Bool :=
  SlotKind.all.all fun kind => (i.slots kind).all (·.value.isFinite)

theorem isFinite_iff {i : Interface} :
    i.isFinite = true ↔ ∀ kind, ∀ s ∈ i.slots kind, s.value.isFinite = true := by
  simp only [isFinite, List.all_eq_true]
  exact ⟨fun h kind => h kind (SlotKind.mem_all kind), fun h kind _ => h kind⟩

theorem isFinite_eq (i : Interface) :
    i.isFinite = (i.inputs.all (·.value.isFinite) &&
      (i.outputs.all (·.value.isFinite) && i.parameters.all (·.value.isFinite))) := by
  simp only [isFinite, SlotKind.all, List.all_cons, List.all_nil, Bool.and_true, slots]

theorem slotsOfJson_toJson (o : Origin) {slots : List Slot} (h : Listed slots) :
    slotsOfJson o (array (slots.map Slot.toJson)).written =
      taken (slots.all (·.value.isFinite)) slots := by
  have hslots := asList_taken fun s hs => Slot.ofJson_toJson o (h.valid s hs)
  have hdistinct := repeated?_eq_none (unseen_nil_iff.mpr h.distinct)
  simp only [slotsOfJson, hslots]
  cases slots.all (·.value.isFinite) with
  | true =>
    simp only [taken_true, bind, Except.bind, hdistinct]
    rfl
  | false => rfl

theorem ofFields_jsonFields {i : Interface} (h : i.Sound) :
    ofFields (i.jsonFields.map fun (key, j) => (key, j.written)) = taken i.isFinite i := by
  have hinputs : Listed i.inputs := ⟨h.valid .input, h.distinct .input⟩
  have houtputs : Listed i.outputs := ⟨h.valid .output, h.distinct .output⟩
  have hparameters : Listed i.parameters := ⟨h.valid .parameter, h.distinct .parameter⟩
  have hfold : foldFields (Draft.field .kept) {} (i.jsonFields.map fun (key, j) => (key, j.written)) =
      taken i.isFinite
        { inputs := listed i.inputs
          outputs := listed i.outputs
          parameters := listed i.parameters } := by
    simp only [jsonFields, slots, List.map_append, map_fieldUnless, List.append_assoc, isFinite_eq]
    refine foldFields_list (fun inputs => ({ inputs } : Draft))
      (map_once (slotsOfJson_toJson .kept hinputs) _) ?_
    refine foldFields_list (fun outputs => ({ inputs := listed i.inputs, outputs } : Draft))
      (map_once (slotsOfJson_toJson .kept houtputs) _) ?_
    exact foldFields_list_last (fun parameters =>
        ({ inputs := listed i.inputs, outputs := listed i.outputs, parameters } : Draft))
      (map_once (slotsOfJson_toJson .kept hparameters) _)
  rw [ofFields, hfold, taken_map, Draft.finish, getD_listed, getD_listed, getD_listed]

theorem plain_jsonFields (depth : Nat) (i : Interface) : ∀ f ∈ i.jsonFields, Plain (depth + 4) f.2 := by
  have hslots (kind : SlotKind) : Plain (depth + 4) (array ((i.slots kind).map Slot.toJson)) :=
    .array (List.forall_mem_map.mpr fun s _ => s.plain_toJson depth)
  simp only [jsonFields, List.forall_mem_append]
  exact ⟨⟨forall_mem_fieldUnless (hslots .input), forall_mem_fieldUnless (hslots .output)⟩,
    forall_mem_fieldUnless (hslots .parameter)⟩

theorem kept_jsonFields (i : Interface) :
    ∀ f ∈ i.jsonFields.map (fun (key, j) => (key, j.written)),
      f.1 ∈ ["inputs", "outputs", "parameters"] ∧ f.2.isReadable = true := by
  refine List.forall_mem_map.mpr fun f hf => ⟨?_, (plain_jsonFields 0 i f hf).isReadable_written⟩
  have hkeys : ∀ f ∈ i.jsonFields, f.1 ∈ ["inputs", "outputs", "parameters"] := by
    simp only [jsonFields, List.forall_mem_append]
    exact ⟨⟨forall_mem_fieldUnless (by simp), forall_mem_fieldUnless (by simp)⟩,
      forall_mem_fieldUnless (by simp)⟩
  exact hkeys f hf

end Interface

namespace Call

theorem argumentOfJson_toJson (o : Origin) (a : Argument) :
    argumentOfJson o (argumentToJson a).written = .ok a := by
  have htype : ArgumentDraft.field o { name := some a.name } "type" a.type.toJson.written =
      .ok { name := some a.name, type := some a.type } := by
    simp only [ArgumentDraft.field, once, ValueType.ofJson_toJson]
    rfl
  simp only [argumentToJson, written_object, List.map_cons, List.map_nil, argumentOfJson, foldRecord]
  rw [foldFields_step rfl rfl, foldFields_step rfl htype]
  rfl

theorem ofJson_toJson (o : Origin) (c : Call) : ofJson o c.toJson.written = .ok c := by
  have harguments : asList (argumentOfJson o) (array (c.arguments.map argumentToJson)).written =
      .ok c.arguments :=
    asList_ok fun a _ => argumentOfJson_toJson o a
  let description := unlessDefault c.description.isEmpty c.description
  have hstep : Draft.field o { name := some c.name, description } "arguments"
      (array (c.arguments.map argumentToJson)).written =
        .ok { name := some c.name, description, arguments := some c.arguments } :=
    map_once_ok harguments _
  have hlast : foldFields (Draft.field o) { name := some c.name, description }
      (fieldUnless c.arguments.isEmpty "arguments" (array (c.arguments.map argumentToJson)).written) =
        .ok { name := some c.name, description, arguments := listed c.arguments } := by
    refine .trans ?_ (foldFields_optional
      (fun arguments => ({ name := some c.name, description, arguments } : Draft))
      (isMisnamed_array _) hstep [])
    rw [List.append_nil]
  have hfinish :
      Draft.finish { name := some c.name, description, arguments := listed c.arguments } = .ok c := by
    simp only [Draft.finish, getD_listed, description, getD_unlessDefault String.isEmpty_iff.mp]
    rfl
  simp only [toJson, written_object, List.map_append, List.map_cons, map_fieldUnless, ofJson,
    foldRecord, List.cons_append, List.nil_append]
  rw [foldFields_step rfl rfl, foldFields_optional
    (fun description => ({ name := some c.name, description } : Draft)) rfl rfl, hlast]
  exact hfinish

theorem plain_toJson (depth : Nat) (c : Call) : Plain (depth + 3) c.toJson := by
  refine .object (List.forall_mem_append.mpr ⟨List.forall_mem_append.mpr ⟨?_, ?_⟩, ?_⟩)
  · exact List.forall_mem_singleton.mpr (.text _ _)
  · exact forall_mem_fieldUnless (P := fun f => Plain (depth + 2) f.2) (.text _ _)
  · refine forall_mem_fieldUnless (P := fun f => Plain (depth + 2) f.2)
      (.array (List.forall_mem_map.mpr fun a _ => .object ?_))
    simp only [List.forall_mem_cons]
    exact ⟨.text _ _, .text _ _, fun _ h => absurd h List.not_mem_nil⟩

end Call

namespace Category

theorem ofJson_toJson {c : Category} (h : c.slots.Sound) :
    ofJson c.toJson.written = taken c.slots.isFinite c := by
  let words : Draft := { name := some c.name, version := some c.version }
  let fields := c.slots.jsonFields.map fun (key, j) => (key, j.written)
  have hkept : foldFields Draft.field words fields = .ok { words with kept := fields } := by
    refine foldFields_kept (fun kept => ({ words with kept } : Draft)) ?_ c.slots.kept_jsonFields []
    intro kept key j hkey hreadable
    simp only [List.mem_cons, List.not_mem_nil, or_false] at hkey
    rcases hkey with rfl | rfl | rfl <;> simp [Draft.field, Json.keep, hreadable, Except.map]
  simp only [toJson, written_object, List.map_cons, ofJson, List.cons_append, List.nil_append]
  rw [foldFields_step rfl rfl, foldFields_step rfl rfl, hkept]
  change (Interface.ofFields fields >>= fun slots => _) = _
  rw [Interface.ofFields_jsonFields h]
  cases c.slots.isFinite <;> rfl

theorem plain_toJson (depth : Nat) (c : Category) : Plain (depth + 5) c.toJson := by
  refine .object (List.forall_mem_append.mpr ⟨?_, c.slots.plain_jsonFields depth⟩)
  simp only [List.forall_mem_cons]
  exact ⟨.text _ _, .text _ _, fun _ h => absurd h List.not_mem_nil⟩

end Category

namespace Definition

/-- Every double in the slots of the definition and of its categories is finite. -/
def isFinite (d : Definition) : Bool :=
  d.categories.all (·.slots.isFinite) && d.own.isFinite

theorem isFinite_iff {d : Definition} :
    d.isFinite = true ↔ ∀ kind, ∀ s ∈ d.effective kind, s.value.isFinite = true := by
  simp only [isFinite, Bool.and_eq_true, List.all_eq_true, Interface.isFinite_iff, effective,
    List.mem_append, List.mem_flatMap]
  constructor
  · rintro ⟨hcategories, hown⟩ kind s (hs | ⟨c, hc, hs⟩)
    · exact hown kind s hs
    · exact hcategories c hc kind s hs
  · intro h
    exact ⟨fun c hc kind s hs => h kind s (.inr ⟨c, hc, hs⟩), fun kind s hs => h kind s (.inl hs)⟩

theorem ofJson_toJson (o : Origin) {d : Definition} (h : d.Sound) :
    ofJson o d.toJson.written = taken d.isFinite d := by
  have hcategories : asList Category.ofJson (array (d.categories.map Category.toJson)).written =
      taken (d.categories.all (·.slots.isFinite)) d.categories :=
    asList_taken fun c hc => Category.ofJson_toJson (h.categories c hc)
  have hcalls : asList (Call.ofJson o) (array (d.calls.map Call.toJson)).written = .ok d.calls :=
    asList_ok fun c _ => Call.ofJson_toJson o c
  let words : Draft :=
    { name := some d.name, description := some d.description, version := some d.version }
  let fields := d.own.jsonFields.map fun (key, j) => (key, j.written)
  have hkept (categories : Option (List Category)) (calls : Option (List Call)) :
      foldFields (Draft.field o) { words with categories, calls } fields =
        .ok { words with categories, calls, kept := fields } := by
    refine foldFields_kept (fun kept => ({ words with categories, calls, kept } : Draft)) ?_
      d.own.kept_jsonFields []
    intro kept key j hkey hreadable
    simp only [List.mem_cons, List.not_mem_nil, or_false] at hkey
    rcases hkey with rfl | rfl | rfl <;> simp [Draft.field, Json.keep, hreadable, Except.map]
  have hrest : foldFields (Draft.field o) { words with categories := listed d.categories }
      (fieldUnless d.calls.isEmpty "calls" (array (d.calls.map Call.toJson)).written ++ fields) =
      .ok { words with categories := listed d.categories, calls := listed d.calls, kept := fields } :=
    (foldFields_optional (fun calls => ({ words with categories := listed d.categories, calls } : Draft))
      (isMisnamed_array _) (map_once_ok hcalls _) fields).trans (hkept _ _)
  have hfold : foldFields (Draft.field o) words
      (fieldUnless d.categories.isEmpty "categories" (array (d.categories.map Category.toJson)).written ++
        (fieldUnless d.calls.isEmpty "calls" (array (d.calls.map Call.toJson)).written ++ fields)) =
      taken (d.categories.all (·.slots.isFinite) && true)
        { words with categories := listed d.categories, calls := listed d.calls, kept := fields } :=
    foldFields_list (fun categories => ({ words with categories } : Draft))
      (map_once hcategories _) hrest
  have hfinish : Draft.finish
      { words with categories := listed d.categories, calls := listed d.calls, kept := fields } =
      taken d.own.isFinite d := by
    simp only [Draft.finish, getD_listed]
    change (Interface.ofFields fields >>= fun own => _) = _
    rw [Interface.ofFields_jsonFields h.own]
    cases d.own.isFinite <;> rfl
  simp only [toJson, written_object, List.map_append, List.map_cons, map_fieldUnless, ofJson,
    List.cons_append, List.nil_append, List.append_assoc]
  rw [foldFields_step rfl rfl, foldFields_step rfl rfl, foldFields_step rfl rfl, hfold, Bool.and_true,
    isFinite]
  cases d.categories.all (·.slots.isFinite) with
  | true => exact hfinish
  | false => rfl

theorem plain_toJson (depth : Nat) (d : Definition) : Plain (depth + 7) d.toJson := by
  refine .object ?_
  simp only [List.forall_mem_append, List.forall_mem_cons]
  have hcategories : Plain (depth + 6) (array (d.categories.map Category.toJson)) :=
    .array (List.forall_mem_map.mpr fun c _ => c.plain_toJson depth)
  have hcalls : Plain (depth + 6) (array (d.calls.map Call.toJson)) :=
    .array (List.forall_mem_map.mpr fun c _ => c.plain_toJson (depth + 2))
  exact ⟨⟨⟨⟨.text _ _, .text _ _, .text _ _, fun _ h => absurd h List.not_mem_nil⟩,
    forall_mem_fieldUnless hcategories⟩, forall_mem_fieldUnless hcalls⟩,
    d.own.plain_jsonFields (depth + 2)⟩

end Definition

/-- A category with a name reads back from its document, unless a double in it is not finite. -/
theorem Category.ofText_toText {c : Category} (h : c.slots.Sound) (hname : Text.isBlank c.name = false) :
    ofText c.toText =
      if c.slots.isFinite then .ok c else .error (.malformed (.document .form)) := by
  have hplain : Plain maxDepth c.toJson := c.plain_toJson 122
  simp only [ofText, toText, hplain.decode_pretty, ofJson_toJson h]
  cases c.slots.isFinite with
  | true => simp only [taken_true, checkName_eq_ok_iff.mpr hname, if_true]
  | false => rfl

/-- A definition that passes its check reads back from its document, unless a double in it is not
finite. -/
theorem Definition.ofText_toText {d : Definition} (h : d.Sound) (hd : d.validate = .ok ()) :
    ofText d.toText = if d.isFinite then .ok d else .error (.malformed (.document .form)) := by
  have hplain : Plain maxDepth d.toJson := d.plain_toJson 120
  simp only [ofText, toText, hplain.decode_pretty, ofJson_toJson .direct h]
  cases d.isFinite with
  | true => simp only [taken_true, hd, if_true]
  | false => rfl

/-- Definitions and categories with finite doubles survive their documents: what is written reads back as
the very same definition or category, down to the order of everything in it and the bits of its values. -/
theorem documents_survive :
    (∀ d : Definition, d.Sound → d.validate = .ok () →
      (∀ kind, ∀ s ∈ d.effective kind, s.value.isFinite = true) →
      Definition.ofText d.toText = .ok d) ∧
    (∀ c : Category, c.slots.Sound → Text.isBlank c.name = false →
      (∀ kind, ∀ s ∈ c.slots.slots kind, s.value.isFinite = true) →
      Category.ofText c.toText = .ok c) := by
  refine ⟨fun d h hd hfinite => ?_, fun c h hname hfinite => ?_⟩
  · rw [Definition.ofText_toText h hd, Definition.isFinite_iff.mpr hfinite, if_pos rfl]
  · rw [Category.ofText_toText h hname, Interface.isFinite_iff.mpr hfinite, if_pos rfl]

def heating : Category :=
  { name := "heating"
    version := "2"
    slots := { outputs := [⟨"warmth", .double, .double (.signed true 0), true⟩] } }

def stove : Definition :=
  { name := "stove"
    description := "keeps a \"room\" warm"
    categories := [heating]
    calls := [{ name := "glow", arguments := [⟨"seconds", .integer⟩] }]
    own :=
      { inputs := [⟨"wish", .double, .double .one, false⟩]
        parameters := [⟨"curve", .data, .data [0, 255], false⟩] } }

theorem stove_survives :
    heating.slots.Sound ∧ stove.Sound ∧ stove.validate = .ok () ∧
      Definition.ofText stove.toText = .ok stove ∧ Category.ofText heating.toText = .ok heating := by
  have hheating : heating.slots.Sound := by
    refine ⟨fun kind s hs => ?_, fun kind => by cases kind <;> decide⟩
    cases kind <;> simp [heating, Interface.slots] at hs
    subst hs
    exact ⟨by decide, rfl⟩
  have hstove : stove.Sound := by
    refine ⟨⟨fun kind s hs => ?_, fun kind => by cases kind <;> decide⟩, ?_⟩
    · cases kind <;> simp [stove, Interface.slots] at hs
      all_goals
        subst hs
        exact ⟨by decide, rfl⟩
    · exact List.forall_mem_singleton.mpr hheating
  have hvalid : stove.validate = .ok () := by decide
  refine ⟨hheating, hstove, hvalid, documents_survive.1 stove hstove hvalid ?_,
    documents_survive.2 heating hheating (by decide) ?_⟩
  · intro kind
    cases kind <;> decide
  · intro kind
    cases kind <;> decide

end Patchbay
