import Mathlib.Data.List.Nodup
import Patchbay.Proofs.Registry

/-!
# Coherent definitions

What `Definition.check` and the way interfaces are put together come to, said of the definition as it
stands: it has a name, its categories and calls are distinct, the calls are sound, and the effective set
names no slot twice within a kind. The editing operations keep this, and a definition that is read or
given has it as soon as it passes the check.
-/

namespace Patchbay

/-- Names that are distinct and not among those seen before. -/
def Unseen (seen names : List String) : Prop :=
  names.Nodup ∧ ∀ name ∈ names, name ∉ seen

theorem unseen_cons {seen names : List String} {name : String} :
    Unseen seen (name :: names) ↔ name ∉ seen ∧ Unseen (name :: seen) names := by
  simp only [Unseen, List.nodup_cons, List.mem_cons, not_or, forall_eq_or_imp]
  constructor
  · rintro ⟨⟨hnew, hrest⟩, hname, hseen⟩
    exact ⟨hname, hrest, fun other hother => ⟨fun heq => hnew (heq ▸ hother), hseen other hother⟩⟩
  · rintro ⟨hname, hrest, hseen⟩
    have hnew : name ∉ names := fun hmem => (hseen name hmem).1 rfl
    exact ⟨⟨hnew, hrest⟩, hname, fun other hother => (hseen other hother).2⟩

theorem unseen_nil_iff {names : List String} : Unseen [] names ↔ names.Nodup := by
  simp [Unseen]

namespace Interface

/-- The slots of one kind among slots of all kinds. -/
def ofKind (ts : List (SlotKind × Slot)) (kind : SlotKind) : List Slot :=
  (ts.filter (·.1 == kind)).map (·.2)

theorem ofKind_append (ts us : List (SlotKind × Slot)) (kind : SlotKind) :
    ofKind (ts ++ us) kind = ofKind ts kind ++ ofKind us kind := by
  simp only [ofKind]
  rw [List.filter_append, List.map_append]

theorem ofKind_singleton_self (kind : SlotKind) (s : Slot) : ofKind [(kind, s)] kind = [s] := by
  simp [ofKind]

theorem ofKind_singleton_of_ne {k kind : SlotKind} (h : k ≠ kind) (s : Slot) :
    ofKind [(kind, s)] k = [] := by
  simp [ofKind, Ne.symm h]

theorem ofKind_map (ss : List Slot) (k kind : SlotKind) :
    ofKind (ss.map (k, ·)) kind = if k = kind then ss else [] := by
  induction ss with
  | nil => simp [ofKind]
  | cons s rest ih =>
    have hsplit : ofKind ((s :: rest).map (k, ·)) kind =
        ofKind [(k, s)] kind ++ ofKind (rest.map (k, ·)) kind := ofKind_append [(k, s)] _ kind
    rw [hsplit, ih]
    by_cases hk : k = kind
    · subst hk
      rw [ofKind_singleton_self, if_pos rfl, if_pos rfl]
      rfl
    · rw [ofKind_singleton_of_ne (Ne.symm hk), if_neg hk, if_neg hk]
      rfl

theorem ofKind_all (i : Interface) (kind : SlotKind) : ofKind i.all kind = i.slots kind := by
  simp only [all, SlotKind.all, List.flatMap_cons, List.flatMap_nil, List.append_nil, ofKind_append,
    ofKind_map]
  cases kind <;> simp

theorem ofKind_map_slots (f : SlotKind → Slot → Slot) (ts : List (SlotKind × Slot)) (kind : SlotKind) :
    ofKind (ts.map fun t => (t.1, f t.1 t.2)) kind = (ofKind ts kind).map (f kind) := by
  induction ts with
  | nil => rfl
  | cons t rest ih =>
    obtain ⟨k, s⟩ := t
    simp only [ofKind, List.map_cons, List.filter_cons] at ih ⊢
    split
    · rename_i hk
      rw [List.map_cons, List.map_cons, List.map_cons, ih, beq_iff_eq.mp hk]
    · exact ih

theorem slots_insert {i after : Interface} {kind : SlotKind} {s : Slot}
    (h : i.insert kind s = .ok after) (k : SlotKind) :
    after.slots k = i.slots k ++ ofKind [(kind, s)] k := by
  obtain ⟨_, rfl⟩ := insert_eq_ok h
  by_cases hk : k = kind
  · subst hk
    rw [slots_withSlots_self, ofKind_singleton_self]
  · rw [slots_withSlots_of_ne hk, ofKind_singleton_of_ne hk, List.append_nil]

theorem insert_of_not_mem {i : Interface} {kind : SlotKind} {s : Slot} (h : s.name ∉ i.names kind) :
    ∃ after, i.insert kind s = .ok after := by
  have hfree : i.contains kind s.name = false :=
    Bool.eq_false_iff.mpr fun hc => h (contains_iff_mem_names.mp hc)
  simp only [insert, hfree, Bool.false_eq_true, if_false]
  exact ⟨_, rfl⟩

/-- Where no name comes up twice, a slot is found under its name. -/
theorem find?_name_of_nodup {ss : List Slot} (h : (ss.map (·.name)).Nodup) {s : Slot} (hs : s ∈ ss) :
    ss.find? (·.name == s.name) = some s := by
  cases hfound : ss.find? (·.name == s.name) with
  | none => exact absurd (beq_self_eq_true s.name) (List.find?_eq_none.mp hfound s hs)
  | some t =>
    have hname : (t.name == s.name) = true :=
      List.find?_some (p := fun t : Slot => t.name == s.name) hfound
    exact congrArg some
      (List.inj_on_of_nodup_map h (List.mem_of_find?_eq_some hfound) hs (beq_iff_eq.mp hname))

theorem Sound.find?_of_mem {i : Interface} (h : i.Sound) {kind : SlotKind} {s : Slot}
    (hs : s ∈ i.slots kind) : i.find? kind s.name = some s :=
  find?_name_of_nodup (h.distinct kind) hs

end Interface

namespace Call

theorem checkArguments_eq_ok_iff {seen : List String} {arguments : List Argument} :
    checkArguments seen arguments = .ok () ↔
      (∀ a ∈ arguments, Text.isBlank a.name = false) ∧ Unseen seen (arguments.map (·.name)) := by
  induction arguments generalizing seen with
  | nil => simp [checkArguments, Unseen]
  | cons a rest ih =>
    rw [List.forall_mem_cons, List.map_cons, unseen_cons]
    cases hname : checkName a.name with
    | error fault =>
      have hblank : Text.isBlank a.name ≠ false := by
        intro hnamed
        rw [checkName_eq_ok_iff.mpr hnamed] at hname
        cases hname
      simp only [checkArguments, hname, reduceCtorEq, hblank, false_and]
    | ok _ =>
      simp only [checkArguments, hname, checkName_eq_ok_iff.mp hname, true_and]
      by_cases hseen : a.name ∈ seen
      · simp [hseen]
      · rw [if_neg hseen, ih]
        simp only [hseen, not_false_eq_true, true_and]

theorem check_eq_ok_iff {c : Call} : c.check = .ok () ↔ Text.isBlank c.name = false ∧
    (∀ a ∈ c.arguments, Text.isBlank a.name = false) ∧ (c.arguments.map (·.name)).Nodup := by
  rw [← unseen_nil_iff, ← checkArguments_eq_ok_iff]
  simp only [check]
  cases hname : checkName c.name with
  | error fault =>
    have hblank : Text.isBlank c.name ≠ false := by
      intro hnamed
      rw [checkName_eq_ok_iff.mpr hnamed] at hname
      cases hname
    simp only [reduceCtorEq, hblank, false_and]
  | ok _ => simp only [checkName_eq_ok_iff.mp hname, true_and]

theorem check_addArgument {c after : Call} (h : c.check = .ok ()) {name : String} {type : ValueType}
    (hadd : c.addArgument name type = .ok after) : after.name = c.name ∧ after.check = .ok () := by
  simp only [addArgument] at hadd
  split at hadd
  · cases hadd
  · rename_i hname
    split at hadd
    · cases hadd
    · rename_i hfree
      cases hadd
      obtain ⟨hcall, harguments, hdistinct⟩ := check_eq_ok_iff.mp h
      refine ⟨rfl, check_eq_ok_iff.mpr ⟨hcall, ?_, ?_⟩⟩
      · intro a ha
        rcases List.mem_append.mp ha with hold | hnew
        · exact harguments a hold
        · rw [List.mem_singleton.mp hnew]
          exact checkName_eq_ok_iff.mp hname
      · exact nodup_map_snoc hdistinct (Bool.eq_false_iff.mpr hfree)

theorem check_removeArgument {c after : Call} (h : c.check = .ok ()) {name : String} {a : Argument}
    (hremove : c.removeArgument name = .ok (a, after)) :
    after.name = c.name ∧ after.check = .ok () := by
  simp only [removeArgument] at hremove
  split at hremove
  · cases hremove
    obtain ⟨hcall, harguments, hdistinct⟩ := check_eq_ok_iff.mp h
    refine ⟨rfl, check_eq_ok_iff.mpr ⟨hcall, ?_, ?_⟩⟩
    · exact fun a ha => harguments a (List.mem_of_mem_eraseP ha)
    · exact hdistinct.sublist (List.eraseP_sublist.map _)
  · cases hremove

end Call

namespace Definition
open Interface

section Effective
variable {category : String} {ts : List (SlotKind × Slot)} {i after : Interface}

theorem slots_addTemplates (h : addTemplates category ts i = .ok after) (kind : SlotKind) :
    after.slots kind = i.slots kind ++ ofKind ts kind := by
  induction ts generalizing i with
  | nil =>
    cases h
    simp [ofKind]
  | cons t rest ih =>
    obtain ⟨k, s⟩ := t
    simp only [addTemplates] at h
    split at h
    · rename_i next hinsert
      have hsplit : ofKind ((k, s) :: rest) kind = ofKind [(k, s)] kind ++ ofKind rest kind :=
        ofKind_append [(k, s)] rest kind
      rw [ih h, slots_insert hinsert, hsplit, List.append_assoc]
    · cases h

theorem nodup_addTemplates (h : addTemplates category ts i = .ok after)
    (hi : ∀ kind, (i.names kind).Nodup) (kind : SlotKind) : (after.names kind).Nodup := by
  induction ts generalizing i with
  | nil =>
    cases h
    exact hi kind
  | cons t rest ih =>
    simp only [addTemplates] at h
    split at h
    · rename_i next hinsert
      exact ih h (nodup_insert hi hinsert)
    · cases h

/-- Slots are taken in one after the other as long as no name comes up twice. -/
theorem exists_addTemplates (category : String)
    (h : ∀ kind, ((i.slots kind ++ ofKind ts kind).map (·.name)).Nodup) :
    ∃ after, addTemplates category ts i = .ok after := by
  induction ts generalizing i with
  | nil => exact ⟨i, rfl⟩
  | cons t rest ih =>
    obtain ⟨k, s⟩ := t
    have hsplit (kind : SlotKind) :
        ofKind ((k, s) :: rest) kind = ofKind [(k, s)] kind ++ ofKind rest kind :=
      ofKind_append [(k, s)] rest kind
    have hfree : s.name ∉ i.names k := by
      have hk := h k
      rw [hsplit, ofKind_singleton_self] at hk
      exact not_mem_map_of_nodup hk List.mem_cons_self
    obtain ⟨next, hinsert⟩ := insert_of_not_mem hfree
    have hnext : ∀ kind, ((next.slots kind ++ ofKind rest kind).map (·.name)).Nodup := by
      intro kind
      rw [slots_insert hinsert, List.append_assoc, ← hsplit]
      exact h kind
    simp only [addTemplates, hinsert]
    exact ih hnext

end Effective

section Categories
variable {cs : List Category} {i after : Interface}

theorem slots_addCategories (h : addCategories cs i = .ok after) (kind : SlotKind) :
    after.slots kind = i.slots kind ++ cs.flatMap fun c => c.slots.slots kind := by
  induction cs generalizing i with
  | nil =>
    cases h
    simp
  | cons c rest ih =>
    simp only [addCategories] at h
    split at h
    · rename_i next hadd
      rw [ih h, slots_addTemplates hadd, ofKind_all, List.flatMap_cons, List.append_assoc]
    · cases h

theorem nodup_addCategories (h : addCategories cs i = .ok after) (hi : ∀ kind, (i.names kind).Nodup)
    (kind : SlotKind) : (after.names kind).Nodup := by
  induction cs generalizing i with
  | nil =>
    cases h
    exact hi kind
  | cons c rest ih =>
    simp only [addCategories] at h
    split at h
    · rename_i next hadd
      exact ih h (nodup_addTemplates hadd hi)
    · cases h

theorem exists_addCategories
    (h : ∀ kind, ((i.slots kind ++ cs.flatMap fun c => c.slots.slots kind).map (·.name)).Nodup) :
    ∃ after, addCategories cs i = .ok after := by
  induction cs generalizing i with
  | nil => exact ⟨i, rfl⟩
  | cons c rest ih =>
    have hfirst : ∀ kind, ((i.slots kind ++ ofKind c.slots.all kind).map (·.name)).Nodup := by
      intro kind
      have hkind := h kind
      rw [List.flatMap_cons, ← List.append_assoc, List.map_append, List.nodup_append] at hkind
      rw [ofKind_all]
      exact hkind.1
    obtain ⟨next, hadd⟩ := exists_addTemplates c.name hfirst
    have hnext : ∀ kind,
        ((next.slots kind ++ rest.flatMap fun c => c.slots.slots kind).map (·.name)).Nodup := by
      intro kind
      rw [slots_addTemplates hadd, ofKind_all, List.append_assoc]
      exact h kind
    simp only [addCategories, hadd]
    exact ih hnext

end Categories

/-- The interface of a definition holds its effective set. -/
theorem slots_interface {d : Definition} {i : Interface} (h : d.interface = .ok i) (kind : SlotKind) :
    i.slots kind = d.effective kind :=
  slots_addCategories h kind

theorem find?_eq_effective (d : Definition) (kind : SlotKind) (name : String) :
    d.find? kind name = (d.effective kind).find? (·.name == name) := by
  rw [find?_eq_or, effective, List.find?_append, List.find?_flatMap]
  rfl

theorem checkCategories_eq_ok_iff {seen : List String} {cs : List Category} :
    checkCategories seen cs = .ok () ↔ Unseen seen (cs.map (·.name)) := by
  induction cs generalizing seen with
  | nil => simp [checkCategories, Unseen]
  | cons c rest ih =>
    rw [List.map_cons, unseen_cons]
    simp only [checkCategories]
    by_cases hseen : c.name ∈ seen
    · simp [hseen]
    · rw [if_neg hseen, ih]
      simp only [hseen, not_false_eq_true, true_and]

theorem checkCalls_eq_ok_iff {seen : List String} {cs : List Call} :
    checkCalls seen cs = .ok () ↔
      (∀ c ∈ cs, c.check = .ok ()) ∧ Unseen seen (cs.map (·.name)) := by
  induction cs generalizing seen with
  | nil => simp [checkCalls, Unseen]
  | cons c rest ih =>
    rw [List.forall_mem_cons, List.map_cons, unseen_cons]
    simp only [checkCalls]
    cases hcheck : c.check with
    | error fault => simp only [reduceCtorEq, false_and]
    | ok _ =>
      simp only [true_and]
      by_cases hseen : c.name ∈ seen
      · simp [hseen]
      · rw [if_neg hseen, ih]
        simp only [hseen, not_false_eq_true, true_and]

/-- The interfaces of the definition were put together by declaring slots. -/
structure Sound (d : Definition) : Prop where
  own : d.own.Sound
  categories : ∀ c ∈ d.categories, c.slots.Sound

structure Coherent (d : Definition) : Prop where
  named : Text.isBlank d.name = false
  categories : (d.categories.map (·.name)).Nodup
  calls : ∀ c ∈ d.calls, c.check = .ok ()
  callNames : (d.calls.map (·.name)).Nodup
  names : ∀ kind, ((d.effective kind).map (·.name)).Nodup
  valid : ∀ kind, ∀ s ∈ d.effective kind, s.Valid

theorem Coherent.exists_interface {d : Definition} (h : d.Coherent) : ∃ i, d.interface = .ok i :=
  exists_addCategories h.names

theorem check_eq_ok_iff {d : Definition} : d.check = .ok () ↔
    Text.isBlank d.name = false ∧ (d.categories.map (·.name)).Nodup ∧
      ((∀ c ∈ d.calls, c.check = .ok ()) ∧ (d.calls.map (·.name)).Nodup) ∧
      ∃ table, d.interface = .ok table := by
  rw [← unseen_nil_iff, ← unseen_nil_iff, ← checkCategories_eq_ok_iff, ← checkCalls_eq_ok_iff]
  constructor
  · intro h
    have hnamed : Text.isBlank d.name = false := by
      by_contra hblank
      rw [Bool.not_eq_false] at hblank
      simp only [Definition.check, if_pos hblank] at h
      cases h
    simp only [Definition.check, hnamed, Bool.false_eq_true, if_false] at h
    obtain ⟨_, hcategories, h⟩ := of_bind_eq_ok h
    obtain ⟨_, hcalls, h⟩ := of_bind_eq_ok h
    obtain ⟨table, htable, _⟩ := of_bind_eq_ok h
    exact ⟨hnamed, hcategories, hcalls, table, htable⟩
  · rintro ⟨hnamed, hcategories, hcalls, table, htable⟩
    simp only [Definition.check, hnamed, hcategories, hcalls, htable]
    rfl

theorem validate_eq_ok {d : Definition} : d.validate = .ok () ↔ d.check = .ok () := by
  simp only [Definition.validate]
  cases d.check with
  | error why => simp [Except.mapError]
  | ok _ => simp [Except.mapError]

theorem Coherent.validate {d : Definition} (h : d.Coherent) : d.validate = .ok () :=
  validate_eq_ok.mpr
    (check_eq_ok_iff.mpr ⟨h.named, h.categories, ⟨h.calls, h.callNames⟩, h.exists_interface⟩)

theorem validate_eq_ok_iff {d : Definition} (hd : d.Sound) : d.validate = .ok () ↔ d.Coherent := by
  refine ⟨fun h => ?_, Coherent.validate⟩
  obtain ⟨hnamed, hcategories, ⟨hcalls, hcallNames⟩, table, htable⟩ :=
    check_eq_ok_iff.mp (validate_eq_ok.mp h)
  refine ⟨hnamed, hcategories, hcalls, hcallNames, fun kind => ?_, fun kind s hs => ?_⟩
  · rw [← slots_interface htable]
    exact nodup_addCategories htable hd.own.distinct kind
  · rcases List.mem_append.mp hs with hown | hcategory
    · exact hd.own.valid kind s hown
    · obtain ⟨c, hc, hs⟩ := List.mem_flatMap.mp hcategory
      exact (hd.categories c hc).valid kind s hs

theorem Coherent.sound {d : Definition} (h : d.Coherent) : d.Sound := by
  have hnames (kind : SlotKind) {slots : List Slot} (hslots : slots.Sublist (d.effective kind)) :
      (slots.map (·.name)).Nodup := (h.names kind).sublist (hslots.map _)
  refine ⟨⟨fun kind s hs => ?_, fun kind => ?_⟩, fun c hc => ⟨fun kind s hs => ?_, fun kind => ?_⟩⟩
  · exact h.valid kind s (List.mem_append_left _ hs)
  · exact hnames kind (List.sublist_append_left _ _)
  · exact h.valid kind s (List.mem_append_right _ (List.mem_flatMap.mpr ⟨c, hc, hs⟩))
  · have htemplates : (c.slots.slots kind).Sublist (d.categories.flatMap fun c => c.slots.slots kind) :=
      List.sublist_flatten_of_mem (List.mem_map_of_mem hc)
    exact hnames kind (htemplates.trans (List.sublist_append_right _ _))

section Edit
variable {d after : Definition}

theorem mem_names_iff {kind : SlotKind} {name : String} :
    name ∈ (d.effective kind).map (·.name) ↔ (d.find? kind name).isSome := by
  rw [find?_eq_effective, List.find?_isSome]
  simp only [List.mem_map, beq_iff_eq]

theorem Coherent.find?_of_mem (h : d.Coherent) {kind : SlotKind} {s : Slot}
    (hs : s ∈ d.effective kind) : d.find? kind s.name = some s := by
  rw [find?_eq_effective]
  exact find?_name_of_nodup (h.names kind) hs

theorem effective_own (d : Definition) (own : Interface) (kind : SlotKind) :
    ({ d with own } : Definition).effective kind =
      own.slots kind ++ d.categories.flatMap fun c => c.slots.slots kind := rfl

theorem find?_eq_none_of_addSlot {kind : SlotKind} {s : Slot} (hadd : d.addSlot kind s = .ok after) :
    d.find? kind s.name = none := by
  simp only [addSlot] at hadd
  split at hadd
  · cases hadd
  · rename_i hfree
    obtain ⟨own, hown, _⟩ := of_map_eq_ok hadd
    rw [find?_eq_or, find?_eq_none_iff.mpr (insert_eq_ok hown).1, Option.none_or]
    exact findSome?_eq_none_of_contributor? (by simpa using hfree)

theorem Coherent.addSlot (h : d.Coherent) {kind : SlotKind} {s : Slot} (hs : s.Valid)
    (hadd : d.addSlot kind s = .ok after) : after.Coherent := by
  have hnew : s.name ∉ (d.effective kind).map (·.name) := by
    rw [mem_names_iff, find?_eq_none_of_addSlot hadd]
    exact Bool.false_ne_true
  simp only [Definition.addSlot] at hadd
  split at hadd
  · cases hadd
  · obtain ⟨own, hown, rfl⟩ := of_map_eq_ok hadd
    -- the new slot stands in the middle, after the own slots and before those of the categories
    have hperm (k : SlotKind) : (({ d with own } : Definition).effective k).Perm
        (ofKind [(kind, s)] k ++ d.effective k) := by
      rw [effective_own, slots_insert hown, Definition.effective, List.append_assoc, ← List.append_assoc]
      exact (List.perm_append_comm.append_right _).trans (List.append_assoc _ _ _ ▸ .refl _)
    refine ⟨h.named, h.categories, h.calls, h.callNames, ?_, ?_⟩
    · intro k
      rw [((hperm k).map _).nodup_iff]
      by_cases hk : k = kind
      · subst hk
        rw [ofKind_singleton_self]
        exact List.nodup_cons.mpr ⟨hnew, h.names k⟩
      · rw [ofKind_singleton_of_ne hk]
        exact h.names k
    · intro k t ht
      rcases List.mem_append.mp ((hperm k).mem_iff.mp ht) with hlast | hold
      · by_cases hk : k = kind
        · subst hk
          rw [ofKind_singleton_self, List.mem_singleton] at hlast
          rw [hlast]
          exact hs
        · rw [ofKind_singleton_of_ne hk] at hlast
          exact absurd hlast List.not_mem_nil
      · exact h.valid k t hold

theorem Coherent.removeSlot (h : d.Coherent) {kind : SlotKind} {name : String} {s : Slot}
    (hremove : d.removeSlot kind name = .ok (s, after)) : after.Coherent := by
  simp only [Definition.removeSlot] at hremove
  split at hremove
  · cases hremove
  · obtain ⟨⟨t, own⟩, hown, heq⟩ := of_map_eq_ok hremove
    cases heq
    obtain ⟨_, rfl⟩ := remove_eq_ok hown
    have hsub (k : SlotKind) :
        (({ d with own := d.own.erase kind name } : Definition).effective k).Sublist
          (d.effective k) := by
      rw [effective_own]
      apply List.Sublist.append_right
      simp only [erase]
      by_cases hk : k = kind
      · subst hk
        rw [slots_withSlots_self]
        exact List.filter_sublist
      · rw [slots_withSlots_of_ne hk]
    refine ⟨h.named, h.categories, h.calls, h.callNames, ?_, ?_⟩
    · exact fun k => (h.names k).sublist ((hsub k).map _)
    · exact fun k t ht => h.valid k t ((hsub k).subset ht)

theorem addCategory_eq_ok {c : Category} (hadd : d.addCategory c = .ok after) :
    d.hasCategory c.name = false ∧ after = { d with categories := d.categories ++ [c] } := by
  simp only [addCategory] at hadd
  split at hadd
  · cases hadd
  · rename_i hfree
    split at hadd
    · cases hadd
    · cases hadd
      exact ⟨Bool.eq_false_iff.mpr hfree, rfl⟩

theorem effective_snoc (d : Definition) (c : Category) (kind : SlotKind) :
    ({ d with categories := d.categories ++ [c] } : Definition).effective kind =
      d.effective kind ++ c.slots.slots kind := by
  simp [effective]

theorem Coherent.addCategory (h : d.Coherent) {c : Category} (hc : c.slots.Sound)
    (hadd : d.addCategory c = .ok after) : after.Coherent := by
  have hnew {kind : SlotKind} {s : Slot} (hs : s ∈ c.slots.slots kind) :
      d.find? kind s.name = none := find?_eq_none_of_addCategory hadd hs
  obtain ⟨hfree, rfl⟩ := addCategory_eq_ok hadd
  refine ⟨h.named, ?_, h.calls, h.callNames, ?_, ?_⟩
  · exact nodup_map_snoc h.categories hfree
  · intro kind
    rw [effective_snoc, List.map_append, List.nodup_append]
    refine ⟨h.names kind, hc.distinct kind, ?_⟩
    intro a ha b hb hab
    obtain ⟨s, hs, rfl⟩ := List.mem_map.mp hb
    rw [hab, mem_names_iff, hnew hs] at ha
    exact Bool.false_ne_true ha
  · intro kind s hs
    rw [effective_snoc] at hs
    rcases List.mem_append.mp hs with hold | hlast
    · exact h.valid kind s hold
    · exact hc.valid kind s hlast

/-- The definition may change in its calls, if these are sound and distinct. -/
theorem Coherent.withCalls (h : d.Coherent) {calls : List Call}
    (hcalls : ∀ c ∈ calls, c.check = .ok ()) (hnames : (calls.map (·.name)).Nodup) :
    ({ d with calls } : Definition).Coherent :=
  ⟨h.named, h.categories, hcalls, hnames, h.names, h.valid⟩

theorem addCall_eq_ok {c : Call} (hadd : d.addCall c = .ok after) :
    c.check = .ok () ∧ d.hasCall c.name = false ∧ after = { d with calls := d.calls ++ [c] } := by
  simp only [addCall] at hadd
  split at hadd
  · cases hadd
  · rename_i hcheck
    split at hadd
    · cases hadd
    · rename_i hfree
      cases hadd
      exact ⟨hcheck, Bool.eq_false_iff.mpr hfree, rfl⟩

theorem Coherent.addCall (h : d.Coherent) {c : Call} (hadd : d.addCall c = .ok after) :
    after.Coherent := by
  obtain ⟨hcheck, hfree, rfl⟩ := addCall_eq_ok hadd
  apply h.withCalls
  · intro other hother
    rcases List.mem_append.mp hother with hold | hnew
    · exact h.calls other hold
    · rw [List.mem_singleton.mp hnew]
      exact hcheck
  · exact nodup_map_snoc h.callNames hfree

theorem Coherent.removeCall (h : d.Coherent) {name : String} {c : Call}
    (hremove : d.removeCall name = .ok (c, after)) : after.Coherent := by
  simp only [Definition.removeCall] at hremove
  split at hremove
  · cases hremove
    apply h.withCalls
    · exact fun other hother => h.calls other (List.mem_of_mem_eraseP hother)
    · exact h.callNames.sublist (List.eraseP_sublist.map _)
  · cases hremove

theorem names_replaceCall {name : String} {c : Call} (hname : c.name = name) (cs : List Call) :
    (replaceCall name c cs).map (·.name) = cs.map (·.name) := by
  induction cs with
  | nil => rfl
  | cons first rest ih =>
    simp only [replaceCall]
    split
    · rename_i hfirst
      rw [List.map_cons, List.map_cons, hname, beq_iff_eq.mp hfirst]
    · rw [List.map_cons, List.map_cons, ih]

theorem mem_replaceCall {name : String} {c other : Call} {cs : List Call}
    (h : other ∈ replaceCall name c cs) : other = c ∨ other ∈ cs := by
  induction cs with
  | nil => exact absurd h List.not_mem_nil
  | cons first rest ih =>
    simp only [replaceCall] at h
    split at h
    · exact (List.mem_cons.mp h).imp id (List.mem_cons_of_mem first)
    · rcases List.mem_cons.mp h with hfirst | hrest
      · exact .inr (hfirst ▸ List.mem_cons_self)
      · exact (ih hrest).imp id (List.mem_cons_of_mem first)

/-- A call is changed in place, and its name is not. -/
theorem Coherent.updateCall (h : d.Coherent) {name : String} {change : Call → Except Fault Call}
    (hchange : ∀ c next, c.check = .ok () → change c = .ok next →
      next.name = c.name ∧ next.check = .ok ())
    (hupdate : d.updateCall name change = .ok after) : after.Coherent := by
  simp only [Definition.updateCall] at hupdate
  split at hupdate
  · rename_i c hfound
    obtain ⟨next, hnext, rfl⟩ := of_map_eq_ok hupdate
    have hname : (c.name == name) = true :=
      List.find?_some (p := fun c : Call => c.name == name) hfound
    obtain ⟨hsame, hcheck⟩ := hchange c next (h.calls c (List.mem_of_find?_eq_some hfound)) hnext
    apply h.withCalls
    · intro other hother
      rcases mem_replaceCall hother with hlast | hold
      · rw [hlast]
        exact hcheck
      · exact h.calls other hold
    · rw [names_replaceCall (hsame.trans (beq_iff_eq.mp hname))]
      exact h.callNames
  · cases hupdate

theorem Coherent.addArgument (h : d.Coherent) {call argument : String} {type : ValueType}
    (hadd : d.addArgument call argument type = .ok after) : after.Coherent :=
  h.updateCall (fun _ _ hc hnext => Call.check_addArgument hc hnext) hadd

theorem Coherent.removeArgument (h : d.Coherent) {call argument : String}
    (hremove : d.removeArgument call argument = .ok after) : after.Coherent := by
  refine h.updateCall (fun c next hc hnext => ?_) hremove
  obtain ⟨⟨a, rest⟩, hdone, rfl⟩ := of_map_eq_ok hnext
  exact Call.check_removeArgument hc hdone

theorem coherent_bare {name : String} (h : checkName name = .ok ()) :
    ({ name } : Definition).Coherent := by
  refine ⟨checkName_eq_ok_iff.mp h, List.nodup_nil, ?_, List.nodup_nil, ?_, ?_⟩
  · exact fun c hc => absurd hc List.not_mem_nil
  · intro kind
    cases kind <;> exact List.nodup_nil
  · intro kind s hs
    cases kind <;> exact absurd hs List.not_mem_nil

end Edit

end Definition

end Patchbay
