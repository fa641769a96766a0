import Patchbay.Proofs.Reading

/-!
# Views of the effective set

The effective set is put together as a table, and the definition has look-ups and lists of its own for it,
which go through its own slots and then through the categories. They show the same set as soon as there is
a table, which is as soon as no name is declared twice within a kind. Nothing else is asked of the
definition: it need not have passed its check.
-/

namespace Patchbay

/-- If the blocks of a concatenation share nothing, a member singles out its block. -/
theorem filter_of_nodup_flatMap {α β : Type} {l : List α} {f : α → List β} (h : (l.flatMap f).Nodup)
    {p : α → Bool} {x : β} (hp : ∀ a, p a = true ↔ x ∈ f a) {a : α} (ha : a ∈ l) (hx : x ∈ f a) :
    l.filter p = [a] := by
  induction l with
  | nil => exact absurd ha List.not_mem_nil
  | cons b rest ih =>
    rw [List.flatMap_cons, List.nodup_append] at h
    obtain ⟨_, hrest, hapart⟩ := h
    by_cases hb : x ∈ f b
    · have hnone : ∀ c ∈ rest, ¬p c = true := fun c hc hpc =>
        hapart x hb x (List.mem_flatMap.mpr ⟨c, hc, (hp c).mp hpc⟩) rfl
      have hfirst : a = b := by
        refine (List.mem_cons.mp ha).resolve_right fun hlater => ?_
        exact hnone a hlater ((hp a).mpr hx)
      rw [List.filter_cons_of_pos ((hp b).mpr hb), List.filter_eq_nil_iff.mpr hnone, hfirst]
    · have hlater : a ∈ rest := by
        refine (List.mem_cons.mp ha).resolve_left fun hfirst => ?_
        exact hb (hfirst ▸ hx)
      rw [List.filter_cons_of_neg fun hpb => hb ((hp b).mp hpb), ih hrest hlater]

namespace Interface

theorem mem_ofKind {ts : List (SlotKind × Slot)} {kind : SlotKind} {s : Slot} :
    s ∈ ofKind ts kind ↔ (kind, s) ∈ ts := by
  simp only [ofKind, List.mem_map, List.mem_filter, beq_iff_eq]
  constructor
  · rintro ⟨⟨k, t⟩, ⟨ht, rfl⟩, rfl⟩
    exact ht
  · exact fun hs => ⟨(kind, s), ⟨hs, rfl⟩, rfl⟩

/-- No pair of kind and name comes up twice if no name does within a kind. -/
theorem nodup_kinds_names {ts : List (SlotKind × Slot)} :
    (ts.map fun t => (t.1, t.2.name)).Nodup ↔ ∀ kind, ((ofKind ts kind).map (·.name)).Nodup := by
  induction ts with
  | nil => simp [ofKind]
  | cons t rest ih =>
    obtain ⟨k, s⟩ := t
    have hsplit (kind : SlotKind) : ofKind ((k, s) :: rest) kind =
        ofKind [(k, s)] kind ++ ofKind rest kind := ofKind_append [(k, s)] rest kind
    have hself : (k, s.name) ∈ rest.map (fun t => (t.1, t.2.name)) ↔
        s.name ∈ (ofKind rest k).map (·.name) := by
      simp only [List.mem_map, mem_ofKind, Prod.exists, Prod.mk.injEq]
      constructor
      · rintro ⟨_, u, hu, rfl, hname⟩
        exact ⟨u, hu, hname⟩
      · rintro ⟨u, hu, hname⟩
        exact ⟨k, u, hu, rfl, hname⟩
    rw [List.map_cons, List.nodup_cons, hself, ih]
    constructor
    · rintro ⟨hnew, hrest⟩ kind
      rw [hsplit]
      by_cases hk : kind = k
      · subst hk
        rw [ofKind_singleton_self]
        exact List.nodup_cons.mpr ⟨hnew, hrest kind⟩
      · rw [ofKind_singleton_of_ne hk]
        exact hrest kind
    · intro hall
      refine ⟨?_, fun kind => ?_⟩
      · have hk := hall k
        rw [hsplit, ofKind_singleton_self] at hk
        exact (List.nodup_cons.mp hk).1
      · have hkind := hall kind
        rw [hsplit, List.map_append] at hkind
        exact (List.nodup_append.mp hkind).2.1

end Interface

namespace Definition
open Interface

/-- Kind and name of everything the definition declares, itself and through its categories. -/
def declaredNames (d : Definition) : List (SlotKind × String) :=
  (d.own.all ++ d.categories.flatMap fun c => c.slots.all).map fun t => (t.1, t.2.name)

theorem ofKind_declared (d : Definition) (kind : SlotKind) :
    ofKind (d.own.all ++ d.categories.flatMap fun c => c.slots.all) kind = d.effective kind := by
  have hcategories (cs : List Category) : ofKind (cs.flatMap fun c => c.slots.all) kind =
      cs.flatMap fun c => c.slots.slots kind := by
    induction cs with
    | nil => rfl
    | cons c rest ih => rw [List.flatMap_cons, List.flatMap_cons, ofKind_append, ofKind_all, ih]
  rw [ofKind_append, ofKind_all, hcategories]
  rfl

theorem nodup_declaredNames {d : Definition} :
    d.declaredNames.Nodup ↔ ∀ kind, ((d.effective kind).map (·.name)).Nodup := by
  rw [declaredNames, nodup_kinds_names]
  simp only [ofKind_declared]

theorem exists_interface_iff {d : Definition} (hown : ∀ kind, (d.own.names kind).Nodup) :
    (∃ table, d.interface = .ok table) ↔ d.declaredNames.Nodup := by
  rw [nodup_declaredNames]
  refine ⟨?_, exists_addCategories⟩
  rintro ⟨table, htable⟩ kind
  rw [← slots_interface htable]
  exact nodup_addCategories htable hown kind

theorem names_effective (d : Definition) (kind : SlotKind) : (d.effective kind).map (·.name) =
    d.own.names kind ++ d.categories.flatMap fun c => c.slots.names kind := by
  rw [effective, List.map_append, List.map_flatMap]
  rfl

section Contributor
variable {d : Definition} {kind : SlotKind} {name : String}

theorem contributor?_eq_head? (d : Definition) (kind : SlotKind) (name : String) :
    d.contributor? kind name =
      (d.categories.filter (·.slots.contains kind name)).head?.map (·.name) := by
  rw [List.head?_filter]
  rfl

/-- A name that a category declares is declared by no other category, and not by the definition itself. -/
theorem filter_contains (h : ((d.effective kind).map (·.name)).Nodup) {c : Category}
    (hc : c ∈ d.categories) (hname : c.slots.contains kind name = true) :
    d.categories.filter (·.slots.contains kind name) = [c] ∧ d.own.contains kind name = false := by
  rw [names_effective, List.nodup_append] at h
  obtain ⟨_, hcategories, hapart⟩ := h
  have hmem : name ∈ c.slots.names kind := contains_iff_mem_names.mp hname
  refine ⟨filter_of_nodup_flatMap hcategories (fun _ => contains_iff_mem_names) hc hmem, ?_⟩
  rw [Bool.eq_false_iff, Ne, contains_iff_mem_names]
  exact fun hown => hapart name hown name (List.mem_flatMap.mpr ⟨c, hc, hmem⟩) rfl

theorem exists_of_contributor? {c : String} (h : d.contributor? kind name = some c) :
    ∃ category ∈ d.categories, category.slots.contains kind name = true ∧ category.name = c := by
  obtain ⟨category, hfound, rfl⟩ := Option.map_eq_some_iff.mp h
  exact ⟨category, List.mem_of_find?_eq_some hfound,
    List.find?_some (p := fun x : Category => x.slots.contains kind name) hfound, rfl⟩

/-- What is in the effective set and not a slot of the definition's own comes from a category. -/
theorem exists_contributor?_iff (h : ((d.effective kind).map (·.name)).Nodup) :
    (∃ c, d.contributor? kind name = some c) ↔
      name ∈ (d.effective kind).map (·.name) ∧ d.own.contains kind name = false := by
  rw [names_effective, List.mem_append, List.mem_flatMap]
  constructor
  · rintro ⟨c, hc⟩
    obtain ⟨category, hmem, hname, _⟩ := exists_of_contributor? hc
    exact ⟨.inr ⟨category, hmem, contains_iff_mem_names.mp hname⟩, (filter_contains h hmem hname).2⟩
  · rintro ⟨hname, hforeign⟩
    rw [Bool.eq_false_iff, Ne, contains_iff_mem_names] at hforeign
    obtain ⟨category, hmem, hname⟩ := hname.resolve_left hforeign
    refine ⟨category.name, ?_⟩
    rw [contributor?_eq_head?, (filter_contains h hmem (contains_iff_mem_names.mpr hname)).1]
    rfl

end Contributor

/-- The table of the effective set shows what the definition's own look-ups and lists show. -/
structure Views (d : Definition) (table : Interface) : Prop where
  lookup : ∀ kind name, table.find? kind name = d.find? kind name
  listing : ∀ kind, d.effective kind = table.slots kind
  once : ∀ kind, (table.names kind).Nodup
  contributed : ∀ kind name, (∃ c, d.contributor? kind name = some c) ↔
    table.contains kind name = true ∧ d.own.contains kind name = false
  contributor : ∀ kind name c, d.contributor? kind name = some c →
    ∃ category, d.categories.filter (·.slots.contains kind name) = [category] ∧ category.name = c

theorem views_of_interface {d : Definition} (hown : ∀ kind, (d.own.names kind).Nodup)
    {table : Interface} (h : d.interface = .ok table) : d.Views table := by
  have honce : ∀ kind, (table.names kind).Nodup := nodup_addCategories h hown
  have hnames : ∀ kind, ((d.effective kind).map (·.name)).Nodup := by
    intro kind
    rw [← slots_interface h]
    exact honce kind
  refine ⟨find?_interface h, fun kind => (slots_interface h kind).symm, honce, ?_, ?_⟩
  · intro kind name
    rw [exists_contributor?_iff (hnames kind), ← slots_interface h, contains_iff_mem_names]
    rfl
  · intro kind name c hc
    obtain ⟨category, hmem, hname, hcategory⟩ := exists_of_contributor? hc
    exact ⟨category, (filter_contains (hnames kind) hmem hname).1, hcategory⟩

/-- There is a table of the effective set if and only if no name is declared twice within a kind, and then
every view of the effective set agrees with it. The check of a definition comes to a name, distinct names
of categories and calls, sound calls, and such a table. Of the definition it is only asked that its own
slots are an interface, as they are in whatever is read, checked or not. -/
theorem views_agree {d : Definition} (hown : ∀ kind, (d.own.names kind).Nodup) :
    ((∃ table, d.interface = .ok table) ↔ d.declaredNames.Nodup) ∧
    (∀ table, d.interface = .ok table → d.Views table) ∧
    (d.validate = .ok () ↔
      Text.isBlank d.name = false ∧ (d.categories.map (·.name)).Nodup ∧
      (d.calls.map (·.name)).Nodup ∧
      (∀ c ∈ d.calls, Text.isBlank c.name = false ∧
        (∀ a ∈ c.arguments, Text.isBlank a.name = false) ∧ (c.arguments.map (·.name)).Nodup) ∧
      ∃ table, d.interface = .ok table) := by
  refine ⟨exists_interface_iff hown, fun table => views_of_interface hown, ?_⟩
  rw [validate_eq_ok, check_eq_ok_iff]
  simp only [Call.check_eq_ok_iff]
  tauto

/-- A lamp that nobody has named. It is read, and does not pass its check. -/
def anonymous : Definition :=
  { name := " "
    categories := [{ name := "switch", slots := { inputs := [⟨"on", .bool, .bool false, false⟩] } }]
    own := { outputs := [⟨"on", .bool, .bool false, false⟩] } }

def anonymousTable : Interface :=
  { inputs := [⟨"on", .bool, .bool false, false⟩], outputs := [⟨"on", .bool, .bool false, false⟩] }

theorem anonymous_views :
    (∀ kind, (anonymous.own.names kind).Nodup) ∧
      ofJson .direct anonymous.toJson = .ok anonymous ∧ anonymous.validate ≠ .ok () ∧
      anonymous.declaredNames = [(.output, "on"), (.input, "on")] ∧
      anonymous.interface = .ok anonymousTable ∧ anonymous.Views anonymousTable := by
  have hread : ofJson .direct anonymous.toJson = .ok anonymous := by rfl
  have hown := (sound_of_ofJson hread).own.distinct
  have htable : anonymous.interface = .ok anonymousTable := by rfl
  obtain ⟨_, hviews, hvalid⟩ := views_agree hown
  refine ⟨hown, hread, fun h => ?_, by rfl, htable, hviews _ htable⟩
  have hblank : Text.isBlank anonymous.name = true := by decide
  rw [hvalid, hblank] at h
  exact Bool.noConfusion h.1

end Definition

end Patchbay
