import Mathlib.Data.List.Perm.Subperm
import Patchbay.Proofs.Alike
import Patchbay.Proofs.Coherent

/-!
# Definitions that are as good as each other

A definition that a peer announces again is not taken up anew if it is the same as the one that is known,
where neither the order of slots within a kind nor the sign of zero is heeded. What a rule comes to does
not tell such definitions apart: it depends on the declared types and on the templates of categories by
name and type alone, and `Definition.Akin` is agreement in these.
-/

namespace Patchbay
open Interface Keyed Ordered

namespace Interface

/-- A look-up shows of a slot what equality heeds: as many slots with distinct names as there are on the
other side leave no name out. -/
theorem map_find?_of_same {β : Type} {f : Slot → β} (hf : ∀ s t : Slot, s.same t = true → f s = f t)
    {a b : Interface} (ha : a.Sound) (h : a.same b = true) (kind : SlotKind) (name : String) :
    (a.find? kind name).map f = (b.find? kind name).map f := by
  have hkind := List.all_eq_true.mp h kind (SlotKind.mem_all kind)
  rw [Bool.and_eq_true, beq_iff_eq, List.all_eq_true] at hkind
  obtain ⟨hlength, hall⟩ := hkind
  have hfound {s : Slot} (hs : s ∈ a.slots kind) : ∃ t, b.find? kind s.name = some t ∧ f s = f t := by
    obtain ⟨t, ht, hsame⟩ := (Option.any_eq_true _ _).mp (hall s hs)
    exact ⟨t, ht, hf s t hsame⟩
  cases hname : a.find? kind name with
  | some s =>
    obtain ⟨t, ht, heq⟩ := hfound (List.mem_of_find?_eq_some hname)
    rw [name_of_find? hname] at ht
    simp only [ht, Option.map_some, heq]
  | none =>
    have hsub : a.names kind ⊆ b.names kind := by
      intro n hn
      obtain ⟨s, hs, rfl⟩ := List.mem_map.mp hn
      obtain ⟨t, ht, _⟩ := hfound hs
      exact List.mem_map.mpr ⟨t, List.mem_of_find?_eq_some ht, name_of_find? ht⟩
    have hperm : (a.names kind).Perm (b.names kind) := by
      apply (List.subperm_of_subset (ha.distinct kind) hsub).perm_of_length_le
      simp only [names, List.length_map, hlength, Nat.le_refl]
    have hfree : b.find? kind name = none := by
      rw [find?_eq_none_iff] at hname ⊢
      rw [Bool.eq_false_iff, Ne, contains_iff_mem_names] at hname ⊢
      exact fun hmem => hname (hperm.mem_iff.mpr hmem)
    simp only [hfree, Option.map_none]

end Interface

namespace Definition

/-- The definitions declare the same slots with the same types, and adopt categories of the same names
whose templates have the same names and types. -/
structure Akin (a b : Definition) : Prop where
  types : ∀ kind name, (a.find? kind name).map (·.type) = (b.find? kind name).map (·.type)
  templates : ∀ category,
    (a.category? category).map (·.slots.type?) = (b.category? category).map (·.slots.type?)

theorem Akin.refl (a : Definition) : a.Akin a :=
  ⟨fun _ _ => rfl, fun _ => rfl⟩

theorem Akin.symm {a b : Definition} (h : a.Akin b) : b.Akin a :=
  ⟨fun kind name => (h.types kind name).symm, fun category => (h.templates category).symm⟩

theorem Akin.trans {a b c : Definition} (h : a.Akin b) (h' : b.Akin c) : a.Akin c :=
  ⟨fun kind name => (h.types kind name).trans (h'.types kind name),
    fun category => (h.templates category).trans (h'.templates category)⟩

theorem forall₂_of_same {R : Category → Category → Prop}
    (hR : ∀ x y : Category, x.slots.Sound → x.same y = true → R x y) {xs ys : List Category}
    (hxs : ∀ c ∈ xs, c.slots.Sound) (hlength : xs.length = ys.length)
    (hall : (xs.zip ys).all (fun (x, y) => x.same y) = true) : List.Forall₂ R xs ys := by
  induction xs generalizing ys with
  | nil =>
    cases ys with
    | nil => exact .nil
    | cons y ys => cases hlength
  | cons x xs ih =>
    cases ys with
    | nil => cases hlength
    | cons y ys =>
      obtain ⟨hx, hxs⟩ := List.forall_mem_cons.mp hxs
      rw [List.zip_cons_cons, List.all_cons, Bool.and_eq_true] at hall
      exact .cons (hR x y hx hall.1) (ih hxs (Nat.succ.inj hlength) hall.2)

theorem name_of_find? {d : Definition} {kind : SlotKind} {name : String} {s : Slot}
    (h : d.find? kind name = some s) : s.name = name := by
  rw [find?_eq_effective] at h
  have hname : (s.name == name) = true := List.find?_some (p := fun t : Slot => t.name == name) h
  exact beq_iff_eq.mp hname

/-- Whether the templates of a category are there depends on declared types alone. -/
theorem satisfies_iff {d : Definition} {c : Category} {scope : Scope} : d.satisfies c scope = true ↔
    ∀ kind ∈ scope.kinds, ∀ t ∈ c.slots.slots kind, (d.find? kind t.name).map (·.type) = some t.type := by
  simp only [satisfies, List.all_eq_true]
  refine forall₂_congr fun kind _ => forall₂_congr fun t _ => ?_
  rw [Option.any_eq_true, Option.map_eq_some_iff]
  refine exists_congr fun s => and_congr_right fun hs => ?_
  simp only [Slot.fits, name_of_find? hs, beq_self_eq_true, Bool.true_and, beq_iff_eq]

theorem satisfies_outputs_iff {d : Definition} {c : Category} : d.satisfies c .outputs = true ↔
    ∀ t ∈ c.slots.slots .output, (d.find? .output t.name).map (·.type) = some t.type := by
  rw [satisfies_iff, Scope.kinds, List.forall_mem_singleton]

theorem Akin.satisfies_congr {a b : Definition} (h : a.Akin b) {c d : Category}
    (hmembers : ∀ name type, (∃ t ∈ c.slots.slots .output, t.name = name ∧ t.type = type) ↔
      ∃ t ∈ d.slots.slots .output, t.name = name ∧ t.type = type) :
    a.satisfies c .outputs = b.satisfies d .outputs := by
  rw [Bool.eq_iff_iff, satisfies_outputs_iff, satisfies_outputs_iff]
  constructor
  · intro hall t ht
    obtain ⟨u, hu, hname, htype⟩ := (hmembers t.name t.type).mpr ⟨t, ht, rfl, rfl⟩
    rw [← h.types, ← hname, ← htype]
    exact hall u hu
  · intro hall t ht
    obtain ⟨u, hu, hname, htype⟩ := (hmembers t.name t.type).mp ⟨t, ht, rfl, rfl⟩
    rw [h.types, ← hname, ← htype]
    exact hall u hu

end Definition

namespace Ordered
variable {α : Type} [Keyed α]

/-- If no key is given to two records, all that are put in are there. -/
theorem mem_ofList_of_unique {l : List α} (h : ∀ x ∈ l, ∀ y ∈ l, key x = key y → x = y) {x : α} :
    x ∈ (ofList l).toList ↔ x ∈ l := by
  refine ⟨mem_of_mem_ofList, fun hx => ?_⟩
  have hkeys : ∀ (l : List α) (o : Ordered α), (x ∈ l ∨ x ∈ o.toList) →
      (∀ y ∈ l, key x = key y → x = y) → x ∈ (l.foldl insert o).toList := by
    intro l
    induction l with
    | nil => exact fun o hx _ => hx.resolve_left List.not_mem_nil
    | cons y rest ih =>
      intro o hx hunique
      obtain ⟨hy, hrest⟩ := List.forall_mem_cons.mp hunique
      refine ih (o.insert y) ?_ hrest
      rcases hx with hx | hx
      · rcases List.mem_cons.mp hx with rfl | hx
        · exact .inr (mem_insert.mpr (.inl rfl))
        · exact .inl hx
      · refine .inr (mem_insert.mpr ?_)
        by_cases hkey : key x = key y
        · exact .inl (hy hkey)
        · exact .inr ⟨hx, hkey⟩
  exact hkeys l empty (.inl hx) (h x hx)

end Ordered

theorem Links.ext_of {ls ls' : Links} (h : ∀ agent, ls.of agent = ls'.of agent) : ls = ls' := by
  apply ext_mem
  intro l
  have hiff : l ∈ (ls.of l.agent).toList ↔ l ∈ (ls'.of l.agent).toList := by rw [h]
  rw [Links.mem_of, Links.mem_of] at hiff
  simpa using hiff

namespace Scene

/-- To an output, and to a category that is known locally, the links of a peer depend on its declared types
alone. -/
theorem peerLinks_of_types (scene : Scene) {target : Target}
    (hknown : ∀ category, target = .category category → (scene.catalog.find? category).isSome = true)
    (agent : String) {a b : Definition}
    (h : ∀ kind name, (a.find? kind name).map (·.type) = (b.find? kind name).map (·.type)) :
    scene.peerLinks target ⟨agent, a⟩ = scene.peerLinks target ⟨agent, b⟩ := by
  cases target with
  | output input output =>
    have hlink : scene.link? ⟨agent, a⟩ output input = scene.link? ⟨agent, b⟩ output input := by
      rw [link?_eq, link?_eq]
      refine congrArg _ (funext fun type => ?_)
      have hmap := congrArg (Option.map fun remote =>
        (⟨agent, output, input, .ofTypes remote type⟩ : Link)) (h .output output)
      rw [Option.map_map, Option.map_map] at hmap
      exact hmap
    simp only [peerLinks, hlink]
  | category category =>
    obtain ⟨c, hc⟩ := Option.isSome_iff_exists.mp (hknown category rfl)
    have hsat : a.satisfies c .outputs = b.satisfies c .outputs := by
      rw [Bool.eq_iff_iff, Definition.satisfies_outputs_iff, Definition.satisfies_outputs_iff]
      simp only [h]
    simp only [peerLinks, categoryLinks, template?, hc, hsat]
    rfl

/-- Scenes that know the same agents, each of which gives the target of a rule the same links, give the rule
the same links. -/
theorem links_of_peers {S T : Scene} (hinputs : S.inputs = T.inputs) (hcatalog : S.catalog = T.catalog)
    {r : Rule} (h : ∀ agent, Option.Rel (fun a b => Ordered.ofList (T.peerLinks r.target ⟨agent, a⟩) =
      Ordered.ofList (T.peerLinks r.target ⟨agent, b⟩)) (S.peers.find? agent) (T.peers.find? agent)) :
    S.links r = T.links r := by
  apply Links.ext_of
  intro agent
  have hlinks : S.peerLinks r.target = T.peerLinks r.target :=
    funext (peerLinks_congr (fun input => by rw [hinputs]) hcatalog r.target)
  have hagent := h agent
  rw [links_of, links_of, hlinks]
  generalize S.peers.find? agent = x at hagent ⊢
  generalize T.peers.find? agent = y at hagent ⊢
  cases hagent with
  | none => rfl
  | some hsame =>
    simp only [Option.map_some, Option.toList_some, List.filter_cons, List.filter_nil]
    split
    · simpa using hsame
    · rfl

end Scene

end Patchbay
