import Patchbay.Proofs.Interface
import Patchbay.Registry

/-!
# What the registry stores

Writing, clearing and muting a slot leave all declared types as they are, and no other slot changes.
Declaring the slots of a sound interface one after the other cannot fail halfway, provided that none
of them is there already.
-/

namespace Patchbay

/-- What holds of every interface that was put together by declaring slots. -/
structure Interface.Sound (i : Interface) : Prop where
  valid : ∀ kind, ∀ s ∈ i.slots kind, s.Valid
  distinct : ∀ kind, (i.names kind).Nodup

namespace Interface

theorem sound_empty : ({} : Interface).Sound := by
  refine ⟨?_, ?_⟩
  · intro kind s hs
    cases kind <;> exact absurd hs List.not_mem_nil
  · intro kind
    cases kind <;> exact List.nodup_nil

theorem nodup_insert {i after : Interface} {kind : SlotKind} {s : Slot}
    (h : ∀ kind, (i.names kind).Nodup) (hinsert : i.insert kind s = .ok after) (k : SlotKind) :
    (after.names k).Nodup := by
  obtain ⟨hfree, rfl⟩ := insert_eq_ok hinsert
  simp only [names]
  by_cases hk : k = kind
  · subst hk
    rw [slots_withSlots_self]
    exact nodup_map_snoc (h k) hfree
  · rw [slots_withSlots_of_ne hk]
    exact h k

theorem Sound.insert {i after : Interface} (h : i.Sound) (kind : SlotKind) {s : Slot} (hs : s.Valid)
    (hinsert : i.insert kind s = .ok after) : after.Sound := by
  refine ⟨?_, nodup_insert h.distinct hinsert⟩
  obtain ⟨_, rfl⟩ := insert_eq_ok hinsert
  intro k t ht
  by_cases hk : k = kind
  · subst hk
    rw [slots_withSlots_self] at ht
    rcases List.mem_append.mp ht with hold | hlast
    · exact h.valid k t hold
    · rw [List.mem_singleton.mp hlast]
      exact hs
  · rw [slots_withSlots_of_ne hk] at ht
    exact h.valid k t ht

theorem type?_replace {i : Interface} {kind : SlotKind} {s t : Slot} {name : String}
    (hs : i.find? kind name = some s) (hname : t.name = s.name) (htype : t.type = s.type)
    (k : SlotKind) (n : String) : (i.replace kind t).type? k n = i.type? k n := by
  simp only [type?]
  rw [find?_replace]
  split
  · rename_i hkn
    obtain ⟨rfl, rfl⟩ := hkn
    rw [hname, name_of_find? hs, hs]
    exact congrArg some htype
  · rfl

theorem pairwise_all {i : Interface} (h : i.Sound) :
    i.all.Pairwise fun a b => ¬(a.1 = b.1 ∧ a.2.name = b.2.name) := by
  have hkind (kind : SlotKind) : ((i.slots kind).map (kind, ·)).Pairwise
      fun a b => ¬(a.1 = b.1 ∧ a.2.name = b.2.name) := by
    rw [List.pairwise_map]
    exact (List.pairwise_map.mp (h.distinct kind)).imp fun hne he => hne he.2
  simp only [all]
  rw [List.pairwise_flatMap]
  refine ⟨fun kind _ => hkind kind, ?_⟩
  have hkinds : SlotKind.all.Pairwise (· ≠ ·) := by decide
  refine hkinds.imp ?_
  intro k k' hk a ha b hb he
  obtain ⟨_, _, rfl⟩ := List.mem_map.mp ha
  obtain ⟨_, _, rfl⟩ := List.mem_map.mp hb
  exact hk he.1

end Interface

namespace Slot

theorem write_eq_ok {s t : Slot} {v : Value} (h : s.write v = .ok t) :
    v.type = s.type ∧ t = { s with value := v } := by
  simp only [write] at h
  split at h
  · rename_i htype
    cases h
    exact ⟨htype, rfl⟩
  · cases h

/-- The slot as it is when it is declared anew. -/
def unmuted (s : Slot) : Slot := { s with muted := false }

end Slot

namespace Registry
open Interface
variable {ρ : Type}

theorem write_eq_ok {r after : Registry ρ} {kind : SlotKind} {name : String} {v : Value}
    {n : Notification ρ} (h : r.write kind name v = .ok (after, n)) :
    ∃ s, r.find? kind name = some s ∧ v.type = s.type ∧
      after = { r with table := r.table.replace kind { s with value := v } } ∧
      n = after.notification kind name := by
  simp only [write] at h
  split at h
  · cases h
  · rename_i hupdate
    cases h
    obtain ⟨s, hs, hwrite, rfl⟩ := update_eq_ok hupdate
    obtain ⟨htype, rfl⟩ := Slot.write_eq_ok hwrite
    exact ⟨s, hs, htype, rfl, rfl⟩

theorem write_of_find? {r : Registry ρ} {kind : SlotKind} {name : String} {v : Value} {s : Slot}
    (hs : r.find? kind name = some s) (htype : v.type = s.type) :
    ∃ after n, r.write kind name v = .ok (after, n) := by
  have hget : r.table.get kind name = .ok s := by
    simp only [Interface.get]
    rw [show r.table.find? kind name = some s from hs]
  have hupdate : r.table.update kind name (·.write v) =
      .ok ({ s with value := v }, r.table.replace kind { s with value := v }) := by
    simp only [Interface.update, hget, Slot.write, htype, if_true, bind, Except.bind, pure,
      Except.pure]
  simp only [write]
  rw [hupdate]
  exact ⟨_, _, rfl⟩

theorem type?_write {r after : Registry ρ} {kind : SlotKind} {name : String} {v : Value}
    {n : Notification ρ} (h : r.write kind name v = .ok (after, n)) (k : SlotKind) (m : String) :
    after.table.type? k m = r.table.type? k m := by
  obtain ⟨s, hs, _, rfl, _⟩ := write_eq_ok h
  exact type?_replace (t := { s with value := v }) hs rfl rfl k m

theorem writeAs_eq_ok {r : Registry ρ} {kind : SlotKind} {name : String} {v : Value}
    {done : Registry ρ × Notification ρ} (h : r.writeAs kind name v = .ok done) :
    ∃ type w, r.type kind name = .ok type ∧ v.convert type = .ok w ∧
      r.write kind name w = .ok done := by
  obtain ⟨type, htype, h⟩ := of_bind_eq_ok h
  obtain ⟨w, hw, h⟩ := of_bind_eq_ok h
  exact ⟨type, w, htype, hw, h⟩

theorem map_update_eq_ok {r after : Registry ρ} {kind : SlotKind} {name : String}
    {change : Slot → Except Fault Slot}
    (h : ((r.table.update kind name change).map fun done => { r with table := done.2 }) = .ok after) :
    ∃ s t, r.table.find? kind name = some s ∧ change s = .ok t ∧
      after = { r with table := r.table.replace kind t } := by
  obtain ⟨⟨t, table⟩, hupdate, rfl⟩ := of_map_eq_ok h
  obtain ⟨s, hs, hchange, rfl⟩ := update_eq_ok hupdate
  exact ⟨s, t, hs, hchange, rfl⟩

theorem type?_clear {r after : Registry ρ} {kind : SlotKind} {name : String}
    (h : r.clear kind name = .ok after) (k : SlotKind) (m : String) :
    after.table.type? k m = r.table.type? k m := by
  obtain ⟨s, t, hs, hclear, rfl⟩ := map_update_eq_ok h
  cases hclear
  exact type?_replace (t := s.clear) hs rfl rfl k m

theorem type?_setMuted {r after : Registry ρ} {kind : SlotKind} {name : String} {muted : Bool}
    (h : r.setMuted kind name muted = .ok after) (k : SlotKind) (m : String) :
    after.table.type? k m = r.table.type? k m := by
  obtain ⟨s, t, hs, hmute, rfl⟩ := map_update_eq_ok h
  cases hmute
  exact type?_replace (t := { s with muted }) hs rfl rfl k m

theorem slot_new_eq_ok {name : String} {type : ValueType} {s : Slot} (h : Slot.new name type = .ok s) :
    s = { name, type, value := .zero type } := by
  simp only [Slot.new] at h
  split at h <;> cases h
  rfl

theorem create_eq_ok {r after : Registry ρ} {kind : SlotKind} {name : String} {type : ValueType}
    {initial : Option Value} {s : Slot} (h : r.create kind name type initial = .ok (s, after)) :
    s.name = name ∧ s.type = type ∧ r.table.contains kind s.name = false ∧
      after = { r with table := r.table.withSlots kind (r.table.slots kind ++ [s]) } := by
  simp only [create] at h
  split at h
  · cases h
  · obtain ⟨fresh, hfresh, h⟩ := of_bind_eq_ok h
    have hfresh := slot_new_eq_ok hfresh
    have hinsert (t : Slot) (hname : t.name = name) (htype : t.type = type)
        (h : (r.table.insert kind t >>= fun table => .ok (t, { r with table })) = .ok (s, after)) :
        s.name = name ∧ s.type = type ∧ r.table.contains kind s.name = false ∧
          after = { r with table := r.table.withSlots kind (r.table.slots kind ++ [s]) } := by
      obtain ⟨table, htable, heq⟩ := of_bind_eq_ok h
      cases heq
      obtain ⟨hfree, rfl⟩ := insert_eq_ok htable
      exact ⟨hname, htype, hfree, rfl⟩
    cases initial with
    | none => exact hinsert fresh (hfresh ▸ rfl) (hfresh ▸ rfl) h
    | some v =>
      obtain ⟨t, hwrite, h⟩ := of_bind_eq_ok h
      obtain ⟨_, rfl⟩ := Slot.write_eq_ok hwrite
      exact hinsert _ (hfresh ▸ rfl) (hfresh ▸ rfl) h

theorem find?_create {r after : Registry ρ} {kind : SlotKind} {name : String} {type : ValueType}
    {initial : Option Value} {s : Slot} (h : r.create kind name type initial = .ok (s, after))
    (k : SlotKind) (n : String) :
    after.table.find? k n = if k = kind ∧ n = name then some s else r.table.find? k n := by
  obtain ⟨hname, _, hfree, rfl⟩ := create_eq_ok h
  rw [← hname]
  exact find?_append r.table kind k s n hfree

theorem create_of_valid {r : Registry ρ} {kind : SlotKind} {s : Slot} (hs : s.Valid)
    (hfree : r.table.contains kind s.name = false) :
    ∃ after, r.create kind s.name s.type (some s.value) = .ok (s.unmuted, after) := by
  have hname : checkName s.name = .ok () := checkName_eq_ok_iff.mpr hs.named
  simp only [create]
  simp only [hfree, Bool.false_eq_true, if_false, Slot.new, hname, Slot.write, hs.typed, if_true,
    Interface.insert, bind, Except.bind, pure, Except.pure]
  exact ⟨_, rfl⟩

/-- All slots are declared, each with its type and value and not muted, and no other changes. -/
theorem createAll_spec {ts : List (SlotKind × Slot)} {r : Registry ρ}
    (hvalid : ∀ t ∈ ts, t.2.Valid) (hfree : ∀ t ∈ ts, r.table.contains t.1 t.2.name = false)
    (hdistinct : ts.Pairwise fun a b => ¬(a.1 = b.1 ∧ a.2.name = b.2.name)) :
    ∃ after, createAll ts r = (after, .ok ()) ∧ ∀ kind name,
      after.find? kind name = (r.find? kind name).or ((findIn ts kind name).map Slot.unmuted) := by
  induction ts generalizing r with
  | nil => exact ⟨r, rfl, fun kind name => by simp [findIn]⟩
  | cons t rest ih =>
    obtain ⟨k, s⟩ := t
    obtain ⟨hs, hrest⟩ := List.forall_mem_cons.mp hvalid
    obtain ⟨hk, hfree⟩ := List.forall_mem_cons.mp hfree
    obtain ⟨hne, hdistinct⟩ := List.pairwise_cons.mp hdistinct
    obtain ⟨next, hcreate⟩ := create_of_valid hs hk
    have hnext : ∀ t ∈ rest, next.table.contains t.1 t.2.name = false := by
      intro t ht
      rw [← find?_eq_none_iff, find?_create hcreate, if_neg fun he => hne t ht ⟨he.1.symm, he.2.symm⟩]
      exact find?_eq_none_iff.mpr (hfree t ht)
    obtain ⟨after, hall, hslots⟩ := ih hrest hnext hdistinct
    refine ⟨after, ?_, fun kind name => ?_⟩
    · simp only [createAll, hcreate]
      exact hall
    · rw [hslots, findIn_cons]
      simp only [find?]
      rw [find?_create hcreate]
      by_cases hkn : kind = k ∧ name = s.name
      · obtain ⟨rfl, rfl⟩ := hkn
        simp [find?_eq_none_iff.mpr hk]
      · simp [hkn]

theorem remove_of_type? {r : Registry ρ} {kind : SlotKind} {name : String}
    (h : (r.table.type? kind name).isSome = true) :
    ∃ s, r.remove kind name = .ok (s, { r with table := r.table.erase kind name }) := by
  simp only [type?] at h
  rw [Option.isSome_map] at h
  obtain ⟨s, hs⟩ := Option.isSome_iff_exists.mp h
  refine ⟨s, ?_⟩
  simp only [remove, Interface.remove, Interface.get]
  rw [hs]
  rfl

end Registry

end Patchbay
