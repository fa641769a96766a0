import Patchbay.Proofs.Operation

/-!
# Identifiers of entries

Identifiers count up: no two entries of a wiring have the same one, and the next is greater than all that
were ever given, whether their entries are still there or not. Only adding a rule and loading a mapping
give any. A mapping that is loaded lays out entries that were there among new ones, and what carries the
induction is that no entry is laid out twice, as none of them shares its rule with another.
-/

namespace Patchbay

variable {ρ ν : Type}

namespace Wiring

theorem ids_cutWhere (w : Wiring) (p : Entry → Bool) :
    (w.cutWhere p).entries.map (·.id) = w.entries.map (·.id) :=
  map_entries_cutWhere (fun _ => rfl) w p

theorem nextId_remove {w after : Wiring} {id : Nat} {changes : List Change}
    (h : w.remove id = .ok (after, changes)) : after.nextId = w.nextId := by
  simp only [remove] at h
  split at h
  · cases h
    rfl
  · cases h

section LayOut
variable {previous : List Entry}

/-- Entries are laid out so far under distinct identifiers, all of them less than the next. -/
structure Laid (previous done : List Entry) (nextId : Nat) : Prop where
  distinct : (done.map (·.id)).Nodup
  below : ∀ e ∈ done ++ previous, e.id < nextId
  origin : ∀ e ∈ done, e ∈ previous ∨ ∀ other ∈ previous, other.id ≠ e.id

theorem Laid.keep {done : List Entry} {nextId : Nat} (h : Laid previous done nextId)
    (hprevious : (previous.map (·.id)).Nodup) {e : Entry} (he : e ∈ previous)
    (hnew : (done.any (·.rule == e.rule)) = false) : Laid previous (done ++ [e]) nextId := by
  have hfree : (done.any fun other => other.id == e.id) = false := by
    refine List.any_eq_false.mpr fun other hother hid => ?_
    have hid := beq_iff_eq.mp hid
    -- An entry that was there has this identifier only if it is `e`, whose rule would be laid out then.
    rcases h.origin other hother with hold | hfresh
    · obtain rfl := List.inj_on_of_nodup_map hprevious hold he hid
      exact List.any_eq_false.mp hnew other hother (beq_self_eq_true _)
    · exact hfresh e he hid.symm
  refine ⟨nodup_map_snoc h.distinct hfree, ?_, ?_⟩
  · intro x hx
    apply h.below
    simp only [List.mem_append, List.mem_singleton] at hx ⊢
    rcases hx with (hx | rfl) | hx
    · exact .inl hx
    · exact .inr he
    · exact .inr hx
  · intro x hx
    rcases List.mem_append.mp hx with hx | hx
    · exact h.origin x hx
    · exact .inl (List.mem_singleton.mp hx ▸ he)

theorem Laid.fresh {done : List Entry} {nextId : Nat} (h : Laid previous done nextId) (r : Rule) :
    Laid previous (done ++ [.fresh nextId r]) (nextId + 1) := by
  have hfree : (done.any fun other => other.id == nextId) = false := by
    refine List.any_eq_false.mpr fun other hother hid => ?_
    have hlt := h.below other (List.mem_append_left _ hother)
    exact absurd (beq_iff_eq.mp hid) (Nat.ne_of_lt hlt)
  refine ⟨nodup_map_snoc h.distinct hfree, ?_, ?_⟩
  · intro x hx
    simp only [List.mem_append, List.mem_singleton] at hx
    rcases hx with (hx | rfl) | hx
    · exact Nat.lt_succ_of_lt (h.below x (List.mem_append_left _ hx))
    · exact Nat.lt_succ_self nextId
    · exact Nat.lt_succ_of_lt (h.below x (List.mem_append_right _ hx))
  · intro x hx
    rcases List.mem_append.mp hx with hx | hx
    · exact h.origin x hx
    · rw [List.mem_singleton.mp hx]
      exact .inr fun other hother => Nat.ne_of_lt (h.below other (List.mem_append_right _ hother))

theorem laid_layOut (hprevious : (previous.map (·.id)).Nodup) (rules : List Rule) {done : List Entry}
    {nextId : Nat} (h : Laid previous done nextId) :
    nextId ≤ (layOut previous rules done nextId).2 ∧
      Laid previous (layOut previous rules done nextId).1 (layOut previous rules done nextId).2 := by
  induction rules generalizing done nextId with
  | nil => exact ⟨Nat.le_refl nextId, h⟩
  | cons r rest ih =>
    simp only [layOut]
    split
    · exact ih h
    · rename_i hnew
      split
      · rename_i e hfound
        obtain ⟨he, rfl⟩ := rule_of_find? hfound
        exact ih (h.keep hprevious he (Bool.eq_false_iff.mpr hnew))
      · obtain ⟨hle, hlaid⟩ := ih (h.fresh r)
        exact ⟨Nat.le_of_succ_le hle, hlaid⟩

end LayOut

/-- Entries have identifiers of their own, less than the one that will be given next. -/
structure Identified (w : Wiring) : Prop where
  distinct : (w.entries.map (·.id)).Nodup
  below : ∀ e ∈ w.entries, e.id < w.nextId

theorem identified_new : ({} : Wiring).Identified :=
  ⟨List.nodup_nil, fun _ he => absurd he List.not_mem_nil⟩

namespace Identified
variable {w after : Wiring} (h : w.Identified)
include h

theorem eq_of_id_eq {e other : Entry} (he : e ∈ w.entries) (hother : other ∈ w.entries)
    (hid : e.id = other.id) : e = other :=
  List.inj_on_of_nodup_map h.distinct he hother hid

theorem of_sublist (hentries : (after.entries.map (·.id)).Sublist (w.entries.map (·.id)))
    (hnext : after.nextId = w.nextId) : after.Identified := by
  refine ⟨h.distinct.sublist hentries, fun e he => ?_⟩
  obtain ⟨old, hold, hid⟩ := List.mem_map.mp (hentries.subset (List.mem_map_of_mem he))
  rw [hnext, ← hid]
  exact h.below old hold

theorem add {inputs : Interface} {r : Rule} {id : Nat} (hadd : w.add inputs r = .ok (id, after)) :
    w.nextId ≤ after.nextId ∧ after.Identified := by
  simp only [Wiring.add] at hadd
  split at hadd
  · cases hadd
  · split at hadd
    · cases hadd
      exact ⟨Nat.le_refl _, h⟩
    · cases hadd
      have hlaid : Laid [] w.entries w.nextId := by
        refine ⟨h.distinct, fun e he => ?_, fun e _ => .inr fun other hother => ?_⟩
        · rw [List.append_nil] at he
          exact h.below e he
        · exact absurd hother List.not_mem_nil
      obtain ⟨hdistinct, hbelow, _⟩ := hlaid.fresh r
      rw [List.append_nil] at hbelow
      exact ⟨Nat.le_succ _, hdistinct, hbelow⟩

theorem remove {id : Nat} {changes : List Change} (hremove : w.remove id = .ok (after, changes)) :
    w.nextId ≤ after.nextId ∧ after.Identified := by
  have hnext := nextId_remove hremove
  refine ⟨Nat.le_of_eq hnext.symm, h.of_sublist ?_ hnext⟩
  rw [entries_remove hremove]
  exact List.filter_sublist.map _

theorem cutWhere (p : Entry → Bool) : (w.cutWhere p).Identified :=
  h.of_sublist (ids_cutWhere w p ▸ List.Sublist.refl _) rfl

theorem load {inputs : Interface} {m : Mapping} {changes : List Change}
    (hload : w.load inputs m = .ok (after, changes)) : w.nextId ≤ after.nextId ∧ after.Identified := by
  obtain ⟨_, rfl⟩ := load_eq_ok hload
  have hcut := h.cutWhere fun e => !m.rules.contains e.rule
  have hstart : Laid (w.cutWhere fun e => !m.rules.contains e.rule).entries [] w.nextId :=
    ⟨List.nodup_nil, hcut.below, fun e he => absurd he List.not_mem_nil⟩
  obtain ⟨hle, hdistinct, hbelow, _⟩ := laid_layOut hcut.distinct m.rules hstart
  exact ⟨hle, hdistinct, fun e he => hbelow e (List.mem_append_left _ he)⟩

theorem resolve (scene : Scene) : (w.resolve scene).1.Identified := by
  refine h.of_sublist ?_ rfl
  change ((w.entries.map (Entry.resolve scene)).map (·.id)).Sublist _
  rw [List.map_map]
  exact .refl _

theorem apply (step : Step) : w.nextId ≤ (step.apply w).1.nextId ∧ (step.apply w).1.Identified :=
  Step.apply_cases (P := fun after _ => w.nextId ≤ after.nextId ∧ after.Identified)
    ⟨Nat.le_refl _, h⟩ h.add h.remove
    ⟨Nat.le_refl _, List.nodup_nil, fun _ he => absurd he List.not_mem_nil⟩ h.load
    (fun scene => ⟨Nat.le_refl _, h.resolve scene⟩) step

theorem run (steps : List Step) : w.nextId ≤ (w.run steps).1.nextId ∧ (w.run steps).1.Identified := by
  induction steps generalizing w with
  | nil => exact ⟨Nat.le_refl _, h⟩
  | cons step rest ih =>
    obtain ⟨hstep, hafter⟩ := h.apply step
    obtain ⟨hrest, hfinal⟩ := ih hafter
    exact ⟨Nat.le_trans hstep hrest, hfinal⟩

end Identified

/-- Whatever identifier an entry had at any time of a run, the next one is greater. -/
theorem id_lt_of_earlier {earlier steps : List Step} (h : earlier <+: steps) {e : Entry}
    (he : e ∈ (run {} earlier).1.entries) : e.id < (run {} steps).1.nextId := by
  obtain ⟨later, rfl⟩ := h
  have hearlier := (identified_new.run earlier).2
  rw [run_append]
  exact Nat.lt_of_lt_of_le (hearlier.below e he) (hearlier.run later).1

end Wiring

end Patchbay
