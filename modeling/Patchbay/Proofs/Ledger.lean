import Mathlib.Data.List.Nodup
import Mathlib.Tactic.Tauto
import Patchbay.Proofs.Interface
import Patchbay.Proofs.Ordered
import Patchbay.Wiring.Basic

/-!
# The ledger of subscriptions

A wiring is worked on by any sequence of operations, each with local inputs or a scene of its own. At
every moment the subscribed publishers are those that links which are on read from, and the changes
reported so far account for them: none of them says what is so already, and replayed from nothing they
lead to the subscribed publishers.

What carries the induction is that no two entries have one rule. A mapping that is loaded keeps one
entry for each of its rules, so a second entry with the same rule would take its links away after the
subscriptions were brought in line.
-/

namespace Patchbay
open Keyed Ordered

theorem Publisher.key_injective (p q : Publisher) (h : key p = key q) : p = q := by
  cases p
  cases q
  cases h
  rfl

def Entry.Reads (e : Entry) (p : Publisher) : Prop :=
  ∃ l ∈ e.links.toList, l.isOn = true ∧ l.publisher = p

def Wiring.Reads (w : Wiring) (p : Publisher) : Prop :=
  ∃ e ∈ w.entries, e.Reads p

namespace Entry

theorem mem_publishers {ls : Links} {p : Publisher} :
    p ∈ ls.publishers ↔ ∃ l ∈ ls.toList, l.isOn = true ∧ l.publisher = p := by
  simp only [Links.publishers]
  simp only [List.mem_map, List.mem_filter, and_assoc]

theorem not_reads_of_unlinked {e : Entry} (h : e.links = .empty) (p : Publisher) : ¬e.Reads p := by
  intro hreads
  obtain ⟨l, hl, _⟩ := hreads
  rw [h] at hl
  exact List.not_mem_nil hl

theorem not_reads_cut (e : Entry) (p : Publisher) : ¬e.cut.Reads p :=
  not_reads_of_unlinked rfl p

end Entry

namespace Change

def publisher (c : Change) : Publisher := ⟨c.agent, c.output⟩

/-- Keeps account of the active publishers. A change that says what is so already has no place in it. -/
def replay (active : Ordered Publisher) : List Change → Option (Ordered Publisher)
  | [] => some active
  | c :: rest =>
    if active.contains (key c.publisher) = c.active then none
    else
      replay (if c.active then active.insert c.publisher else active.erase (key c.publisher)) rest

theorem replay_append (active : Ordered Publisher) (xs ys : List Change) :
    replay active (xs ++ ys) = (replay active xs).bind (replay · ys) := by
  induction xs generalizing active with
  | nil => rfl
  | cons c rest ih =>
    simp only [List.cons_append, replay]
    split
    · rfl
    · exact ih _

theorem contains_iff_mem {o : Ordered Publisher} {p : Publisher} :
    o.contains (key p) = true ↔ p ∈ o.toList := by
  rw [contains_iff]
  constructor
  · intro hreads
    obtain ⟨q, hq, hk⟩ := hreads
    exact Publisher.key_injective q p hk ▸ hq
  · intro hp
    exact ⟨p, hp, rfl⟩

theorem replay_ends {ps : List Publisher} (hn : ps.Nodup) {active : Ordered Publisher}
    (h : ∀ p ∈ ps, p ∈ active.toList) :
    ∃ after, replay active (ps.map fun p => ⟨p.agent, p.output, false⟩) = some after ∧
      ∀ q, q ∈ after.toList ↔ q ∈ active.toList ∧ q ∉ ps := by
  induction ps generalizing active with
  | nil => exact ⟨active, rfl, fun q => by simp⟩
  | cons p rest ih =>
    obtain ⟨hp, hrest⟩ := List.nodup_cons.mp hn
    have hactive : active.contains (key p) = true := contains_iff_mem.mpr (h p List.mem_cons_self)
    have hleft : ∀ q ∈ rest, q ∈ (active.erase (key p)).toList := by
      intro q hq
      refine mem_erase.mpr ⟨h q (List.mem_cons_of_mem p hq), fun hk => hp ?_⟩
      exact Publisher.key_injective q p hk ▸ hq
    obtain ⟨after, hreplay, hmem⟩ := ih hrest hleft
    refine ⟨after, ?_, fun q => ?_⟩
    · simp only [List.map_cons, replay, publisher, hactive]
      exact hreplay
    · rw [hmem, mem_erase, List.mem_cons, not_or]
      have hk : key q = key p ↔ q = p := ⟨Publisher.key_injective q p, fun e => e ▸ rfl⟩
      rw [Ne, hk, and_assoc]

theorem replay_starts {ps : List Publisher} (hn : ps.Nodup) {active : Ordered Publisher}
    (h : ∀ p ∈ ps, p ∉ active.toList) :
    ∃ after, replay active (ps.map fun p => ⟨p.agent, p.output, true⟩) = some after ∧
      ∀ q, q ∈ after.toList ↔ q ∈ active.toList ∨ q ∈ ps := by
  induction ps generalizing active with
  | nil => exact ⟨active, rfl, fun q => by simp⟩
  | cons p rest ih =>
    obtain ⟨hp, hrest⟩ := List.nodup_cons.mp hn
    have hidle : active.contains (key p) ≠ true := fun hc =>
      h p List.mem_cons_self (contains_iff_mem.mp hc)
    have hmem_insert (q : Publisher) : q ∈ (active.insert p).toList ↔ q = p ∨ q ∈ active.toList := by
      rw [mem_insert]
      by_cases hq : q = p
      · simp [hq]
      · have hk : key q ≠ key p := fun hk => hq (Publisher.key_injective q p hk)
        simp [hq, hk]
    have hleft : ∀ q ∈ rest, q ∉ (active.insert p).toList := by
      intro q hq hin
      rcases (hmem_insert q).mp hin with rfl | hin
      · exact hp hq
      · exact h q (List.mem_cons_of_mem p hq) hin
    obtain ⟨after, hreplay, hmem⟩ := ih hrest hleft
    refine ⟨after, ?_, fun q => ?_⟩
    · simp only [List.map_cons, replay, publisher, if_neg hidle]
      exact hreplay
    · rw [hmem, hmem_insert, List.mem_cons]
      tauto

end Change

theorem Ordered.nodup_toList {α : Type} [Keyed α] (o : Ordered α) : o.toList.Nodup :=
  o.ascending.imp fun hb he => hb.key_ne (congrArg key he)

namespace Wiring

theorem mem_wanted {w : Wiring} {p : Publisher} : p ∈ w.wanted.toList ↔ w.Reads p := by
  simp only [wanted]
  rw [mem_ofList_of_injective Publisher.key_injective]
  simp only [List.mem_flatMap, Entry.mem_publishers, Reads, Entry.Reads]

theorem wanted_congr {w w' : Wiring} (h : ∀ p, w.Reads p ↔ w'.Reads p) : w.wanted = w'.wanted :=
  ext_mem fun p => by rw [mem_wanted, mem_wanted, h p]

/-- A route goes through a link of its entry that is on. -/
theorem mem_routes {w : Wiring} {agent output : String} {route : Nat × String} :
    route ∈ w.routes agent output ↔ ∃ e ∈ w.entries, e.id = route.1 ∧
      ∃ l ∈ e.links.toList, l.isOn = true ∧ l.publisher = ⟨agent, output⟩ ∧ l.input = route.2 := by
  have hpublisher (l : Link) :
      l.publisher = ⟨agent, output⟩ ↔ l.agent = agent ∧ l.output = output := by
    simp [Link.publisher]
  obtain ⟨id, input⟩ := route
  simp only [routes, List.mem_flatMap, List.mem_map, List.mem_filter, Bool.and_eq_true, beq_iff_eq,
    Prod.mk.injEq, hpublisher]
  constructor
  · rintro ⟨e, he, l, ⟨hl, ⟨hon, hagent⟩, houtput⟩, hid, hinput⟩
    exact ⟨e, he, hid, l, hl, hon, ⟨hagent, houtput⟩, hinput⟩
  · rintro ⟨e, he, hid, l, hl, hon, ⟨hagent, houtput⟩, hinput⟩
    exact ⟨e, he, l, ⟨hl, ⟨hon, hagent⟩, houtput⟩, hid, hinput⟩

theorem routes_ne_nil_iff {w : Wiring} {agent output : String} :
    w.routes agent output ≠ [] ↔ w.Reads ⟨agent, output⟩ := by
  constructor
  · intro hne
    obtain ⟨route, hroute⟩ := List.exists_mem_of_ne_nil _ hne
    obtain ⟨e, he, _, l, hl, hon, hp, _⟩ := mem_routes.mp hroute
    exact ⟨e, he, l, hl, hon, hp⟩
  · intro hreads
    obtain ⟨e, he, l, hl, hon, hp⟩ := hreads
    have hroute : (e.id, l.input) ∈ w.routes agent output :=
      mem_routes.mpr ⟨e, he, rfl, l, hl, hon, hp, rfl⟩
    exact List.ne_nil_of_mem hroute

theorem mem_changesFrom {a b : Ordered Publisher} {p : Publisher} :
    p ∈ a.toList.filter (fun p => !b.toList.contains p) ↔ p ∈ a.toList ∧ p ∉ b.toList := by
  simp

theorem change_mem_changesFrom {active : Bool} {a b : Ordered Publisher} {c : Change} :
    c ∈ changesFrom active a b ↔
      c.active = active ∧ c.publisher ∈ a.toList ∧ c.publisher ∉ b.toList := by
  simp only [changesFrom]
  rw [List.mem_map]
  constructor
  · rintro ⟨p, hp, rfl⟩
    exact ⟨rfl, mem_changesFrom.mp hp⟩
  · rintro ⟨rfl, hp⟩
    exact ⟨c.publisher, mem_changesFrom.mpr hp, rfl⟩

theorem changesFrom_of_subset (active : Bool) {a b : Ordered Publisher} (h : a.toList ⊆ b.toList) :
    changesFrom active a b = [] :=
  List.eq_nil_iff_forall_not_mem.mpr fun _ hc =>
    have ⟨_, ha, hb⟩ := change_mem_changesFrom.mp hc
    hb (h ha)

/-- The changes of a pass lead from what was subscribed to what is wanted. -/
theorem replay_sync (w : Wiring) : Change.replay w.subscribed w.sync.2 = some w.wanted := by
  obtain ⟨kept, hends, hkept⟩ := Change.replay_ends (w.subscribed.nodup_toList.filter _)
    fun p hp => (mem_changesFrom (b := w.wanted).mp hp).1
  have hnew : ∀ p ∈ w.wanted.toList.filter fun p => !w.subscribed.toList.contains p,
      p ∉ kept.toList := by
    intro p hp hk
    exact (mem_changesFrom.mp hp).2 ((hkept p).mp hk).1
  obtain ⟨after, hstarts, hafter⟩ := Change.replay_starts (w.wanted.nodup_toList.filter _) hnew
  have hchanges : w.sync.2 =
      changesFrom false w.subscribed w.wanted ++ changesFrom true w.wanted w.subscribed := rfl
  rw [hchanges, Change.replay_append]
  simp only [changesFrom]
  rw [hends, Option.bind_some, hstarts]
  refine congrArg some (ext_mem fun p => ?_)
  rw [hafter, hkept, mem_changesFrom, mem_changesFrom]
  tauto

theorem mem_entries_of_cutWhere {w : Wiring} {p : Entry → Bool} {e : Entry}
    (he : e ∈ (w.cutWhere p).entries) :
    (e ∈ w.entries ∧ p e = false) ∨ ∃ old ∈ w.entries, p old = true ∧ e = old.cut := by
  obtain ⟨old, hold, rfl⟩ := List.mem_map.mp he
  by_cases hp : p old = true
  · exact Or.inr ⟨old, hold, hp, if_pos hp⟩
  · have hkept : (if p old = true then old.cut else old) = old := if_neg hp
    rw [hkept]
    exact Or.inl ⟨hold, Bool.eq_false_iff.mpr hp⟩

/-- What cutting an entry keeps, cutting some entries of a wiring keeps. -/
theorem map_entries_cutWhere {α : Type} {f : Entry → α} (hf : ∀ e : Entry, f e.cut = f e) (w : Wiring)
    (p : Entry → Bool) : (w.cutWhere p).entries.map f = w.entries.map f := by
  simp only [cutWhere]
  rw [List.map_map]
  refine List.map_congr_left fun e _ => ?_
  simp only [Function.comp_apply]
  split
  · exact hf e
  · rfl

theorem rules_cutWhere (w : Wiring) (p : Entry → Bool) :
    (w.cutWhere p).entries.map (·.rule) = w.entries.map (·.rule) :=
  map_entries_cutWhere (fun _ => rfl) w p

theorem rule_of_find? {entries : List Entry} {r : Rule} {e : Entry}
    (h : entries.find? (·.rule == r) = some e) : e ∈ entries ∧ e.rule = r := by
  have hr : (e.rule == r) = true := List.find?_some (p := fun x : Entry => x.rule == r) h
  exact ⟨List.mem_of_find?_eq_some h, beq_iff_eq.mp hr⟩

section LayOut
variable {previous : List Entry}

theorem mem_of_mem_layOut {rules : List Rule} {done : List Entry} {nextId : Nat} {e : Entry}
    (he : e ∈ (layOut previous rules done nextId).1) :
    e ∈ done ∨ e ∈ previous ∨ e.links = .empty := by
  induction rules generalizing done nextId with
  | nil => exact Or.inl he
  | cons r rest ih =>
    simp only [layOut] at he
    split at he
    · exact ih he
    · split at he
      · rename_i kept hkept
        rcases ih he with h | h
        · rcases List.mem_append.mp h with h | h
          · exact Or.inl h
          · exact Or.inr (Or.inl (List.mem_singleton.mp h ▸ (rule_of_find? hkept).1))
        · exact Or.inr h
      · rcases ih he with h | h
        · rcases List.mem_append.mp h with h | h
          · exact Or.inl h
          · exact Or.inr (Or.inr (List.mem_singleton.mp h ▸ rfl))
        · exact Or.inr h

theorem mem_layOut_of_mem_done {rules : List Rule} {done : List Entry} {nextId : Nat} {e : Entry}
    (he : e ∈ done) : e ∈ (layOut previous rules done nextId).1 := by
  induction rules generalizing done nextId with
  | nil => exact he
  | cons r rest ih =>
    simp only [layOut]
    split
    · exact ih he
    · split
      · exact ih (List.mem_append_left _ he)
      · exact ih (List.mem_append_left _ he)

/-- An entry whose rule is laid out is the one that is laid out for it, if no other had the rule. -/
theorem mem_layOut {rules : List Rule} {done : List Entry} {nextId : Nat} {e : Entry}
    (hprevious : ∀ other ∈ previous, other.rule = e.rule → other = e)
    (hdone : ∀ other ∈ done, other.rule = e.rule → other = e)
    (he : e ∈ previous) (hr : e.rule ∈ rules) : e ∈ (layOut previous rules done nextId).1 := by
  induction rules generalizing done nextId with
  | nil => exact absurd hr List.not_mem_nil
  | cons r rest ih =>
    simp only [layOut]
    by_cases hre : r = e.rule
    · subst hre
      split
      · rename_i hlaid
        obtain ⟨other, hother, heq⟩ := List.any_eq_true.mp hlaid
        have hsame := hdone other hother (beq_iff_eq.mp heq)
        exact mem_layOut_of_mem_done (hsame ▸ hother)
      · have hfound : ∃ other, previous.find? (·.rule == e.rule) = some other :=
          Option.isSome_iff_exists.mp (List.find?_isSome.mpr ⟨e, he, beq_self_eq_true _⟩)
        obtain ⟨other, hother⟩ := hfound
        obtain ⟨hmem, hrule⟩ := rule_of_find? hother
        have hsame := hprevious other hmem hrule
        simp only [hother]
        exact mem_layOut_of_mem_done (List.mem_append_right _ (List.mem_singleton.mpr hsame.symm))
    · have hrest : e.rule ∈ rest := (List.mem_cons.mp hr).resolve_left (Ne.symm hre)
      have hstep (x : Entry) (hx : x.rule = r) :
          ∀ other ∈ done ++ [x], other.rule = e.rule → other = e := by
        intro other hother heq
        rcases List.mem_append.mp hother with h | h
        · exact hdone other h heq
        · rw [List.mem_singleton.mp h, hx] at heq
          exact absurd heq hre
      split
      · exact ih hdone hrest
      · split
        · rename_i kept hkept
          exact ih (hstep kept (rule_of_find? hkept).2) hrest
        · exact ih (hstep _ rfl) hrest

theorem nodup_rules_layOut {rules : List Rule} {done : List Entry} {nextId : Nat}
    (hdone : (done.map (·.rule)).Nodup) :
    ((layOut previous rules done nextId).1.map (·.rule)).Nodup := by
  induction rules generalizing done nextId with
  | nil => exact hdone
  | cons r rest ih =>
    simp only [layOut]
    split
    · exact ih hdone
    · rename_i hnew
      have hadd (x : Entry) (hx : x.rule = r) : ((done ++ [x]).map (·.rule)).Nodup := by
        subst hx
        exact nodup_map_snoc hdone (Bool.eq_false_iff.mpr hnew)
      split
      · rename_i kept hkept
        exact ih (hadd kept (rule_of_find? hkept).2)
      · exact ih (hadd _ rfl)

end LayOut

/-- The subscriptions are in line with the links, and no rule has two entries. -/
structure Balanced (w : Wiring) : Prop where
  subscribed : w.subscribed = w.wanted
  distinct : (w.entries.map (·.rule)).Nodup

/-- The changes lead from what `w` subscribes to what `after` does, which is balanced. -/
structure Accounted (w : Wiring) (changes : List Change) (after : Wiring) : Prop where
  balanced : after.Balanced
  replayed : Change.replay w.subscribed changes = some after.subscribed

theorem balanced_new : ({} : Wiring).Balanced :=
  ⟨rfl, List.nodup_nil⟩

theorem Balanced.unchanged {w : Wiring} (h : w.Balanced) : Accounted w [] w :=
  ⟨h, rfl⟩

theorem accounted_of_sync {w cut after : Wiring} (hcut : cut.subscribed = w.subscribed)
    (hafter : after.subscribed = cut.wanted) (hreads : ∀ p, after.Reads p ↔ cut.Reads p)
    (hdistinct : (after.entries.map (·.rule)).Nodup) : Accounted w cut.sync.2 after := by
  refine ⟨⟨hafter.trans (wanted_congr fun p => (hreads p).symm), hdistinct⟩, ?_⟩
  rw [hafter, ← hcut]
  exact replay_sync cut

theorem any_rule_of_ruleId?_eq_none {w : Wiring} {r : Rule} (h : w.ruleId? r = none) :
    (w.entries.any fun e => e.rule == r) = false := by
  apply List.any_eq_false.mpr
  exact List.find?_eq_none.mp (Option.map_eq_none_iff.mp h)

theorem Balanced.add {w after : Wiring} (h : w.Balanced) {inputs : Interface} {r : Rule} {id : Nat}
    (hadd : w.add inputs r = .ok (id, after)) : Accounted w [] after := by
  simp only [Wiring.add] at hadd
  split at hadd
  · cases hadd
  · split at hadd
    · cases hadd
      exact h.unchanged
    · rename_i hnew
      cases hadd
      refine ⟨⟨h.subscribed.trans (wanted_congr fun p => ?_), ?_⟩, rfl⟩
      · constructor
        · intro hreads
          obtain ⟨e, he, hp⟩ := hreads
          exact ⟨e, List.mem_append_left _ he, hp⟩
        · intro hreads
          obtain ⟨e, he, hp⟩ := hreads
          rcases List.mem_append.mp he with he | he
          · exact ⟨e, he, hp⟩
          · rw [List.mem_singleton.mp he] at hp
            exact absurd hp (Entry.not_reads_of_unlinked rfl p)
      · exact nodup_map_snoc h.distinct (any_rule_of_ruleId?_eq_none hnew)

/-- Entries without links may go once the subscriptions are in line. -/
theorem Balanced.drop {w : Wiring} (h : w.Balanced) (p keep : Entry → Bool)
    (hkeep : ∀ e, keep e = false → p e = true) :
    Accounted w (w.cutWhere p).sync.2
      { (w.cutWhere p).sync.1 with entries := (w.cutWhere p).sync.1.entries.filter keep } := by
  refine accounted_of_sync rfl rfl (fun q => ⟨?_, ?_⟩) ?_
  · intro hreads
    obtain ⟨e, he, hq⟩ := hreads
    exact ⟨e, (List.mem_filter.mp he).1, hq⟩
  · intro hreads
    obtain ⟨e, he, hq⟩ := hreads
    refine ⟨e, List.mem_filter.mpr ⟨he, ?_⟩, hq⟩
    by_contra hgone
    rcases mem_entries_of_cutWhere he with ⟨_, hp⟩ | ⟨old, _, _, rfl⟩
    · rw [hkeep e (Bool.eq_false_iff.mpr hgone)] at hp
      cases hp
    · exact Entry.not_reads_cut old q hq
  · have hrules : ((w.cutWhere p).entries.map (·.rule)).Nodup := by
      rw [rules_cutWhere]
      exact h.distinct
    exact hrules.sublist (List.filter_sublist.map _)

theorem Balanced.remove {w after : Wiring} (h : w.Balanced) {id : Nat} {changes : List Change}
    (hremove : w.remove id = .ok (after, changes)) : Accounted w changes after := by
  simp only [Wiring.remove] at hremove
  split at hremove
  · cases hremove
    refine h.drop (·.id == id) (·.id != id) fun e he => ?_
    simpa using he
  · cases hremove

theorem removeFeed_eq_ok {w after : Wiring} {input agent output : String} {id : Nat}
    {changes : List Change} (h : w.removeFeed input agent output = .ok (id, after, changes)) :
    w.remove id = .ok (after, changes) := by
  simp only [removeFeed] at h
  split at h
  · obtain ⟨done, hremove, heq⟩ := of_map_eq_ok h
    cases heq
    exact hremove
  · cases h

theorem Balanced.clear {w : Wiring} (h : w.Balanced) : Accounted w w.clear.2 w.clear.1 := by
  have hdrop := h.drop (fun _ => true) (fun _ => false) fun _ _ => rfl
  rwa [List.filter_false] at hdrop

theorem load_eq_ok {w after : Wiring} {inputs : Interface} {m : Mapping} {changes : List Change}
    (hload : w.load inputs m = .ok (after, changes)) :
    let cut := w.cutWhere fun e => !m.rules.contains e.rule
    changes = cut.sync.2 ∧
      after = { cut.sync.1 with
        name := m.name, description := m.description, version := m.version
        entries := (layOut cut.entries m.rules [] w.nextId).1
        nextId := (layOut cut.entries m.rules [] w.nextId).2 } := by
  simp only [Wiring.load] at hload
  split at hload
  · cases hload
  · cases hload
    exact ⟨rfl, rfl⟩

theorem Balanced.load {w after : Wiring} (h : w.Balanced) {inputs : Interface} {m : Mapping}
    {changes : List Change} (hload : w.load inputs m = .ok (after, changes)) :
    Accounted w changes after := by
  obtain ⟨rfl, rfl⟩ := load_eq_ok hload
  have hrules : ((w.cutWhere fun e => !m.rules.contains e.rule).entries.map (·.rule)).Nodup := by
    rw [rules_cutWhere]
    exact h.distinct
  refine accounted_of_sync rfl rfl (fun p => ⟨?_, ?_⟩) (nodup_rules_layOut List.nodup_nil)
  · intro hreads
    obtain ⟨e, he, hp⟩ := hreads
    rcases mem_of_mem_layOut he with he | he | hlinks
    · exact absurd he List.not_mem_nil
    · exact ⟨e, he, hp⟩
    · exact absurd hp (Entry.not_reads_of_unlinked hlinks p)
  · intro hreads
    obtain ⟨e, he, hp⟩ := hreads
    refine ⟨e, mem_layOut (fun other hother heq => ?_) (by simp) he ?_, hp⟩
    · exact List.inj_on_of_nodup_map hrules hother he heq
    · rcases mem_entries_of_cutWhere he with ⟨_, hkept⟩ | ⟨old, _, _, rfl⟩
      · simpa using hkept
      · exact absurd hp (Entry.not_reads_cut old p)

theorem rules_resolve (w : Wiring) (scene : Scene) :
    (w.resolve scene).1.entries.map (·.rule) = w.entries.map (·.rule) := by
  change (w.entries.map (Entry.resolve scene)).map (·.rule) = _
  rw [List.map_map]
  rfl

theorem Balanced.resolve {w : Wiring} (h : w.Balanced) (scene : Scene) :
    Accounted w (w.resolve scene).2 (w.resolve scene).1 := by
  refine accounted_of_sync rfl rfl (fun _ => Iff.rfl) ?_
  rw [rules_resolve]
  exact h.distinct

/-- An operation on a wiring, with the local inputs or the scene that it is given. -/
inductive Step
  | add (inputs : Interface) (rule : Rule)
  | remove (id : Nat)
  | removeFeed (input agent output : String)
  | clear
  | load (inputs : Interface) (mapping : Mapping)
  | resolve (scene : Scene)

/-- The wiring that an operation leaves and the changes that it reports, none if it fails. -/
def Step.apply (w : Wiring) : Step → Wiring × List Change
  | .add inputs r =>
    match w.add inputs r with
    | .ok (_, after) => (after, [])
    | .error _ => (w, [])
  | .remove id =>
    match w.remove id with
    | .ok (after, changes) => (after, changes)
    | .error _ => (w, [])
  | .removeFeed input agent output =>
    match w.removeFeed input agent output with
    | .ok (_, after, changes) => (after, changes)
    | .error _ => (w, [])
  | .clear => w.clear
  | .load inputs m =>
    match w.load inputs m with
    | .ok (after, changes) => (after, changes)
    | .error _ => (w, [])
  | .resolve scene => w.resolve scene

/-- The wiring after a run and everything that was reported in it. -/
def run (w : Wiring) : List Step → Wiring × List Change
  | [] => (w, [])
  | step :: rest =>
    let (after, changes) := step.apply w
    let (final, log) := after.run rest
    (final, changes ++ log)

/-- What an operation can come to: it is refused and nothing changes, or it is carried out. -/
theorem Step.apply_cases {w : Wiring} {P : Wiring → List Change → Prop} (refused : P w [])
    (add : ∀ {inputs r id after}, w.add inputs r = .ok (id, after) → P after [])
    (remove : ∀ {id after changes}, w.remove id = .ok (after, changes) → P after changes)
    (clear : P w.clear.1 w.clear.2)
    (load : ∀ {inputs m after changes}, w.load inputs m = .ok (after, changes) → P after changes)
    (resolve : ∀ scene, P (w.resolve scene).1 (w.resolve scene).2) (step : Step) :
    P (step.apply w).1 (step.apply w).2 := by
  cases step with
  | add inputs r =>
    simp only [Step.apply]
    split
    · rename_i hadd
      exact add hadd
    · exact refused
  | remove id =>
    simp only [Step.apply]
    split
    · rename_i hremove
      exact remove hremove
    · exact refused
  | removeFeed input agent output =>
    simp only [Step.apply]
    split
    · rename_i hremove
      exact remove (removeFeed_eq_ok hremove)
    · exact refused
  | clear => exact clear
  | load inputs m =>
    simp only [Step.apply]
    split
    · rename_i hload
      exact load hload
    · exact refused
  | resolve scene => exact resolve scene

theorem Balanced.apply {w : Wiring} (h : w.Balanced) (step : Step) :
    Accounted w (step.apply w).2 (step.apply w).1 :=
  Step.apply_cases (P := fun after changes => Accounted w changes after) h.unchanged h.add h.remove
    h.clear h.load h.resolve step

theorem Accounted.trans {a b c : Wiring} {xs ys : List Change} (h : Accounted a xs b)
    (h' : Accounted b ys c) : Accounted a (xs ++ ys) c := by
  refine ⟨h'.balanced, ?_⟩
  rw [Change.replay_append, h.replayed, Option.bind_some]
  exact h'.replayed

theorem Balanced.run {w : Wiring} (h : w.Balanced) (steps : List Step) :
    Accounted w (w.run steps).2 (w.run steps).1 := by
  induction steps generalizing w with
  | nil => exact h.unchanged
  | cons step rest ih =>
    have hstep := h.apply step
    exact hstep.trans (ih hstep.balanced)

/-- After any run, what is subscribed is what links which are on read from, and the log of all changes
accounts for it from nothing. -/
theorem subscriptions_accounted (steps : List Step) :
    let w := (run {} steps).1
    let log := (run {} steps).2
    (∀ p, p ∈ w.subscribed.toList ↔
      ∃ e ∈ w.entries, ∃ l ∈ e.links.toList, l.isOn = true ∧ l.publisher = p) ∧
    (∀ agent output, w.routes agent output ≠ [] ↔ ⟨agent, output⟩ ∈ w.subscribed.toList) ∧
    Change.replay .empty log = some w.subscribed := by
  intro w log
  have h : Accounted {} log w := balanced_new.run steps
  have hmem (p : Publisher) : p ∈ w.subscribed.toList ↔ w.Reads p := by
    rw [h.balanced.subscribed, mem_wanted]
  refine ⟨hmem, fun agent output => ?_, h.replayed⟩
  rw [routes_ne_nil_iff, hmem]

end Wiring

end Patchbay
