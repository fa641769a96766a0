import Mathlib.Data.List.Find
import Mathlib.Data.List.Intervals
import Patchbay.Proofs.Alike
import Patchbay.Proofs.Reload
import Patchbay.Proofs.Removal

/-!
# What an entry is known by

An entry is known by its identifier and as well by its rule, and a rule that feeds one input by the three
names it is made of. New identifiers are given in turn, so one that is gone does not come back: whatever a
step leaves was there before, with the same rule, or has an identifier that was not given yet.

The counter has no bound here. One of 64 bits counts the same as long as it does not come round, which takes
`2 ^ 64 - 1` entries.
-/

namespace Patchbay

/-- The selector is that of a text, so the wildcard is not the name of an agent. -/
def Selector.Read (s : Selector) : Prop :=
  ∃ text, s = .ofText text

namespace Rule

theorem read_feed (input agent output : String) : (feed input agent output).source.Read :=
  ⟨agent, rfl⟩

theorem isFeed_feed (input agent output : String) :
    (feed input agent output).isFeed input agent output = true := by
  simp [feed, isFeed, Selector.text_ofText]

/-- A rule that was read feeds an input from an output of an agent if it is the rule to do so. -/
theorem isFeed_eq {r : Rule} (hr : r.source.Read) (input agent output : String) :
    r.isFeed input agent output = (r == feed input agent output) := by
  rw [Bool.eq_iff_iff, beq_iff_eq]
  refine ⟨fun h => ?_, fun h => h ▸ isFeed_feed input agent output⟩
  obtain ⟨source, target⟩ := r
  cases target with
  | category name => cases h
  | output i o =>
    simp only [isFeed, Bool.and_eq_true, beq_iff_eq] at h
    obtain ⟨⟨rfl, rfl⟩, rfl⟩ := h
    obtain ⟨text, rfl⟩ : ∃ text, source = .ofText text := hr
    rw [feed, Selector.text_ofText]

end Rule

namespace Wiring

/-- The rules that a step may make entries for. -/
def Step.brings : Step → List Rule
  | .add _ r => [r]
  | .load _ m => m.rules
  | _ => []

def Step.Read (step : Step) : Prop :=
  ∀ r ∈ step.brings, r.source.Read

def ids (w : Wiring) : List Nat :=
  w.entries.map (·.id)

/-- The identifiers among the second that are not among the first. -/
def newTo (before after : List Nat) : List Nat :=
  after.filter fun id => !before.contains id

theorem newTo_of_subset {before after : List Nat} (h : after ⊆ before) : newTo before after = [] := by
  refine List.filter_eq_nil_iff.mpr fun id hid => ?_
  simpa using h hid

theorem newTo_cons_of_mem {before : List Nat} {id : Nat} (h : id ∈ before) (rest : List Nat) :
    newTo before (id :: rest) = newTo before rest :=
  List.filter_cons_of_neg (by simpa using h)

theorem newTo_cons_of_not_mem {before : List Nat} {id : Nat} (h : id ∉ before) (rest : List Nat) :
    newTo before (id :: rest) = id :: newTo before rest :=
  List.filter_cons_of_pos (by simpa using h)

/-- The identifiers that entries get in a run, in their order. -/
def issued (w : Wiring) : List Step → List Nat
  | [] => []
  | step :: rest => newTo w.ids (step.apply w).1.ids ++ (step.apply w).1.issued rest

/-- What laying out adds to what is laid out: entries that were there, and others under the identifiers
that come next. -/
theorem exists_layOut {previous : List Entry} (rules : List Rule) (done : List Entry) {nextId : Nat}
    (hbelow : ∀ e ∈ previous, e.id < nextId) :
    let out := layOut previous rules done nextId
    ∃ added, out.1 = done ++ added ∧ nextId ≤ out.2 ∧
      (∀ e ∈ added, e ∈ previous ∨ nextId ≤ e.id ∧ e.rule ∈ rules) ∧
      newTo (previous.map (·.id)) (added.map (·.id)) = List.Ico nextId out.2 := by
  induction rules generalizing done nextId with
  | nil =>
    exact ⟨[], (List.append_nil done).symm, Nat.le_refl nextId, fun e he => absurd he List.not_mem_nil,
      List.Ico.self_empty.symm⟩
  | cons r rest ih =>
    have hlater {next : Nat} (hnext : nextId ≤ next) {added : List Entry}
        (horigin : ∀ e ∈ added, e ∈ previous ∨ next ≤ e.id ∧ e.rule ∈ rest) :
        ∀ e ∈ added, e ∈ previous ∨ nextId ≤ e.id ∧ e.rule ∈ r :: rest := fun e he =>
      (horigin e he).imp_right fun ⟨hle, hrule⟩ =>
        ⟨Nat.le_trans hnext hle, List.mem_cons_of_mem r hrule⟩
    simp only [layOut]
    split
    · obtain ⟨added, hout, hle, horigin, hnew⟩ := ih done hbelow
      exact ⟨added, hout, hle, hlater (Nat.le_refl nextId) horigin, hnew⟩
    · split
      · rename_i kept hfound
        have hkept : kept ∈ previous := (rule_of_find? hfound).1
        obtain ⟨added, hout, hle, horigin, hnew⟩ := ih (done ++ [kept]) hbelow
        refine ⟨kept :: added, ?_, hle, ?_, ?_⟩
        · rw [hout, List.append_assoc, List.singleton_append]
        · exact List.forall_mem_cons.mpr ⟨.inl hkept, hlater (Nat.le_refl nextId) horigin⟩
        · rw [List.map_cons, newTo_cons_of_mem (List.mem_map_of_mem hkept), hnew]
      · -- The entries before keep identifiers below the one given here, so that one is new to them.
        have hfree : nextId ∉ previous.map (·.id) := by
          intro hmem
          obtain ⟨e, he, hid⟩ := List.mem_map.mp hmem
          exact Nat.ne_of_lt (hbelow e he) hid
        obtain ⟨added, hout, hle, horigin, hnew⟩ :=
          ih (done ++ [.fresh nextId r]) fun e he => Nat.lt_succ_of_lt (hbelow e he)
        refine ⟨.fresh nextId r :: added, ?_, Nat.le_of_succ_le hle, ?_, ?_⟩
        · rw [hout, List.append_assoc, List.singleton_append]
        · exact List.forall_mem_cons.mpr
            ⟨.inr ⟨Nat.le_refl nextId, List.mem_cons_self⟩, hlater (Nat.le_succ nextId) horigin⟩
        · exact ((newTo_cons_of_not_mem hfree _).trans (congrArg (nextId :: ·) hnew)).trans
            (List.Ico.eq_cons hle).symm

/-- An entry that is there after a step was there with its rule, or has a rule that the step brings and a
new identifier, and new identifiers are the ones that came next. -/
structure Follows (w after : Wiring) (brought : List Rule) : Prop where
  origin : ∀ e ∈ after.entries, (e.id, e.rule) ∈ w.numbered ∨ w.nextId ≤ e.id ∧ e.rule ∈ brought
  issued : newTo w.ids after.ids = List.Ico w.nextId after.nextId

theorem mem_numbered {w : Wiring} {e : Entry} (he : e ∈ w.entries) : (e.id, e.rule) ∈ w.numbered :=
  List.mem_map_of_mem (f := fun e : Entry => (e.id, e.rule)) he

theorem ids_eq (w : Wiring) : w.ids = w.numbered.map (·.1) := by
  simp only [ids, numbered, List.map_map]
  rfl

theorem numbered_cutWhere (w : Wiring) (p : Entry → Bool) : (w.cutWhere p).numbered = w.numbered :=
  map_entries_cutWhere (fun _ => rfl) w p

theorem follows_of_subset {w after : Wiring} {brought : List Rule} (h : after.numbered ⊆ w.numbered)
    (hnext : after.nextId = w.nextId) : Follows w after brought := by
  refine ⟨fun e he => .inl (h (mem_numbered he)), ?_⟩
  rw [hnext, List.Ico.self_empty, ids_eq, ids_eq]
  exact newTo_of_subset (List.map_subset _ h)

namespace Identified
variable {w after : Wiring} (h : w.Identified)
include h

theorem follows_add {inputs : Interface} {r : Rule} {id : Nat}
    (hadd : w.add inputs r = .ok (id, after)) : Follows w after [r] := by
  simp only [Wiring.add] at hadd
  split at hadd
  · cases hadd
  · split at hadd
    · cases hadd
      exact follows_of_subset (List.Subset.refl _) rfl
    · cases hadd
      have hfree : w.nextId ∉ w.ids := by
        intro hmem
        obtain ⟨e, he, hid⟩ := List.mem_map.mp hmem
        exact Nat.ne_of_lt (h.below e he) hid
      refine ⟨fun e he => ?_, ?_⟩
      · rcases List.mem_append.mp he with he | he
        · exact .inl (mem_numbered he)
        · obtain rfl := List.mem_singleton.mp he
          exact .inr ⟨Nat.le_refl _, List.mem_singleton.mpr rfl⟩
      · have hold : newTo w.ids w.ids = [] := newTo_of_subset (List.Subset.refl _)
        have hnew : newTo w.ids [w.nextId] = [w.nextId] := newTo_cons_of_not_mem hfree []
        simp only [ids, newTo, List.map_append, List.filter_append] at hold hnew ⊢
        rw [hold, List.Ico.succ_singleton]
        exact hnew

theorem follows_load {inputs : Interface} {m : Mapping} {changes : List Change}
    (hload : w.load inputs m = .ok (after, changes)) : Follows w after m.rules := by
  obtain ⟨_, rfl⟩ := load_eq_ok hload
  have hnumbered := numbered_cutWhere w fun e => !m.rules.contains e.rule
  have hids := ids_cutWhere w fun e => !m.rules.contains e.rule
  have hcut := h.cutWhere fun e => !m.rules.contains e.rule
  obtain ⟨added, hout, _, horigin, hnew⟩ := exists_layOut m.rules [] hcut.below
  rw [List.nil_append] at hout
  refine ⟨fun e he => ?_, ?_⟩
  · exact (horigin e (hout ▸ he)).imp_left fun hold => hnumbered ▸ mem_numbered hold
  · rw [← hout, hids] at hnew
    exact hnew

theorem follows_apply (step : Step) : Follows w (step.apply w).1 step.brings := by
  have hrefused : Follows w w step.brings := follows_of_subset (List.Subset.refl _) rfl
  have hremoved {id : Nat} {after : Wiring} {changes : List Change}
      (hremove : w.remove id = .ok (after, changes)) : Follows w after step.brings := by
    refine follows_of_subset ?_ (nextId_remove hremove)
    simp only [numbered, entries_remove hremove]
    exact (List.filter_sublist.map _).subset
  cases step with
  | add inputs r =>
    simp only [Step.apply]
    split
    · exact h.follows_add ‹_›
    · exact hrefused
  | remove id =>
    simp only [Step.apply]
    split
    · exact hremoved ‹_›
    · exact hrefused
  | removeFeed input agent output =>
    simp only [Step.apply]
    split
    · exact hremoved (removeFeed_eq_ok ‹_›)
    · exact hrefused
  | clear => exact follows_of_subset (List.nil_subset _) rfl
  | load inputs m =>
    simp only [Step.apply]
    split
    · exact h.follows_load ‹_›
    · exact hrefused
  | resolve scene => exact follows_of_subset (fun _ hk => numbered_resolve w scene ▸ hk) rfl

theorem origin_run (steps : List Step) : ∀ e ∈ (w.run steps).1.entries,
    (e.id, e.rule) ∈ w.numbered ∨ w.nextId ≤ e.id ∧ ∃ step ∈ steps, e.rule ∈ step.brings := by
  induction steps generalizing w with
  | nil => exact fun e he => .inl (mem_numbered he)
  | cons step rest ih =>
    obtain ⟨hle, hafter⟩ := h.apply step
    intro e he
    rcases ih hafter e he with hold | ⟨hnew, later, hlater, hrule⟩
    · obtain ⟨x, hx, heq⟩ := List.mem_map.mp hold
      obtain ⟨hid, hrule⟩ := Prod.mk.inj heq
      rw [← hid, ← hrule]
      exact ((h.follows_apply step).origin x hx).imp_right fun ⟨hfirst, hbrought⟩ =>
        ⟨hfirst, step, List.mem_cons_self, hbrought⟩
    · exact .inr ⟨Nat.le_trans hle hnew, later, List.mem_cons_of_mem step hlater, hrule⟩

theorem issued_run (steps : List Step) : w.issued steps = List.Ico w.nextId (w.run steps).1.nextId := by
  induction steps generalizing w with
  | nil => exact List.Ico.self_empty.symm
  | cons step rest ih =>
    obtain ⟨hle, hafter⟩ := h.apply step
    rw [issued, (h.follows_apply step).issued, ih hafter]
    exact List.Ico.append_consecutive hle (hafter.run rest).1

end Identified

/-- What has an identifier that was given at an earlier time of a run was there then, with its rule. -/
theorem mem_numbered_of_earlier {earlier steps : List Step} (h : earlier <+: steps) {e : Entry}
    (he : e ∈ (run {} steps).1.entries) (hid : e.id < (run {} earlier).1.nextId) :
    (e.id, e.rule) ∈ (run {} earlier).1.numbered := by
  obtain ⟨later, rfl⟩ := h
  rw [run_append] at he
  have horigin := (identified_new.run earlier).2.origin_run later e he
  exact horigin.resolve_right fun hnew => Nat.not_le_of_lt hid hnew.1

section Known
variable {w : Wiring}

theorem Balanced.add_known (h : w.Balanced) (hnamed : w.Named) {e : Entry} (he : e ∈ w.entries)
    {inputs : Interface} (hinput : ∀ input ∈ e.rule.input?, inputs.contains .input input = true) :
    w.add inputs e.rule = .ok (e.id, w) := by
  have hnone : (e.rule.input?.filter fun input => !inputs.contains .input input) = none :=
    Option.filter_eq_none_iff.mpr fun input hmem => by simp [hinput input hmem]
  have hcheck : checkRule inputs e.rule = .ok () := by
    rw [checkRule_of_named (hnamed e.rule (List.mem_map_of_mem he)), hnone]
  simp only [Wiring.add, hcheck, h.ruleId?_eq he]

theorem removeFeed_unknown {input agent output : String}
    (h : ∀ e ∈ w.entries, e.rule.isFeed input agent output = false) :
    w.feedId? input agent output = none ∧
      w.removeFeed input agent output = .error (.unknownFeed input agent output) := by
  have hnone : w.feedId? input agent output = none := by
    refine Option.map_eq_none_iff.mpr (List.find?_eq_none.mpr fun e he hfeed => ?_)
    rw [h e he] at hfeed
    cases hfeed
  simp only [removeFeed, hnone, and_self]

section Feed
variable {input agent output : String} (hread : ∀ e ∈ w.entries, e.rule.source.Read)
include hread

/-- The names that a feed is made of find the entry that its rule finds. -/
theorem feedId?_eq_ruleId? : w.feedId? input agent output = w.ruleId? (.feed input agent output) := by
  rw [feedId?, ruleId?, List.find?_congr fun e he => Rule.isFeed_eq (hread e he) input agent output]

theorem rule_of_isFeed {e : Entry} (he : e ∈ w.entries) (hfeed : e.rule.isFeed input agent output = true) :
    e.rule = .feed input agent output := by
  rwa [Rule.isFeed_eq (hread e he), beq_iff_eq] at hfeed

theorem Balanced.feedId?_eq (h : w.Balanced) {e : Entry} (he : e ∈ w.entries)
    (hfeed : e.rule.isFeed input agent output = true) : w.feedId? input agent output = some e.id := by
  rw [feedId?_eq_ruleId? hread, ← rule_of_isFeed hread he hfeed]
  exact h.ruleId?_eq he

theorem Balanced.removeFeed_eq (h : w.Balanced) (hid : w.Identified) {e : Entry} (he : e ∈ w.entries)
    (hfeed : e.rule.isFeed input agent output = true) :
    ∃ after changes, w.removeFeed input agent output = .ok (e.id, after, changes) ∧
      after.entries = w.entries.erase e := by
  obtain ⟨after, hremove⟩ := h.exists_remove he
  refine ⟨after, Change.each false (w.lost (·.id == e.id)), ?_,
    (entries_remove hremove).trans (hid.filter_id he)⟩
  simp only [removeFeed, h.feedId?_eq hread he hfeed, hremove]
  rfl

end Feed

end Known

/-- After any run whose selectors were read, no two entries have one rule or one identifier. Identifiers are
given in turn from one on; an entry that has one had it with the same rule at any earlier time, and one
that was taken away does not come back. A rule that has an entry is not given another, and the three names
of a feed are those of one entry at most, which is found and removed by them alone. -/
theorem identity_kept (steps : List Step) (hread : ∀ step ∈ steps, step.Read) :
    let w := (run {} steps).1
    (w.entries.map (·.rule)).Nodup ∧ w.ids.Nodup ∧ (∀ id ∈ w.ids, id < w.nextId) ∧
    issued {} steps = List.Ico 1 w.nextId ∧
    (∀ earlier, earlier <+: steps → ∀ old ∈ (run {} earlier).1.entries,
      (∀ e ∈ w.entries, e.id = old.id → e.rule = old.rule) ∧
      ∀ middle, earlier <+: middle → middle <+: steps → old.id ∉ (run {} middle).1.ids →
        old.id ∉ w.ids) ∧
    (∀ e ∈ w.entries, ∀ inputs : Interface,
      (∀ input ∈ e.rule.input?, inputs.contains .input input = true) →
        w.add inputs e.rule = .ok (e.id, w)) ∧
    ∀ input agent output,
      (∀ e ∈ w.entries, e.rule.isFeed input agent output = true →
        (∀ other ∈ w.entries, other.rule.isFeed input agent output = true → other = e) ∧
        w.feedId? input agent output = some e.id ∧
        ∃ after changes, w.removeFeed input agent output = .ok (e.id, after, changes) ∧
          after.entries = w.entries.erase e) ∧
      ((∀ e ∈ w.entries, e.rule.isFeed input agent output = false) →
        w.feedId? input agent output = none ∧
        w.removeFeed input agent output = .error (.unknownFeed input agent output)) := by
  intro w
  have hbalanced : w.Balanced := (balanced_new.run steps).balanced
  have hid : w.Identified := (identified_new.run steps).2
  have hnamed : w.Named := named_new.run steps
  have hselectors : ∀ e ∈ w.entries, e.rule.source.Read := by
    intro e he
    obtain ⟨_, step, hstep, hbrought⟩ :=
      (identified_new.origin_run steps e he).resolve_left List.not_mem_nil
    exact hread step hstep e.rule hbrought
  refine ⟨hbalanced.distinct, hid.distinct, ?_, identified_new.issued_run steps, ?_, ?_, ?_⟩
  · intro id hmem
    obtain ⟨e, he, rfl⟩ := List.mem_map.mp hmem
    exact hid.below e he
  · intro earlier hearlier old hold
    refine ⟨fun e he hsame => ?_, fun middle hmiddle hlater hgone hback => ?_⟩
    · have hlt := hsame ▸ id_lt_of_earlier (List.prefix_refl earlier) hold
      obtain ⟨x, hx, heq⟩ := List.mem_map.mp (mem_numbered_of_earlier hearlier he hlt)
      obtain ⟨hxid, hxrule⟩ := Prod.mk.inj heq
      rw [← hxrule, (identified_new.run earlier).2.eq_of_id_eq hx hold (hxid.trans hsame)]
    · obtain ⟨e, he, hsame⟩ := List.mem_map.mp hback
      have hlt := hsame ▸ id_lt_of_earlier hmiddle hold
      have hthere := List.mem_map_of_mem (f := Prod.fst) (mem_numbered_of_earlier hlater he hlt)
      rw [← ids_eq] at hthere
      exact hgone (hsame ▸ hthere)
  · intro e he inputs hinput
    exact hbalanced.add_known hnamed he hinput
  · intro input agent output
    refine ⟨fun e he hfeed => ⟨?_, ?_, ?_⟩, removeFeed_unknown⟩
    · intro other hother hsame
      refine List.inj_on_of_nodup_map hbalanced.distinct hother he ?_
      rw [rule_of_isFeed hselectors hother hsame, rule_of_isFeed hselectors he hfeed]
    · exact hbalanced.feedId?_eq hselectors he hfeed
    · exact hbalanced.removeFeed_eq hselectors hid he hfeed

def light : Interface :=
  { inputs := [⟨"light", .bool, .bool false, false⟩] }

/-- Two rules for one input come and go, and the first comes back with a mapping. -/
def rewired : List Step :=
  [.add light (.feed "light" "lamp" "lit"),
    .add light (.feed "light" "*" "lit"),
    .removeFeed "light" "lamp" "lit",
    .load light { rules := [.feed "light" "lamp" "lit", .feed "light" "*" "lit"] },
    .clear,
    .add light (.feed "light" "*" "lit")]

theorem fourth_for_anybody :
    let w := (run {} rewired).1
    (∀ step ∈ rewired, step.Read) ∧ issued {} rewired = [1, 2, 3, 4] ∧
      w.add light (.feed "light" "*" "lit") = .ok (4, w) ∧
      ∃ after changes, w.removeFeed "light" "*" "lit" = .ok (4, after, changes) ∧ after.entries = [] := by
  intro w
  have hread : ∀ step ∈ rewired, step.Read := by
    simp [rewired, Step.Read, Step.brings, Rule.read_feed]
  have hentries : w.entries = [.fresh 4 (.feed "light" "*" "lit")] := by decide
  obtain ⟨_, _, _, hissued, _, hadd, hfeed⟩ := identity_kept rewired hread
  have hmem : Entry.fresh 4 (.feed "light" "*" "lit") ∈ w.entries := by simp [hentries]
  obtain ⟨_, _, after, changes, hremove, hafter⟩ :=
    (hfeed "light" "*" "lit").1 _ hmem (by decide)
  refine ⟨hread, ?_, hadd _ hmem light (by decide), after, changes, hremove, ?_⟩
  · rw [hissued]
    decide
  · rw [hafter, hentries]
    decide

end Wiring

end Patchbay
