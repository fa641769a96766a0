import Patchbay.Proofs.Publication

/-!
# What observers are told

An observer is handed a slot as it was stored, and an observer called before it may have stored the slot
anew by then. So the value that an observer is told last need not be the one that is there in the end; it
is the one if nothing was stored in between, and for the observer that registered first nothing is.

Stores and calls nest: what is stored while observers are called is told to all of its observers before
the next call that was already owed. `Told` reads the journal as a machine whose stack holds the calls
that are owed.
-/

namespace Patchbay

variable {ρ ν : Type}

/-- The operation looks at the agent or stores values in slots. -/
def Op.Writing : Op ρ ν → Prop
  | .note _ | .write .. | .writeAs .. | .writeImpulsion .. | .deliver .. => True
  | _ => False

theorem Op.Writing.sound {op : Op ρ ν} (h : op.Writing) : op.Sound := by
  cases op with
  | addCategory => exact h.elim
  | _ => trivial

theorem Program.Within.sound {p : Program ρ ν} (h : p.Within Op.Writing) : p.Sound := by
  induction p with
  | done => trivial
  | act choose next ih =>
    exact ⟨fun a => Op.Writing.sound (h.1 a), fun answer => ih answer (h.2 answer)⟩

/-- What was stored in a slot, if the note is of that. -/
def Note.storedIn? (kind : SlotKind) (name : String) : Note ρ ν → Option Slot
  | .stored k slot _ => if k = kind ∧ slot.name = name then some slot else none
  | _ => none

/-- The note is of a call by which an observer was told of a slot. -/
def Note.Tells (who : ρ) (kind : SlotKind) (name : String) (n : Note ρ ν) : Prop :=
  ∃ slot muted frozen, n = .called who (.slot kind slot) muted frozen ∧ slot.name = name

def lastStored (kind : SlotKind) (name : String) (notes : List (Note ρ ν)) : Option Slot :=
  (notes.filterMap (Note.storedIn? kind name)).getLast?

theorem lastStored_append (kind : SlotKind) (name : String) (notes more : List (Note ρ ν)) :
    lastStored kind name (notes ++ more) =
      (lastStored kind name more).or (lastStored kind name notes) := by
  simp only [lastStored]
  rw [List.filterMap_append, List.getLast?_append]

theorem lastStored_eq_none_iff {kind : SlotKind} {name : String} {notes : List (Note ρ ν)} :
    lastStored kind name notes = none ↔
      ∀ k slot muted, .stored k slot muted ∈ notes → ¬(k = kind ∧ slot.name = name) := by
  simp only [lastStored, List.getLast?_eq_none_iff, List.filterMap_eq_nil_iff]
  constructor
  · intro h k slot muted hmem hkey
    have hnone := h _ hmem
    rw [Note.storedIn?, if_pos hkey] at hnone
    cases hnone
  · intro h n hn
    cases n with
    | stored k slot muted => exact if_neg (h k slot muted hn)
    | called | did => rfl

theorem lastStored_stored (kind k : SlotKind) (name : String) (slot : Slot) (muted : Bool) :
    lastStored kind name [(.stored k slot muted : Note ρ ν)] =
      if k = kind ∧ slot.name = name then some slot else none := by
  simp only [lastStored, List.filterMap_cons, Note.storedIn?, List.filterMap_nil]
  by_cases hkey : k = kind ∧ slot.name = name
  · simp [hkey]
  · simp [hkey]

theorem lastStored_append_cons (kind : SlotKind) (name : String) (notes more : List (Note ρ ν))
    (n : Note ρ ν) : lastStored kind name (notes ++ n :: more) =
      (lastStored kind name more).or ((lastStored kind name [n]).or (lastStored kind name notes)) := by
  rw [lastStored_append, ← List.singleton_append, lastStored_append, Option.or_assoc]

/-- With nothing stored in the slot after it, a store is the last one. -/
theorem lastStored_of_between {kind : SlotKind} {slot : Slot} {more : List (Note ρ ν)}
    (h : lastStored kind slot.name more = none) (notes : List (Note ρ ν)) (muted : Bool) :
    lastStored kind slot.name (notes ++ .stored kind slot muted :: more) = some slot := by
  rw [lastStored_append_cons, h, lastStored_stored, if_pos ⟨rfl, rfl⟩]
  rfl

/-- The notes of a session whose observers only write, if these calls are owed when it begins and none
when it ends. A store is followed at once by the call of the first observer of the slot, and the calls of
the others are owed from then on, before all that were owed already. -/
inductive Told (watchers : SlotKind → String → List ρ) :
    List (ρ × Firing) → List (Note ρ ν) → Prop
  | nil : Told watchers [] []
  | did {owed : List (ρ × Firing)} {notes : List (Note ρ ν)} (who : ρ)
      (answer : Except Fault (Reply ν)) (h : Told watchers owed notes) :
      Told watchers owed (.did who answer :: notes)
  | call {owed : List (ρ × Firing)} {notes : List (Note ρ ν)} (who : ρ) (firing : Firing)
      (muted frozen : Bool) (h : Told watchers owed notes) :
      Told watchers ((who, firing) :: owed) (.called who firing muted frozen :: notes)
  | unwatched {owed : List (ρ × Firing)} {notes : List (Note ρ ν)} {kind : SlotKind} {slot : Slot}
      (hnone : watchers kind slot.name = []) (muted : Bool) (h : Told watchers owed notes) :
      Told watchers owed (.stored kind slot muted :: notes)
  | store {owed : List (ρ × Firing)} {notes : List (Note ρ ν)} {kind : SlotKind} {slot : Slot}
      {who : ρ} {others : List ρ} (hsome : watchers kind slot.name = who :: others)
      (stored muted frozen : Bool)
      (h : Told watchers (others.map (·, .slot kind slot) ++ owed) notes) :
      Told watchers owed
        (.stored kind slot stored :: .called who (.slot kind slot) muted frozen :: notes)

namespace Told
variable {watchers : SlotKind → String → List ρ} {owed : List (ρ × Firing)}
  {notes before after : List (Note ρ ν)} {who : ρ} {kind : SlotKind} {slot : Slot}
  {muted frozen : Bool}

theorem append (h : Told watchers owed notes) {rest : List (ρ × Firing)} {more : List (Note ρ ν)}
    (hrest : Told watchers rest more) : Told watchers (owed ++ rest) (notes ++ more) := by
  induction h with
  | nil => exact hrest
  | did who answer _ ih => exact .did who answer ih
  | call who firing muted frozen _ ih => exact .call who firing muted frozen ih
  | unwatched hnone muted _ ih => exact .unwatched hnone muted ih
  | store hsome stored muted frozen _ ih =>
    rw [List.append_assoc] at ih
    exact .store hsome stored muted frozen ih

theorem called_of_owed (h : Told watchers owed notes) {firing : Firing} (howed : (who, firing) ∈ owed) :
    ∃ muted frozen, .called who firing muted frozen ∈ notes := by
  induction h with
  | nil => exact absurd howed List.not_mem_nil
  | did _ _ _ ih =>
    obtain ⟨muted, frozen, hmem⟩ := ih howed
    exact ⟨muted, frozen, .tail _ hmem⟩
  | call who' firing' muted frozen _ ih =>
    rcases List.mem_cons.mp howed with heq | hlater
    · cases heq
      exact ⟨muted, frozen, .head _⟩
    · obtain ⟨muted, frozen, hmem⟩ := ih hlater
      exact ⟨muted, frozen, .tail _ hmem⟩
  | unwatched _ _ _ ih =>
    obtain ⟨muted, frozen, hmem⟩ := ih howed
    exact ⟨muted, frozen, .tail _ hmem⟩
  | store _ _ _ _ _ ih =>
    obtain ⟨muted, frozen, hmem⟩ := ih (List.mem_append_right _ howed)
    exact ⟨muted, frozen, .tail _ (.tail _ hmem)⟩

/-- Everybody who observes a slot is told of a value after it was stored. -/
theorem called_of_stored (h : Told watchers owed (before ++ .stored kind slot muted :: after))
    (hwho : who ∈ watchers kind slot.name) :
    ∃ muted frozen, .called who (.slot kind slot) muted frozen ∈ after := by
  generalize hnotes : before ++ .stored kind slot muted :: after = notes at h
  induction h generalizing before with
  | nil => simp at hnotes
  | did _ _ _ ih | call _ _ _ _ _ ih =>
    cases before with
    | nil => cases hnotes
    | cons n before => exact ih (List.cons.inj hnotes).2
  | unwatched hnone _ _ ih =>
    cases before with
    | nil =>
      cases hnotes
      rw [hnone] at hwho
      exact absurd hwho List.not_mem_nil
    | cons n before => exact ih (List.cons.inj hnotes).2
  | @store _ _ _ _ _ others hsome stored muted frozen hrest ih =>
    cases before with
    | nil =>
      cases hnotes
      rw [hsome] at hwho
      rcases List.mem_cons.mp hwho with rfl | hother
      · exact ⟨muted, frozen, .head _⟩
      · have howed : (who, Firing.slot kind slot) ∈ others.map (·, Firing.slot kind slot) :=
          List.mem_map.mpr ⟨who, hother, rfl⟩
        obtain ⟨muted, frozen, hmem⟩ := hrest.called_of_owed (List.mem_append_left _ howed)
        exact ⟨muted, frozen, .tail _ hmem⟩
    | cons n before =>
      have hnotes := (List.cons.inj hnotes).2
      cases before with
      | nil => cases hnotes
      | cons n before => exact ih (List.cons.inj hnotes).2

/-- After the last call by which one of its observers is told of a slot, nothing is stored in it. -/
theorem lastStored_eq_none
    (h : Told watchers owed (before ++ .called who (.slot kind slot) muted frozen :: after))
    (hwho : who ∈ watchers kind slot.name) (hlast : ∀ n ∈ after, ¬n.Tells who kind slot.name) :
    lastStored kind slot.name after = none := by
  apply lastStored_eq_none_iff.mpr
  rintro _ later muted' hmem ⟨rfl, hname⟩
  obtain ⟨skipped, rest, rfl⟩ := List.append_of_mem hmem
  rw [← List.cons_append, ← List.append_assoc] at h
  obtain ⟨muted, frozen, hcalled⟩ := h.called_of_stored (hname ▸ hwho)
  exact hlast _ (List.mem_append_right _ (.tail _ hcalled)) ⟨later, muted, frozen, rfl, hname⟩

/-- Whoever is called without being owed it is told what was stored before. -/
theorem stored_of_called {firing : Firing}
    (h : Told watchers owed (before ++ .called who firing muted frozen :: after)) :
    (who, firing) ∈ owed ∨ ∃ kind slot stored, firing = .slot kind slot ∧
      .stored kind slot stored ∈ before ∧ who ∈ watchers kind slot.name := by
  generalize hnotes : before ++ .called who firing muted frozen :: after = notes at h
  induction h generalizing before with
  | nil => simp at hnotes
  | did _ _ _ ih | unwatched _ _ _ ih =>
    cases before with
    | nil => cases hnotes
    | cons n before =>
      refine (ih (List.cons.inj hnotes).2).imp_right ?_
      rintro ⟨kind, slot, stored, hfiring, hmem, hwho⟩
      exact ⟨kind, slot, stored, hfiring, .tail _ hmem, hwho⟩
  | call _ _ _ _ _ ih =>
    cases before with
    | nil =>
      cases hnotes
      exact .inl (.head _)
    | cons n before =>
      refine (ih (List.cons.inj hnotes).2).imp (.tail _) ?_
      rintro ⟨kind, slot, stored, hfiring, hmem, hwho⟩
      exact ⟨kind, slot, stored, hfiring, .tail _ hmem, hwho⟩
  | store hsome stored _ _ _ ih =>
    cases before with
    | nil => cases hnotes
    | cons n before =>
      obtain ⟨rfl, htail⟩ := List.cons.inj hnotes
      rw [List.append_eq] at htail
      cases before with
      | nil =>
        cases htail
        exact .inr ⟨_, _, stored, rfl, .head _, hsome ▸ .head _⟩
      | cons n before =>
        rcases ih (List.cons.inj htail).2 with howed | ⟨kind, slot, stored, hfiring, hmem, hwho⟩
        · rcases List.mem_append.mp howed with hother | howed
          · obtain ⟨other, hmem, heq⟩ := List.mem_map.mp hother
            cases heq
            exact .inr ⟨_, _, stored, rfl, .head _, hsome ▸ .tail _ hmem⟩
          · exact .inl howed
        · exact .inr ⟨kind, slot, stored, hfiring, .tail _ (.tail _ hmem), hwho⟩

/-- Who registered first, and only once, is called right after the store. -/
theorem stored_just_before
    (h : Told watchers owed (before ++ .called who (.slot kind slot) muted frozen :: after))
    {others : List ρ} (hfirst : watchers kind slot.name = who :: others) (hothers : who ∉ others) :
    (who, .slot kind slot) ∈ owed ∨ ∃ stored, before.getLast? = some (.stored kind slot stored) := by
  generalize hnotes : before ++ .called who (.slot kind slot) muted frozen :: after = notes at h
  have hlater (n : Note ρ ν) {before : List (Note ρ ν)} {stored : Bool}
      (hlast : before.getLast? = some (.stored kind slot stored)) :
      (n :: before).getLast? = some (.stored kind slot stored) := by
    rw [List.getLast?_cons, hlast]
    rfl
  induction h generalizing before with
  | nil => simp at hnotes
  | did _ _ _ ih | unwatched _ _ _ ih =>
    cases before with
    | nil => cases hnotes
    | cons n before =>
      refine (ih (List.cons.inj hnotes).2).imp_right ?_
      rintro ⟨stored, hlast⟩
      exact ⟨stored, hlater n hlast⟩
  | call _ _ _ _ _ ih =>
    cases before with
    | nil =>
      cases hnotes
      exact .inl (.head _)
    | cons n before =>
      refine (ih (List.cons.inj hnotes).2).imp (.tail _) ?_
      rintro ⟨stored, hlast⟩
      exact ⟨stored, hlater n hlast⟩
  | store hsome stored _ _ _ ih =>
    cases before with
    | nil => cases hnotes
    | cons n before =>
      obtain ⟨rfl, htail⟩ := List.cons.inj hnotes
      rw [List.append_eq] at htail
      cases before with
      | nil =>
        cases htail
        exact .inr ⟨stored, rfl⟩
      | cons m before =>
        rcases ih (List.cons.inj htail).2 with howed | ⟨stored, hlast⟩
        · rcases List.mem_append.mp howed with hother | howed
          · obtain ⟨other, hmem, heq⟩ := List.mem_map.mp hother
            cases heq
            cases hfirst.symm.trans hsome
            exact absurd hmem hothers
          · exact .inl howed
        · exact .inr ⟨stored, hlater _ (hlater m hlast)⟩

end Told

namespace Session

/-- The session went on from `s` to `t` and made these notes. Observers neither came nor went, and what is
live is what was stored last. -/
structure Advances (s t : Session ρ ν) (notes : List (Note ρ ν)) : Prop where
  journal : t.journal = s.journal ++ notes
  observers : t.agent.registry.observers = s.agent.registry.observers
  live : ∀ kind name, t.agent.registry.find? kind name =
    (lastStored kind name notes).or (s.agent.registry.find? kind name)

theorem Advances.watchers {s t : Session ρ ν} {notes : List (Note ρ ν)} (h : Advances s t notes) :
    t.agent.registry.watchers = s.agent.registry.watchers := by
  funext kind name
  simp only [Registry.watchers]
  rw [h.observers]

theorem Advances.trans {s t u : Session ρ ν} {notes more : List (Note ρ ν)} (h : Advances s t notes)
    (h' : Advances t u more) : Advances s u (notes ++ more) := by
  refine ⟨?_, h'.observers.trans h.observers, ?_⟩
  · rw [h'.journal, h.journal, List.append_assoc]
  · intro kind name
    rw [h'.live, h.live, lastStored_append, Option.or_assoc]

theorem advances_store {s : Session ρ ν} {kind : SlotKind} {name : String} {v : Value}
    {registry : Registry ρ} {pending : Notification ρ}
    (hwrite : s.agent.registry.write kind name v = .ok (registry, pending)) :
    ∃ slot, slot.name = name ∧ registry.find? kind name = some slot ∧
      Advances s (s.store kind name registry) [.stored kind slot s.agent.muted] := by
  obtain ⟨slot, hslot, _, hregistry, _⟩ := Registry.write_eq_ok hwrite
  have hname : slot.name = name := Interface.name_of_find? hslot
  have hfind : registry.find? kind name = some { slot with value := v } := find?_store hwrite hslot
  refine ⟨{ slot with value := v }, hname, hfind, ?_, ?_, ?_⟩
  · simp only [store, hfind, Option.toList_some, List.map_cons, List.map_nil]
  · show registry.observers = _
    rw [hregistry]
  · intro k n
    refine (Registry.find?_write hwrite k n).trans ?_
    rw [lastStored_stored]
    by_cases hkey : k = kind ∧ n = name
    · obtain ⟨rfl, rfl⟩ := hkey
      rw [if_pos ⟨rfl, rfl⟩, if_pos ⟨rfl, hname⟩, hslot]
      rfl
    · rw [if_neg hkey, if_neg fun h => hkey ⟨h.1.symm, h.2.symm.trans hname⟩]
      rfl

/-- In going on, the session called whom it owed a call, and told each observer what was stored. -/
structure Follows (s t : Session ρ ν) (owed : List (ρ × Firing)) (notes : List (Note ρ ν)) : Prop
    extends Advances s t notes where
  told : Told s.agent.registry.watchers owed notes

theorem Follows.refl (s : Session ρ ν) : Follows s s [] [] :=
  ⟨⟨(List.append_nil _).symm, rfl, fun _ _ => rfl⟩, .nil⟩

theorem Follows.trans {s t u : Session ρ ν} {owed rest : List (ρ × Firing)}
    {notes more : List (Note ρ ν)} (h : Follows s t owed notes) (h' : Follows t u rest more) :
    Follows s u (owed ++ rest) (notes ++ more) :=
  ⟨h.toAdvances.trans h'.toAdvances, h.told.append (h.watchers ▸ h'.told)⟩

theorem follows_did (s : Session ρ ν) (who : ρ) (answer : Except Fault (Reply ν)) :
    Follows s (s.note (.did who answer)) [] [.did who answer] :=
  ⟨⟨rfl, rfl, fun _ _ => rfl⟩, .did who answer .nil⟩

theorem follows_called (s : Session ρ ν) (who : ρ) (firing : Firing) (muted frozen : Bool) :
    Follows s (s.note (.called who firing muted frozen)) [(who, firing)]
      [.called who firing muted frozen] :=
  ⟨⟨rfl, rfl, fun _ _ => rfl⟩, .call who firing muted frozen .nil⟩

end Session

/-- Whoever is called is entered in the journal first, and all that is stored meanwhile is told to those
who observe it before the call is over. -/
def React.Tells (react : React ρ ν) : Prop :=
  ∀ who firing s, ∃ muted frozen notes,
    Session.Follows s (react who firing s) [(who, firing)] (.called who firing muted frozen :: notes)

namespace Session

section Calls
variable {react : React ρ ν} (hreact : react.Tells)
include hreact

theorem follows_call (firing : Firing) (observers : List ρ) (s : Session ρ ν) :
    ∃ notes, Follows s (s.call react firing observers) (observers.map (·, firing)) notes := by
  induction observers generalizing s with
  | nil => exact ⟨[], .refl s⟩
  | cons who rest ih =>
    obtain ⟨muted, frozen, notes, hwho⟩ := hreact who firing s
    obtain ⟨more, hrest⟩ := ih (react who firing s)
    exact ⟨_, hwho.trans hrest⟩

theorem follows_commit (kind : SlotKind) (name : String) (v : Value) (s : Session ρ ν) :
    ∃ notes, Follows s (s.commit react kind name (s.agent.registry.write kind name v)).1 [] notes := by
  cases hwrite : s.agent.registry.write kind name v with
  | error fault => exact ⟨[], .refl s⟩
  | ok done =>
    obtain ⟨registry, pending⟩ := done
    obtain ⟨slot, hname, hfind, hstore⟩ := advances_store hwrite
    obtain ⟨_, _, _, _, hpending⟩ := Registry.write_eq_ok hwrite
    have hwatchers : registry.watchers = s.agent.registry.watchers := hstore.watchers
    simp only [commit, notify, hpending, Registry.notification, hwatchers]
    cases hobserving : s.agent.registry.watchers kind name with
    | nil => exact ⟨_, hstore, .unwatched (hname ▸ hobserving) _ .nil⟩
    | cons who others =>
      simp only [List.isEmpty_cons, Bool.false_eq_true, if_false, hfind]
      obtain ⟨muted, frozen, notes, hfirst⟩ :=
        hreact who (.slot kind slot) (s.store kind name registry)
      obtain ⟨more, hothers⟩ := follows_call hreact (.slot kind slot) others
        (react who (.slot kind slot) (s.store kind name registry))
      refine ⟨_, (hstore.trans hfirst.toAdvances).trans hothers.toAdvances, ?_⟩
      -- The first call is owed and made at once; those of the others come after all it led to.
      have hnotes : Told s.agent.registry.watchers [] notes := by
        rw [← hwatchers]
        cases hfirst.told with
        | call _ _ _ _ hnotes => exact hnotes
      have hmore := hothers.told
      rw [hfirst.watchers, hstore.watchers] at hmore
      refine .store (hname ▸ hobserving) _ _ _ ?_
      rw [List.append_nil]
      exact hnotes.append hmore

theorem follows_write (kind : SlotKind) (name : String) (v : Value) (s : Session ρ ν) :
    ∃ notes, Follows s (s.write react kind name v).1 [] notes := by
  simp only [write]
  split
  · exact ⟨[], .refl s⟩
  · exact follows_commit hreact kind name v s

theorem follows_writeAs (kind : SlotKind) (name : String) (v : Value) (s : Session ρ ν) :
    ∃ notes, Follows s (s.writeAs react kind name v).1 [] notes := by
  cases hdone : (s.writeAs react kind name v).2 with
  | error fault =>
    rw [writeAs_of_error react hdone]
    exact ⟨[], .refl s⟩
  | ok _ =>
    obtain ⟨_, w, _, _, hcommit⟩ := writeAs_of_ok react hdone
    rw [hcommit]
    exact follows_commit hreact kind name w s

theorem follows_writeImpulsion (kind : SlotKind) (name : String) (s : Session ρ ν) :
    ∃ notes, Follows s (s.writeImpulsion react kind name).1 [] notes := by
  simp only [writeImpulsion]
  split
  · exact ⟨[], .refl s⟩
  · exact follows_write hreact kind name _ s

theorem follows_toInput (type : ValueType) (decoded : Except Fault Value) (input : String)
    (d : Delivery ρ ν) :
    ∃ notes, Follows d.session (d.toInput react type decoded input).session [] notes := by
  rcases d.toInput_cases react type decoded input with ⟨v, _, _, hwritten⟩ | ⟨fault, stale, hnext⟩
  · obtain ⟨notes, hcommit⟩ := follows_commit hreact .input input v d.session
    rw [hwritten.commit] at hcommit
    exact ⟨notes, hcommit⟩
  · rw [hnext]
    exact ⟨[], .refl _⟩

theorem follows_toInputs (type : ValueType) (decoded : Except Fault Value) (inputs : List String)
    (d : Delivery ρ ν) :
    ∃ notes, Follows d.session (inputs.foldl (Delivery.toInput react type decoded) d).session []
      notes := by
  induction inputs generalizing d with
  | nil => exact ⟨[], .refl _⟩
  | cons input rest ih =>
    obtain ⟨notes, hinput⟩ := follows_toInput hreact type decoded input d
    obtain ⟨more, hrest⟩ := ih (d.toInput react type decoded input)
    exact ⟨_, hinput.trans hrest⟩

theorem follows_deliver (agent output : String) (type : ValueType) (payload : List UInt8)
    (s : Session ρ ν) :
    ∃ notes, Follows s (s.deliver react agent output type payload).1 [] notes := by
  simp only [deliver]
  split
  · exact ⟨[], .refl s⟩
  · split
    · exact ⟨[], .refl s⟩
    · obtain ⟨notes, h⟩ := follows_toInputs hreact type (Value.ofWire type payload)
        ((s.agent.wiring.routes agent output).map (·.2)) { session := s }
      split
      · exact ⟨notes, ⟨h.journal, h.observers, h.live⟩, h.told⟩
      · exact ⟨notes, h⟩

theorem follows_perform {op : Op ρ ν} (hop : op.Writing) (s : Session ρ ν) :
    ∃ notes, Follows s (s.perform react op).1 [] notes := by
  cases op with
  | note look => exact ⟨[], .refl s⟩
  | write kind name v => exact follows_write hreact kind name v s
  | writeAs kind name v => exact follows_writeAs hreact kind name v s
  | writeImpulsion kind name => exact follows_writeImpulsion hreact kind name s
  | deliver agent output type payload => exact follows_deliver hreact agent output type payload s
  | _ => exact hop.elim

theorem follows_exec (who : ρ) {p : Program ρ ν} (hp : p.Within Op.Writing) (s : Session ρ ν) :
    ∃ notes, Follows s (p.exec (Session.perform react) who s) [] notes := by
  induction p generalizing s with
  | done => exact ⟨[], .refl s⟩
  | act choose next ih =>
    obtain ⟨hchoose, hnext⟩ := hp
    obtain ⟨notes, hop⟩ := follows_perform hreact (hchoose s.agent) s
    have hdid := follows_did (s.perform react (choose s.agent)).1 who
      (s.perform react (choose s.agent)).2
    obtain ⟨more, hrest⟩ := ih _ (hnext (s.perform react (choose s.agent)).2)
      ((s.perform react (choose s.agent)).1.note (.did who (s.perform react (choose s.agent)).2))
    exact ⟨_, (hop.trans hdid).trans hrest⟩

end Calls

/-- Observers that only write tell everybody what they store, however deep they call one another. -/
theorem tells_react {b : Behaviour ρ ν} (hb : b.Within Op.Writing) (depth : Nat) :
    (b.react depth).Tells := by
  induction depth with
  | zero => exact fun who firing s => ⟨_, _, [], follows_called s who firing _ _⟩
  | succ depth ih =>
    intro who firing s
    have hcalled := follows_called s who firing s.agent.muted s.agent.frozen
    obtain ⟨notes, hexec⟩ := follows_exec ih who (hb who firing)
      (s.note (.called who firing s.agent.muted s.agent.frozen))
    exact ⟨_, _, notes, hcalled.trans hexec⟩

/-- When an operation that writes is over, nothing was stored in a slot after the last call by which an
observer was told of it, and the slot holds what was stored last before that call. That is what the
observer was told, if nothing was stored in the slot between the store it was told of and the call. For
the observer that registered first it is so in any case. -/
theorem told_last {b : Behaviour ρ ν} (hb : b.Within Op.Writing) (depth : Nat) {op : Op ρ ν}
    (hop : op.Writing) (s : Session ρ ν) :
    let t := (s.perform (b.react depth) op).1
    ∃ notes, t.journal = s.journal ++ notes ∧
      ∀ who kind slot muted frozen before after,
        notes = before ++ .called who (.slot kind slot) muted frozen :: after →
        (∀ n ∈ after, ¬n.Tells who kind slot.name) →
        lastStored kind slot.name after = none ∧
        t.agent.registry.find? kind slot.name = lastStored kind slot.name before ∧
        (∃ stored, .stored kind slot stored ∈ before) ∧
        (∀ earlier stored between, before = earlier ++ .stored kind slot stored :: between →
          lastStored kind slot.name between = none →
          t.agent.registry.find? kind slot.name = some slot) ∧
        (∀ others, s.agent.registry.watchers kind slot.name = who :: others → who ∉ others →
          t.agent.registry.find? kind slot.name = some slot) := by
  intro t
  obtain ⟨notes, h⟩ := follows_perform (tells_react hb depth) hop s
  refine ⟨notes, h.journal, ?_⟩
  rintro who kind slot muted frozen before after rfl hlast
  have htold := h.told
  obtain ⟨stored, hstored, hwho⟩ : ∃ stored, .stored kind slot stored ∈ before ∧
      who ∈ s.agent.registry.watchers kind slot.name := by
    rcases htold.stored_of_called with howed | ⟨k, stored, muted, hfiring, hmem, hwho⟩
    · exact absurd howed List.not_mem_nil
    · cases hfiring
      exact ⟨muted, hmem, hwho⟩
  have hafter := htold.lastStored_eq_none hwho hlast
  have hlive : t.agent.registry.find? kind slot.name =
      (lastStored kind slot.name before).or (s.agent.registry.find? kind slot.name) := by
    rw [h.live, lastStored_append_cons, hafter]
    rfl
  have hsome : (lastStored kind slot.name before).isSome = true := by
    rw [Option.isSome_iff_ne_none]
    exact fun hnone => lastStored_eq_none_iff.mp hnone kind slot stored hstored ⟨rfl, rfl⟩
  have hheld : t.agent.registry.find? kind slot.name = lastStored kind slot.name before := by
    rw [hlive]
    exact Option.or_of_isSome hsome
  refine ⟨hafter, hheld, ⟨stored, hstored⟩, ?_, ?_⟩
  · rintro earlier stored between rfl hnone
    exact hheld.trans (lastStored_of_between hnone earlier stored)
  · intro others hfirst hothers
    rcases htold.stored_just_before hfirst hothers with howed | ⟨stored, hend⟩
    · exact absurd howed List.not_mem_nil
    · obtain ⟨earlier, rfl⟩ := List.getLast?_eq_some_iff.mp hend
      exact hheld.trans (lastStored_of_between rfl earlier stored)

inductive Gauge
  | limiter
  | meter
  deriving DecidableEq

/-- The limiter brings a level of ten down to five, and the meter only looks. -/
def limiting : Behaviour Gauge Unit
  | .limiter, .slot kind slot =>
    if slot.value = .integer 10 then .once (.write kind slot.name (.integer 5)) else .done
  | _, _ => .done

theorem limiting_within : limiting.Within Op.Writing := by
  intro who firing
  cases who with
  | limiter =>
    cases firing with
    | slot kind slot =>
      simp only [limiting]
      split
      · exact ⟨fun _ => trivial, fun _ => trivial⟩
      · trivial
    | muted | frozen => trivial
  | meter => trivial

/-- The limiter watches the level and, after it, the meter. -/
def tank : Session Gauge Unit :=
  ({ agent := { config := { name := "tank" }, definition := { name := "tank" } } } :
      Session Gauge Unit).performAll (limiting.react 2)
    [.createSlot .input "level" .integer none,
      .observe .input "level" .limiter,
      .observe .input "level" .meter]

def level (n : Int64) : Slot :=
  { name := "level", type := .integer, value := .integer n }

def filled : Session Gauge Unit :=
  (tank.perform (limiting.react 2) (.write .input "level" (.integer 10))).1

/-- The write of the limiter is over before the meter is called for the first time. -/
theorem journal_filled : filled.journal =
    [.stored .input (level 10) false,
      .called .limiter (.slot .input (level 10)) false false,
      .stored .input (level 5) false,
      .called .limiter (.slot .input (level 5)) false false,
      .called .meter (.slot .input (level 5)) false false,
      .did .limiter (.ok .done),
      .called .meter (.slot .input (level 10)) false false] :=
  rfl

theorem limiter_told_last : limiting.Within Op.Writing ∧
    (Op.write .input "level" (.integer 10) : Op Gauge Unit).Writing ∧
    filled.agent.registry.find? .input "level" = some (level 5) := by
  refine ⟨limiting_within, trivial, ?_⟩
  have hwrite : (Op.write .input "level" (.integer 10) : Op Gauge Unit).Writing := trivial
  obtain ⟨notes, hjournal, h⟩ := told_last limiting_within 2 hwrite tank
  have hnotes : notes = _ := hjournal.symm.trans journal_filled
  have hlimiter := h .limiter .input (level 5) false false
    [.stored .input (level 10) false, .called .limiter (.slot .input (level 10)) false false,
      .stored .input (level 5) false] _ hnotes (by simp [Note.Tells])
  exact hlimiter.2.2.2.2 [.meter] rfl (by decide)

theorem meter_told_late : tank.Reachable ∧ limiting.Within Op.Writing ∧
    filled = (tank.perform (limiting.react 2) (.write .input "level" (.integer 10))).1 ∧
    filled.journal.getLast? = some (.called .meter (.slot .input (level 10)) false false) ∧
    filled.agent.registry.find? .input "level" = some (level 5) ∧ level 5 ≠ level 10 := by
  have hbuild : ({ config := { name := "tank" } } : Plan).build Gauge =
    .ok ⟨{ config := { name := "tank" }, definition := { name := "tank" } }, []⟩ := rfl
  have hsound : limiting.Sound := fun who firing => (limiting_within who firing).sound
  refine ⟨?_, limiting_within, rfl, ?_, rfl, by decide⟩
  · exact (reachable_of_build hbuild).path
      (path_performAll (sound_react hsound 2) (by simp [Op.Sound]) _)
  · rw [journal_filled]
    rfl

end Session

end Patchbay
