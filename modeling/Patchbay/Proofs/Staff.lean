import Patchbay.Proofs.Settled

/-!
# The observers of an agent

Observers of slots are kept by the registry, and observers of the two flags by the agent, in a list each.
All three lists take their identifiers from one counter. Only five operations are about observers: four by
which somebody begins to observe, and one by which somebody ends. All else that is done leaves the lists
and the counter alone, also where slots are declared, taken away or replaced by those of a definition.
-/

namespace Patchbay

variable {ρ ν : Type}

/-- The three lists of observers, and the identifier that comes next. -/
structure Staff (ρ : Type) where
  slots : List (Observer ρ)
  mute : List (FlagObserver ρ)
  freeze : List (FlagObserver ρ)
  nextId : Nat

def Agent.staff (a : Agent ρ) : Staff ρ :=
  ⟨a.registry.observers, a.muteObservers, a.freezeObservers, a.registry.nextId⟩

/-- The operation is about observers. -/
def Op.Enrols : Op ρ ν → Prop
  | .observe .. | .observeAll _ | .observeMute _ | .observeFreeze _ | .unobserve _ => True
  | _ => False

namespace Registry

theorem exists_table_createAll (ts : List (SlotKind × Slot)) (r : Registry ρ) :
    ∃ table, (createAll ts r).1 = r.withTable table := by
  induction ts generalizing r with
  | nil => exact ⟨r.table, rfl⟩
  | cons t rest ih =>
    simp only [createAll]
    cases hcreate : r.create t.1 t.2.name t.2.type (some t.2.value) with
    | error fault => exact ⟨r.table, rfl⟩
    | ok made =>
      obtain ⟨_, _, _, hmade⟩ := create_eq_ok hcreate
      obtain ⟨table, hrest⟩ := ih made.2
      exact ⟨table, hrest.trans (hmade ▸ rfl)⟩

theorem exists_table_remove {r after : Registry ρ} {kind : SlotKind} {name : String} {s : Slot}
    (h : r.remove kind name = .ok (s, after)) : ∃ table, after = r.withTable table := by
  obtain ⟨done, _, heq⟩ := of_map_eq_ok h
  cases heq
  exact ⟨done.2, rfl⟩

end Registry

namespace Agent
variable (a : Agent ρ)

section Declare

theorem staff_resolveFor (kind : SlotKind) : (a.resolveFor kind).agent.staff = a.staff := by
  simp only [resolveFor]
  split <;> rfl

theorem staff_createSlot (kind : SlotKind) (name : String) (type : ValueType) (initial : Option Value) :
    (a.createSlot kind name type initial).agent.staff = a.staff := by
  simp only [createSlot]
  cases hcreate : a.registry.create kind name type initial with
  | error fault => rfl
  | ok made =>
    obtain ⟨s, registry⟩ := made
    obtain ⟨_, _, _, rfl⟩ := Registry.create_eq_ok hcreate
    dsimp only
    cases a.definition.addSlot kind s with
    | ok d => exact staff_resolveFor _ kind
    | error fault =>
      obtain ⟨t, hremove⟩ := remove_create hcreate
      simp only [hremove]
      rfl

theorem staff_removeSlot (kind : SlotKind) (name : String) :
    (a.removeSlot kind name).agent.staff = a.staff := by
  simp only [removeSlot]
  cases a.definition.removeSlot kind name with
  | error fault => rfl
  | ok dropped =>
    dsimp only
    cases hremove : a.registry.remove kind name with
    | error fault => rfl
    | ok done =>
      obtain ⟨_, registry⟩ := done
      obtain ⟨table, rfl⟩ := Registry.exists_table_remove hremove
      exact staff_resolveFor _ kind

theorem staff_withRegistry {outcome : Except Fault (Registry ρ)}
    (h : ∀ after, outcome = .ok after → ∃ table, after = a.registry.withTable table) :
    (a.withRegistry outcome).agent.staff = a.staff := by
  cases outcome with
  | error fault => rfl
  | ok after =>
    obtain ⟨table, rfl⟩ := h after rfl
    rfl

theorem staff_clearSlot (kind : SlotKind) (name : String) :
    (a.clearSlot kind name).agent.staff = a.staff := by
  refine a.staff_withRegistry fun after h => ?_
  obtain ⟨done, _, rfl⟩ := of_map_eq_ok h
  exact ⟨done.2, rfl⟩

theorem staff_setOutputMuted (name : String) (flag : Bool) :
    (a.setOutputMuted name flag).agent.staff = a.staff := by
  refine a.staff_withRegistry fun after h => ?_
  obtain ⟨done, _, rfl⟩ := of_map_eq_ok h
  exact ⟨done.2, rfl⟩

theorem staff_withDefinition (outcome : Except Fault Definition) :
    (a.withDefinition outcome).agent.staff = a.staff := by
  cases outcome <;> rfl

theorem staff_loadDefinition (d : Definition) : (a.loadDefinition d).agent.staff = a.staff := by
  simp only [loadDefinition]
  split
  · rfl
  · split <;> rfl

theorem staff_loadDefinitionText (text : String) :
    (a.loadDefinitionText text).agent.staff = a.staff := by
  simp only [loadDefinitionText]
  split
  · rfl
  · exact a.staff_loadDefinition _

theorem staff_clearDefinition : a.clearDefinition.agent.staff = a.staff := by
  simp only [clearDefinition]
  split <;> rfl

theorem staff_setDefinitionName (name : String) :
    (a.setDefinitionName name).agent.staff = a.staff := by
  simp only [setDefinitionName]
  split <;> rfl

theorem staff_unregisterCategory (name : String) :
    (a.unregisterCategory name).agent.staff = a.staff := by
  simp only [unregisterCategory]
  split <;> rfl

theorem staff_removeCall (name : String) : (a.removeCall name).agent.staff = a.staff := by
  simp only [removeCall]
  split <;> rfl

theorem staff_addCategory (c : Category) : (a.addCategory c).agent.staff = a.staff := by
  obtain ⟨table, htable⟩ := Registry.exists_table_createAll c.slots.all a.registry
  simp only [addCategory]
  cases a.definition.addCategory c with
  | error fault => rfl
  | ok d =>
    dsimp only
    split <;>
    · rename_i hcreated
      rw [hcreated] at htable
      cases htable
      rfl

end Declare

section Connect

theorem staff_addRule (r : Rule) : (a.addRule r).agent.staff = a.staff := by
  simp only [addRule]
  split <;> rfl

theorem staff_removeEntry (id : Nat) : (a.removeEntry id).agent.staff = a.staff := by
  simp only [removeEntry]
  split <;> rfl

theorem staff_removeFeed (input agent output : String) :
    (a.removeFeed input agent output).agent.staff = a.staff := by
  simp only [removeFeed]
  split <;> rfl

theorem staff_loadMapping (m : Mapping) : (a.loadMapping m).agent.staff = a.staff := by
  simp only [loadMapping]
  split <;> rfl

theorem staff_loadMappingText (text : String) : (a.loadMappingText text).agent.staff = a.staff := by
  simp only [loadMappingText]
  split
  · rfl
  · exact a.staff_loadMapping _

theorem staff_hearPeer (agent : String) (d : Option Definition) :
    (a.hearPeer agent d).agent.staff = a.staff := by
  simp only [hearPeer]
  split <;> rfl

theorem staff_hearPeerText (agent : String) (text : Option String) :
    (a.hearPeerText agent text).agent.staff = a.staff := by
  cases text with
  | none => exact a.staff_hearPeer agent none
  | some text =>
    simp only [hearPeerText]
    split
    · exact a.staff_hearPeer agent _
    · rfl

end Connect

end Agent

namespace Session
open Agent

theorem staff_perform (s : Session ρ ν) {op : Op ρ ν} (quiet : op.Quiet) (h : ¬op.Enrols)
    (react : React ρ ν) : (s.perform react op).1.agent.staff = s.agent.staff := by
  cases op with
  | createSlot kind name type initial => exact staff_createSlot _ kind name type initial
  | removeSlot kind name => exact staff_removeSlot _ kind name
  | write | writeAs | writeImpulsion | setMuted | setFrozen | deliver => exact quiet.elim
  | clearSlot kind name => exact staff_clearSlot _ kind name
  | setOutputMuted name flag => exact staff_setOutputMuted _ name flag
  | observe | observeAll | observeMute | observeFreeze | unobserve => exact absurd trivial h
  | addRule rule => exact staff_addRule _ rule
  | removeEntry id => exact staff_removeEntry _ id
  | removeFeed input agent output => exact staff_removeFeed _ input agent output
  | loadMapping mapping => exact staff_loadMapping _ mapping
  | loadMappingText text => exact staff_loadMappingText _ text
  | loadDefinition definition => exact staff_loadDefinition _ definition
  | loadDefinitionText text => exact staff_loadDefinitionText _ text
  | clearDefinition => exact staff_clearDefinition _
  | setDefinitionName name => exact staff_setDefinitionName _ name
  | addCategory category => exact staff_addCategory _ category
  | unregisterCategory name => exact staff_unregisterCategory _ name
  | addCall | addArgument | removeArgument => exact staff_withDefinition _ _
  | removeCall name => exact staff_removeCall _ name
  | hearPeer agent definition => exact staff_hearPeer _ agent definition
  | hearPeerText agent text => exact staff_hearPeerText _ agent text
  | note | clearMappings | describeMapping | describeDefinition | registerCategory | hearPeers | setState
  | setRequestOutputs => rfl

theorem staff_store {s : Session ρ ν} {kind : SlotKind} {name : String} {v : Value}
    {registry : Registry ρ} {pending : Notification ρ}
    (hwrite : s.agent.registry.write kind name v = .ok (registry, pending)) :
    (s.store kind name registry).agent.staff = s.agent.staff := by
  obtain ⟨_, _, _, rfl, _⟩ := Registry.write_eq_ok hwrite
  rfl

/-- Whatever is done that is not about observers, and whatever observers do meanwhile that is not, the
lists of observers stay as they are. -/
theorem kept_staff (staff : Staff ρ) :
    Kept (ν := ν) (fun op => ¬op.Enrols) fun s => s.agent.staff = staff where
  operate s _ react h quiet hs := (s.staff_perform quiet h react).trans hs
  store _ _ _ _ _ _ hwrite hs := (staff_store hwrite).trans hs
  mute _ _ hs := hs
  freeze _ _ hs := hs
  resolve _ hs := hs
  called _ _ _ _ _ hs := hs
  did _ _ _ hs := hs

theorem staff_start {p : Plan} {site : Plan.Site ρ} (hbuild : p.build ρ = .ok site) :
    (start site : Session ρ ν).agent.staff = ⟨[], [], [], 1⟩ :=
  (kept_staff (ν := ν) ⟨[], [], [], 1⟩).build (fun _ => id) (fun _ => id) (fun _ _ => id)
    (fun _ _ => rfl) hbuild

end Session

end Patchbay
