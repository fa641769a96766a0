import Patchbay.Proofs.Refusal

/-!
# The log of publications

The values of outputs are published in the order in which they are stored, each once, unless the agent or
the output is muted at that moment. What is stored in the course of an operation is stored by the
operation itself or by observers that it calls, and `Stores` tells the one from the other. An accepted
write stores one value, a delivery one for each input that it reports as written, and no other operation
stores any.
-/

namespace Patchbay

variable {ρ ν : Type}

/-- A value as it was stored in a slot, while the agent was muted or not. -/
structure Stored where
  kind : SlotKind
  slot : Slot
  muted : Bool

/-- What a stored value gives others to read: the output, its type and the value on the wire. -/
def Stored.publication? (w : Stored) : Option (String × ValueType × List UInt8) :=
  if w.kind = .output ∧ w.muted = false ∧ w.slot.muted = false then
    some (w.slot.name, w.slot.type, w.slot.value.wire)
  else none

def Note.stored? : Note ρ ν → Option Stored
  | .stored kind slot muted => some ⟨kind, slot, muted⟩
  | _ => none

/-- A live slot under a name, which the definition declares with the same type. -/
structure Agent.Holds (a : Agent ρ) (kind : SlotKind) (name : String) (slot : Slot) : Prop where
  live : a.registry.find? kind name = some slot
  named : slot.name = name
  declared : (a.definition.find? kind name).map (·.type) = some slot.type

/-- A write that is answered without a fault stores one value, of the type of the slot. A refused one
stores none. -/
def Agent.StoresOne (a : Agent ρ) (kind : SlotKind) (name : String) (value : Slot → Value → Prop)
    (answer : Except Fault (Reply ν)) (own : List Stored) : Prop :=
  match answer with
  | .ok _ => ∃ slot v, a.Holds kind name slot ∧ v.type = slot.type ∧ value slot v ∧
      own = [⟨kind, { slot with value := v }, a.muted⟩]
  | .error _ => own = []

/-- What an operation stores by itself, if it gives this answer to an agent in this state. -/
def Op.Storing (a : Agent ρ) (answer : Except Fault (Reply ν)) (own : List Stored) : Op ρ ν → Prop
  | .write kind name given => a.StoresOne kind name (fun _ v => v = given) answer own
  | .writeAs kind name given =>
    a.StoresOne kind name (fun slot v => given.convert slot.type = .ok v) answer own
  | .writeImpulsion kind name => a.StoresOne kind name (fun slot v => v = .zero slot.type) answer own
  | .deliver _ _ type payload =>
    match answer with
    | .ok (.report report) => report.written = own.map (·.slot.name) ∧
        ∀ w ∈ own, w.kind = .input ∧ Value.ofWire type payload = .ok w.slot.value
    | _ => own = []
  | _ => own = []

namespace Session

def publications (s : Session ρ ν) : List (String × ValueType × List UInt8) :=
  s.sent.filterMap Effect.publication?

def stored (s : Session ρ ν) : List Stored :=
  s.journal.filterMap Note.stored?

/-- On the way from `s`, an operation has stored these values by itself. Each was published as its mute
flags say and is live afterwards. In between observers were called, and whatever else the operation did
neither stored nor published anything. -/
inductive Stores (react : React ρ ν) (s : Session ρ ν) : List Stored → Session ρ ν → Prop
  | start : Stores react s [] s
  | store {own : List Stored} {t u : Session ρ ν} (w : Stored) (h : Stores react s own t)
      (hstored : u.stored = t.stored ++ [w])
      (hpublished : u.publications = t.publications ++ w.publication?.toList)
      (hlive : u.agent.registry.find? w.kind w.slot.name = some w.slot)
      (hmuted : u.agent.muted = w.muted) : Stores react s (own ++ [w]) u
  | call {own : List Stored} {t : Session ρ ν} (h : Stores react s own t) (who : ρ) (firing : Firing) :
      Stores react s own (react who firing t)
  | other {own : List Stored} {t u : Session ρ ν} (h : Stores react s own t)
      (hstored : u.stored = t.stored) (hpublished : u.publications = t.publications) :
      Stores react s own u

section Store
variable {s : Session ρ ν} {kind : SlotKind} {name : String} {v : Value} {registry : Registry ρ}
  {pending : Notification ρ} {slot : Slot}
  (hwrite : s.agent.registry.write kind name v = .ok (registry, pending))
  (hslot : s.agent.registry.find? kind name = some slot)
include hwrite hslot

theorem find?_store :
    (s.store kind name registry).agent.registry.find? kind name = some { slot with value := v } := by
  have hfind := Registry.find?_write hwrite kind name
  rw [if_pos ⟨rfl, rfl⟩, hslot] at hfind
  exact hfind

theorem stored_store : (s.store kind name registry).stored =
    s.stored ++ [⟨kind, { slot with value := v }, s.agent.muted⟩] := by
  have hfind : registry.find? kind name = some { slot with value := v } := find?_store hwrite hslot
  simp only [stored, store, hfind, Option.toList_some, List.map_cons, List.map_nil,
    List.filterMap_append]
  rfl

theorem publications_store : (s.store kind name registry).publications = s.publications ++
    (Stored.mk kind { slot with value := v } s.agent.muted).publication?.toList := by
  have hfind : registry.find? kind name = some { slot with value := v } := find?_store hwrite hslot
  simp only [publications, store, List.filterMap_append, Agent.publication, hfind,
    Stored.publication?]
  congr 1
  by_cases houtput : kind = .output
  · cases s.agent.muted <;> cases slot.muted <;> simp [houtput, Effect.publication?]
  · simp [houtput]

end Store

/-- What was published is what was stored, as the mute flags were then, in this order. -/
def Published (s : Session ρ ν) : Prop :=
  s.publications = s.stored.filterMap Stored.publication?

theorem published_store {s : Session ρ ν} (h : s.Published) {kind : SlotKind} {name : String}
    {v : Value} {registry : Registry ρ} {pending : Notification ρ}
    (hwrite : s.agent.registry.write kind name v = .ok (registry, pending)) :
    (s.store kind name registry).Published := by
  obtain ⟨slot, hslot, _⟩ := Registry.write_eq_ok hwrite
  simp only [Published]
  rw [publications_store hwrite hslot, stored_store hwrite hslot, h, List.filterMap_append]
  congr 1

theorem publications_rewired (s : Session ρ ν) {b : Agent ρ} {sent : List Effect}
    (h : s.agent.Rewired b sent) :
    ({ s with agent := b, sent := s.sent ++ sent } : Session ρ ν).publications = s.publications := by
  simp only [publications]
  rw [List.filterMap_append, h.unpublished, List.append_nil]

theorem publications_resolve (s : Session ρ ν) :
    (s.run Agent.resolve).1.publications = s.publications :=
  publications_rewired s (Agent.rewired_pass [] rfl rfl)

/-- Between any two steps of a run, nothing was published but what was stored. -/
theorem kept_published :
    Kept Op.Sound fun s : Session ρ ν => s.agent.Settled ∧ s.Published where
  operate s op react sound quiet h := by
    obtain ⟨b, sent, hperform, hrewired⟩ := rewired_perform h.1 sound quiet react
    refine ⟨settled_perform h.1 sound quiet react, ?_⟩
    rw [hperform]
    exact (publications_rewired s hrewired).trans h.2
  store s kind name v registry pending hwrite h :=
    ⟨settled_step h.1 (.store hwrite), published_store h.2 hwrite⟩
  mute s flag h := ⟨settled_step h.1 (.mute s flag), h.2⟩
  freeze s flag h := ⟨settled_step h.1 (.freeze s flag), h.2⟩
  resolve s h := ⟨settled_step h.1 (.resolve s), (publications_resolve s).trans h.2⟩
  called s who firing muted frozen h := by
    refine ⟨h.1, ?_⟩
    have hstored : (s.note (.called who firing muted frozen)).stored = s.stored := by
      simp [stored, note, Note.stored?]
    simp only [Published]
    rw [hstored]
    exact h.2
  did s who answer h := by
    refine ⟨h.1, ?_⟩
    have hstored : (s.note (.did who answer)).stored = s.stored := by
      simp [stored, note, Note.stored?]
    simp only [Published]
    rw [hstored]
    exact h.2

section Own
variable {react : React ρ ν} {s t : Session ρ ν} {own : List Stored}

theorem keeps_stores (react : React ρ ν) (s : Session ρ ν) (own : List Stored) :
    react.Keeps (Stores react s own) :=
  fun who firing _ h => h.call who firing

/-- A value that the registry accepts is stored, and then the observers of the slot are called. -/
theorem Stores.commit (h : Stores react s own t) {kind : SlotKind} {name : String} {v : Value}
    (hdone : (t.commit react kind name (t.agent.registry.write kind name v)).2 = .ok ()) :
    ∃ slot, t.agent.registry.find? kind name = some slot ∧ v.type = slot.type ∧
      Stores react s (own ++ [⟨kind, { slot with value := v }, t.agent.muted⟩])
        (t.commit react kind name (t.agent.registry.write kind name v)).1 := by
  cases hwrite : t.agent.registry.write kind name v with
  | error fault =>
    rw [hwrite] at hdone
    cases hdone
  | ok done =>
    obtain ⟨registry, pending⟩ := done
    obtain ⟨slot, hslot, htype, _⟩ := Registry.write_eq_ok hwrite
    refine ⟨slot, hslot, htype, ?_⟩
    apply notify_keeps (keeps_stores react s _)
    refine h.store _ (stored_store hwrite hslot) (publications_store hwrite hslot) ?_ rfl
    rw [← find?_store hwrite hslot, Interface.name_of_find? hslot]

theorem holds_of_find? (h : s.agent.Settled) {kind : SlotKind} {name : String} {slot : Slot}
    (hslot : s.agent.registry.find? kind name = some slot) : s.agent.Holds kind name slot := by
  refine ⟨hslot, Interface.name_of_find? hslot, ?_⟩
  rw [← h.aligned]
  exact congrArg (Option.map (·.type)) hslot

/-- Where the delivery under way stands: what it has stored are the inputs that it reports. -/
structure Tally (react : React ρ ν) (s : Session ρ ν) (decoded : Except Fault Value)
    (own : List Stored) (d : Delivery ρ ν) : Prop where
  stores : Stores react s own d.session
  written : d.report.written = own.map (·.slot.name)
  inputs : ∀ w ∈ own, w.kind = .input ∧ decoded = .ok w.slot.value

theorem Tally.toInput {decoded : Except Fault Value} {d : Delivery ρ ν}
    (h : Tally react s decoded own d) (type : ValueType) (input : String) :
    ∃ own, Tally react s decoded own (d.toInput react type decoded input) := by
  rcases d.toInput_cases react type decoded input with
    ⟨v, _, rfl, hwritten⟩ | ⟨fault, stale, hnext⟩
  · have hcommit := hwritten.commit
    obtain ⟨slot, hslot, _, hstores⟩ := h.stores.commit (congrArg Prod.snd hcommit)
    rw [hcommit] at hstores
    refine ⟨_, hstores, ?_, ?_⟩
    · obtain ⟨_, _, _, hnext⟩ := hwritten
      rw [hnext, List.map_append, ← h.written]
      exact congrArg (d.report.written ++ [·]) (Interface.name_of_find? hslot).symm
    · intro w hw
      rcases List.mem_append.mp hw with hold | hnew
      · exact h.inputs w hold
      · rw [List.mem_singleton.mp hnew]
        exact ⟨rfl, rfl⟩
  · rw [hnext]
    exact ⟨own, h.stores, h.written, h.inputs⟩

theorem Tally.toInputs {decoded : Except Fault Value} {d : Delivery ρ ν}
    (h : Tally react s decoded own d) (type : ValueType) (inputs : List String) :
    ∃ own, Tally react s decoded own (inputs.foldl (Delivery.toInput react type decoded) d) := by
  induction inputs generalizing d own with
  | nil => exact ⟨own, h⟩
  | cons input rest ih =>
    obtain ⟨next, hnext⟩ := h.toInput type input
    exact ih hnext

end Own

section Operations
variable {s : Session ρ ν} (react : React ρ ν)

theorem write_of_ok {kind : SlotKind} {name : String} {v : Value}
    (hdone : (s.write react kind name v).2 = .ok ()) : s.write react kind name v =
      s.commit react kind name (s.agent.registry.write kind name v) := by
  simp only [write] at hdone ⊢
  cases hwritable : s.agent.checkWritable kind with
  | error fault =>
    rw [hwritable] at hdone
    cases hdone
  | ok _ => rfl

theorem writeAs_of_ok {kind : SlotKind} {name : String} {v : Value}
    (hdone : (s.writeAs react kind name v).2 = .ok ()) :
    ∃ type w, s.agent.registry.type kind name = .ok type ∧ v.convert type = .ok w ∧
      s.writeAs react kind name v = s.commit react kind name (s.agent.registry.write kind name w) := by
  simp only [writeAs] at hdone ⊢
  cases hwritable : s.agent.checkWritable kind with
  | error fault =>
    rw [hwritable] at hdone
    cases hdone
  | ok _ =>
    rw [hwritable] at hdone
    cases hwrite : s.agent.registry.writeAs kind name v with
    | error fault =>
      rw [hwrite] at hdone
      cases hdone
    | ok done =>
      obtain ⟨type, w, htype, hw, hwritten⟩ := Registry.writeAs_eq_ok hwrite
      exact ⟨type, w, htype, hw, by rw [hwritten]⟩

theorem writeImpulsion_of_ok {kind : SlotKind} {name : String}
    (hdone : (s.writeImpulsion react kind name).2 = .ok ()) :
    ∃ type, s.agent.registry.type kind name = .ok type ∧ s.writeImpulsion react kind name =
      s.commit react kind name (s.agent.registry.write kind name (.zero type)) := by
  simp only [writeImpulsion] at hdone ⊢
  cases htype : s.agent.registry.type kind name with
  | error fault =>
    rw [htype] at hdone
    cases hdone
  | ok type =>
    rw [htype] at hdone
    exact ⟨type, rfl, write_of_ok react hdone⟩

theorem find?_type_eq {slot : Slot} {kind : SlotKind} {name : String} {type : ValueType}
    (hslot : s.agent.registry.find? kind name = some slot)
    (htype : s.agent.registry.type kind name = .ok type) : type = slot.type := by
  have hsome : (s.agent.registry.find? kind name).map (·.type) = some type :=
    Registry.type_eq_ok_iff.mp htype
  rw [hslot] at hsome
  exact (Option.some.inj hsome).symm

/-- A write that is refused leaves the session as it is, and one that is accepted ends in a commit. -/
theorem storesOne_of_commit (h : s.agent.Settled) {out : Session ρ ν × Except Fault Unit}
    {kind : SlotKind} {name : String} {value : Slot → Value → Prop}
    (hrefused : ∀ fault, out.2 = .error fault → out.1 = s)
    (haccepted : out.2 = .ok () → ∃ v,
      out = s.commit react kind name (s.agent.registry.write kind name v) ∧
      ∀ slot, s.agent.registry.find? kind name = some slot → value slot v) :
    ∃ own, Stores react s own (reply (fun _ => Reply.done) out).1 ∧
      s.agent.StoresOne kind name value (reply (fun _ => (Reply.done : Reply ν)) out).2 own := by
  obtain ⟨t, result⟩ := out
  cases result with
  | error fault =>
    have hsame : t = s := hrefused fault rfl
    exact ⟨[], hsame ▸ .start, rfl⟩
  | ok done =>
    obtain ⟨v, hcommit, hvalue⟩ := haccepted rfl
    have hdone : (s.commit react kind name (s.agent.registry.write kind name v)).2 = .ok () := by
      rw [← hcommit]
    have hstart : Stores react s [] s := .start
    obtain ⟨slot, hslot, htype, hstores⟩ := hstart.commit hdone
    rw [← hcommit] at hstores
    exact ⟨_, hstores, slot, v, holds_of_find? h hslot, htype, hvalue slot hslot, rfl⟩

theorem stores_deliver (agent output : String) (type : ValueType) (payload : List UInt8) :
    ∃ own, Stores react s own (s.deliver react agent output type payload).1 ∧
      (Op.deliver agent output type payload : Op ρ ν).Storing s.agent
        ((s.deliver react agent output type payload).2.map .report) own := by
  simp only [deliver]
  split
  · exact ⟨[], .start, rfl⟩
  · split
    · exact ⟨[], .start, rfl, fun w hw => absurd hw List.not_mem_nil⟩
    · have hstart : Tally react s (Value.ofWire type payload) [] { session := s } :=
        ⟨.start, rfl, fun w hw => absurd hw List.not_mem_nil⟩
      obtain ⟨own, hown⟩ := hstart.toInputs type ((s.agent.wiring.routes agent output).map (·.2))
      refine ⟨own, ?_, hown.written, hown.inputs⟩
      split
      · exact hown.stores.other rfl (publications_resolve _)
      · exact hown.stores

/-- An operation stores by itself what it is said to store. -/
theorem exists_storing (h : s.agent.Settled) {op : Op ρ ν} (sound : op.Sound) :
    ∃ own, Stores react s own (s.perform react op).1 ∧
      op.Storing s.agent (s.perform react op).2 own := by
  by_cases hquiet : op.Quiet
  · obtain ⟨b, sent, hperform, hrewired⟩ := rewired_perform h sound hquiet react
    refine ⟨[], ?_, ?_⟩
    · rw [hperform]
      exact Stores.start.other rfl (publications_rewired s hrewired)
    · cases op with
      | write | writeAs | writeImpulsion | deliver => exact hquiet.elim
      | _ => rfl
  · cases op with
    | write kind name v =>
      exact storesOne_of_commit react h (fun fault => write_of_error react)
        fun hdone => ⟨v, write_of_ok react hdone, fun _ _ => rfl⟩
    | writeAs kind name v =>
      apply storesOne_of_commit react h (fun fault => writeAs_of_error react)
      intro hdone
      obtain ⟨type, w, htype, hw, hout⟩ := writeAs_of_ok react hdone
      exact ⟨w, hout, fun slot hslot => find?_type_eq hslot htype ▸ hw⟩
    | writeImpulsion kind name =>
      apply storesOne_of_commit react h (fun fault => writeImpulsion_of_error react)
      intro hdone
      obtain ⟨type, htype, hout⟩ := writeImpulsion_of_ok react hdone
      exact ⟨.zero type, hout, fun slot hslot => by rw [find?_type_eq hslot htype]⟩
    | setMuted flag =>
      refine ⟨[], ?_, rfl⟩
      simp only [perform, setMuted]
      split
      · exact .start
      · exact call_keeps (keeps_stores react s []) _ _ (Stores.start.other rfl rfl)
    | setFrozen flag =>
      refine ⟨[], ?_, rfl⟩
      simp only [perform, setFrozen]
      split
      · exact .start
      · exact call_keeps (keeps_stores react s []) _ _ (Stores.start.other rfl rfl)
    | deliver agent output type payload => exact stores_deliver react agent output type payload
    | _ => exact absurd trivial hquiet

end Operations

/-- A session that performs operations on a newly built agent, with observers that perform operations of
their own, has published just what it has stored, each value as the mute flags were at that moment. And
whatever operation is performed by anybody on a session that can be reached, it stores by itself the one
value of an accepted write, the inputs of a delivery, and nothing else. -/
theorem publications_exact {p : Plan} {site : Plan.Site ρ} (hbuild : p.build ρ = .ok site)
    {b : Behaviour ρ ν} (hb : b.Sound) (depth : Nat) {ops : List (Op ρ ν)}
    (hops : ∀ op ∈ ops, op.Sound) :
    let t := (start site).performAll (b.react depth) ops
    t.publications = t.stored.filterMap Stored.publication? ∧
    ∀ (s : Session ρ ν) (react : React ρ ν) (op : Op ρ ν), s.Reachable → op.Sound →
      ∃ own, Stores react s own (s.perform react op).1 ∧
        op.Storing s.agent (s.perform react op).2 own := by
  intro t
  refine ⟨?_, fun s react op hs sound => exists_storing react hs.settled sound⟩
  have hstart : (start site : Session ρ ν).agent.Settled ∧ (start site : Session ρ ν).Published :=
    kept_published.build (fun _ => trivial) (fun _ => trivial) (fun _ _ => trivial)
      (fun name _ => ⟨Agent.settled_bare p.config name, rfl⟩) hbuild
  have hreact := kept_published.react (fun who firing => (hb who firing).within) depth
  exact (kept_published.performAll hreact hops hstart).2

/-- An observer that lets an output glow whenever it is called. -/
def glowing : Behaviour Unit Unit :=
  fun _ _ => .once (.writeAs .output "glow" (.string "7"))

/-- The lamp is lit three times: with nothing muted, with all of it muted, and with the glow muted. -/
def lighting : List (Op Unit Unit) :=
  [.createSlot .output "lit" .bool none,
    .createSlot .output "glow" .integer none,
    .observe .output "lit" (),
    .write .output "lit" (.bool true),
    .setMuted true,
    .write .output "lit" (.bool false),
    .setMuted false,
    .setOutputMuted "glow" true,
    .writeAs .output "lit" (.integer 1)]

theorem publications_glowing :
    let site : Plan.Site Unit := ⟨{ config := { name := "lamp" }, definition := { name := "lamp" } }, []⟩
    let t : Session Unit Unit := (start site).performAll (glowing.react 1) lighting
    t.publications =
        [("lit", .bool, [1]), ("glow", .integer, [7, 0, 0, 0, 0, 0, 0, 0]), ("lit", .bool, [1])] ∧
      t.stored.map (fun w => (w.slot.name, w.muted || w.slot.muted)) =
        [("lit", false), ("glow", false), ("lit", true), ("glow", true), ("lit", false),
          ("glow", true)] ∧
      t.publications = t.stored.filterMap Stored.publication? := by
  intro site t
  have hglowing : glowing.Sound := fun who firing => ⟨fun _ => trivial, fun _ => trivial⟩
  have hlighting : ∀ op ∈ lighting, op.Sound := by simp [lighting, Op.Sound]
  have hbuild : ({ config := { name := "lamp" } } : Plan).build Unit = .ok site := rfl
  have h := publications_exact hbuild hglowing 1 hlighting
  exact ⟨by decide +kernel, by decide +kernel, h.1⟩

end Session

end Patchbay
