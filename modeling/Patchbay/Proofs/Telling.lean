import Patchbay.Proofs.Enrolment
import Patchbay.Proofs.Publication

/-!
# Who is told of a write

The roll of observers says who is told of a write, and in which order. A refused write is told to nobody.

That a slot goes away does not change the roll. So an observer of it is told again as soon as there is a
slot of the same kind and name.
-/

namespace Patchbay

variable {ρ ν : Type}

def Enrolment.watches (kind : SlotKind) (name : String) (e : Enrolment ρ) : Bool :=
  match e.post with
  | .slots watch => watch.covers kind name
  | _ => false

/-- The observers that are owed word of a write, in the order of the roll. -/
def watching (kind : SlotKind) (name : String) (roll : List (Enrolment ρ)) : List ρ :=
  (roll.filter (·.watches kind name)).map (·.who)

namespace Op

/-- The slot that the operation writes. -/
def target? : Op ρ ν → Option (SlotKind × String)
  | .write kind name _ => some (kind, name)
  | .writeAs kind name _ => some (kind, name)
  | .writeImpulsion kind name => some (kind, name)
  | _ => none

/-- The operation writes this value into the slot. -/
def Writes (slot : Slot) (v : Value) : Op ρ ν → Prop
  | .write _ _ given => v = given
  | .writeAs _ _ given => given.convert slot.type = .ok v
  | .writeImpulsion _ _ => v = .zero slot.type
  | _ => False

end Op

namespace Session

section Told
variable {s : Session ρ ν} {kind : SlotKind} {name : String}

theorem exists_commit_of_ok {op : Op ρ ν} (hop : op.target? = some (kind, name)) (react : React ρ ν)
    {answer : Reply ν} (hanswer : (s.perform react op).2 = .ok answer) :
    ∃ v, (∀ slot, s.agent.registry.find? kind name = some slot → op.Writes slot v) ∧
      (s.commit react kind name (s.agent.registry.write kind name v)).2 = .ok () ∧
      (s.perform react op).1 = (s.commit react kind name (s.agent.registry.write kind name v)).1 := by
  cases op with
  | write _ _ given =>
    cases hop
    obtain ⟨_, hdone, _⟩ := of_map_eq_ok hanswer
    have hcommit := write_of_ok react hdone
    exact ⟨given, fun _ _ => rfl, hcommit ▸ hdone, congrArg Prod.fst hcommit⟩
  | writeAs _ _ given =>
    cases hop
    obtain ⟨_, hdone, _⟩ := of_map_eq_ok hanswer
    obtain ⟨type, v, htype, hv, hcommit⟩ := writeAs_of_ok react hdone
    refine ⟨v, fun slot hslot => ?_, hcommit ▸ hdone, congrArg Prod.fst hcommit⟩
    rw [find?_type_eq hslot htype] at hv
    exact hv
  | writeImpulsion _ _ =>
    cases hop
    obtain ⟨_, hdone, _⟩ := of_map_eq_ok hanswer
    obtain ⟨type, htype, hcommit⟩ := writeImpulsion_of_ok react hdone
    refine ⟨.zero type, fun slot hslot => ?_, hcommit ▸ hdone, congrArg Prod.fst hcommit⟩
    exact congrArg Value.zero (find?_type_eq hslot htype)
  | _ => cases hop

theorem perform_of_error {op : Op ρ ν} (hop : op.target? = some (kind, name)) (react : React ρ ν)
    {fault : Fault} (hfault : (s.perform react op).2 = .error fault) : (s.perform react op).1 = s := by
  cases op with
  | write => exact write_of_error react (reply_of_error hfault)
  | writeAs => exact writeAs_of_error react (reply_of_error hfault)
  | writeImpulsion => exact writeImpulsion_of_error react (reply_of_error hfault)
  | _ => cases hop

section Staffed
variable {roll : List (Enrolment ρ)} {nextId : Nat} (hstaff : s.agent.staff = .of roll nextId)
include hstaff

theorem watchers_eq (kind : SlotKind) (name : String) :
    s.agent.registry.watchers kind name = watching kind name roll := by
  have hslots : s.agent.registry.observers = roll.filterMap Enrolment.observer? :=
    congrArg Staff.slots hstaff
  rw [Registry.watchers, hslots, watching]
  clear hstaff hslots
  induction roll with
  | nil => rfl
  | cons e rest ih =>
    obtain ⟨id, post, who⟩ := e
    cases post with
    | slots watch =>
      cases hcovers : watch.covers kind name <;>
        simp [Enrolment.observer?, Enrolment.watches, hcovers, ih]
    | mute | freeze => exact ih

/-- The notification that a write returns, and the slot as it is stored. -/
theorem notification_of_write {v : Value} {registry : Registry ρ} {pending : Notification ρ}
    (hwrite : s.agent.registry.write kind name v = .ok (registry, pending)) :
    ∃ slot, s.agent.registry.find? kind name = some slot ∧
      registry.find? kind name = some { slot with value := v } ∧
      pending.kind = kind ∧ pending.observers = watching kind name roll ∧
      (pending.observers ≠ [] → pending.slot = some { slot with value := v }) := by
  obtain ⟨slot, hslot, _, hregistry, hpending⟩ := Registry.write_eq_ok hwrite
  have hfind : registry.find? kind name = some { slot with value := v } := find?_store hwrite hslot
  have hwatchers : registry.watchers kind name = watching kind name roll := by
    rw [← watchers_eq hstaff, hregistry]
    rfl
  refine ⟨slot, hslot, hfind, ?_⟩
  rw [hpending, Registry.notification, hfind, hwatchers]
  refine ⟨rfl, rfl, fun hsome => ?_⟩
  rw [List.isEmpty_eq_false_iff.mpr hsome]
  rfl

theorem notify_of_write {v : Value} {registry : Registry ρ} {pending : Notification ρ}
    (hwrite : s.agent.registry.write kind name v = .ok (registry, pending)) {slot : Slot}
    (hslot : s.agent.registry.find? kind name = some slot) (react : React ρ ν) (t : Session ρ ν) :
    t.notify react pending = t.call react (.slot kind { slot with value := v })
      (watching kind name roll) := by
  obtain ⟨_, hfound, _, hkind, hobservers, hstored⟩ := notification_of_write hstaff hwrite
  cases hslot.symm.trans hfound
  by_cases hnobody : watching kind name roll = []
  · simp only [notify, hobservers, hnobody]
    split <;> rfl
  · simp only [notify, hstored (hobservers ▸ hnobody), hkind, hobservers]

/-- An accepted write stores a value and is told to whoever is on the roll for the slot. -/
theorem perform_of_ok {op : Op ρ ν} (hop : op.target? = some (kind, name)) (react : React ρ ν)
    {answer : Reply ν} (hanswer : (s.perform react op).2 = .ok answer) :
    ∃ slot v registry, s.agent.registry.find? kind name = some slot ∧ op.Writes slot v ∧
      registry.find? kind name = some { slot with value := v } ∧
      (s.perform react op).1 = (s.store kind name registry).call react
        (.slot kind { slot with value := v }) (watching kind name roll) := by
  obtain ⟨v, hv, hdone, hperform⟩ := exists_commit_of_ok hop react hanswer
  cases hwrite : s.agent.registry.write kind name v with
  | error fault =>
    rw [hwrite] at hdone
    cases hdone
  | ok done =>
    obtain ⟨registry, pending⟩ := done
    obtain ⟨slot, hslot, hfind, _⟩ := notification_of_write hstaff hwrite
    refine ⟨slot, v, registry, hslot, hv slot hslot, hfind, ?_⟩
    rw [hperform, hwrite]
    exact notify_of_write hstaff hwrite hslot react _

end Staffed

end Told

/-- Of a write that is refused nobody is told. One that is accepted is told to those on the roll who watch
the slot, to each of them once and in the order of the roll, with the value as it is stored. -/
structure Tells (s : Session ρ ν) (roll : List (Enrolment ρ)) : Prop where
  notification : ∀ kind name v registry (pending : Notification ρ),
    s.agent.registry.write kind name v = .ok (registry, pending) →
    ∃ slot, registry.find? kind name = some slot ∧ slot.value = v ∧ pending.kind = kind ∧
      pending.observers = watching kind name roll ∧
      (pending.observers ≠ [] → pending.slot = some slot)
  accepted : ∀ (react : React ρ ν) op kind name, op.target? = some (kind, name) →
    ∀ answer, (s.perform react op).2 = .ok answer →
      ∃ slot v registry, s.agent.registry.find? kind name = some slot ∧ op.Writes slot v ∧
        registry.find? kind name = some { slot with value := v } ∧
        (s.perform react op).1 = (s.store kind name registry).call react
          (.slot kind { slot with value := v }) (watching kind name roll)
  refused : ∀ (react : React ρ ν) op kind name, op.target? = some (kind, name) →
    ∀ fault, (s.perform react op).2 = .error fault → (s.perform react op).1 = s

theorem Enrolled.tells {roll : List (Enrolment ρ)} {given : List Nat} {s : Session ρ ν}
    (h : Enrolled roll given s) : s.Tells roll where
  notification _ _ _ _ _ hwrite := by
    obtain ⟨slot, _, hfind, hpending⟩ := notification_of_write h.staff hwrite
    exact ⟨_, hfind, rfl, hpending⟩
  accepted react _ _ _ hop _ hanswer := perform_of_ok h.staff hop react hanswer
  refused react _ _ _ hop _ hfault := perform_of_error hop react hfault

/-- However an agent is used, by its observers too, identifiers are given to observers in turn from one on,
and none is lost to a refusal. The agent has those observers that were entered and not struck off. Whoever
is to be struck off is found by the identifier in whichever list, and no other goes. Each accepted write is
told to whom it concerns among them, and whoever is on the roll stays on it: an observer of a slot that went
away is told of the slot that comes in its place. -/
theorem observers_on_roll {p : Plan} {site : Plan.Site ρ} (hbuild : p.build ρ = .ok site) :
    (∀ (react : React ρ ν) ops, (∀ op ∈ ops, op.Quiet) →
      Log (start site) (deeds react ops (start site)) ((start site).performAll react ops)) ∧
    (∀ t : Session ρ ν, Path (start site) t → ∃ log, Log (start site) log t) ∧
    ∀ (log : List (Deed ρ ν)) (s : Session ρ ν), Log (start site) log s →
      Enrolled (roll log) (issued log) s ∧
      (∀ (react : React ρ ν) op post who, op.post? = some (post, who) →
        (∃ kind name, post = .slots (.slot kind name) ∧ s.agent.registry.find? kind name = none ∧
          s.perform react op = (s, .error (.unknownSlot kind name))) ∨
        (s.perform react op).2 = .ok (.id ((issued log).length + 1))) ∧
      (∀ (react : React ρ ν) id, let out := s.perform react (.unobserve id)
        out.2 = .ok (.flag ((roll log).any (·.id == id))) ∧
        out.1.agent.staff = .of ((roll log).filter (·.id != id)) ((issued log).length + 1)) ∧
      s.Tells (roll log) ∧
      ∀ e ∈ roll log, ∀ more t, Log s more t → (∀ d ∈ more, d.op ≠ .unobserve e.id) →
        e ∈ roll (log ++ more) ∧
        ∀ kind name slot v, e.watches kind name = true →
          t.agent.registry.find? kind name = some slot → v.type = slot.type →
          ∃ registry pending, t.agent.registry.write kind name v = .ok (registry, pending) ∧
            pending.slot = some { slot with value := v } ∧ e.who ∈ pending.observers := by
  have hstart : (start site : Session ρ ν).agent.staff = .of [] 1 := staff_start hbuild
  refine ⟨fun react ops quiet => Log.start.performAll react quiet, fun t => exists_log, ?_⟩
  intro log s hlog
  have h := hlog.enrolled hstart
  refine ⟨h, fun react op post who hop => ?_, fun react id => ?_, h.tells, ?_⟩
  · exact (enrol_perform h.staff hop react).imp_right And.left
  · exact unobserve_perform h.staff h.distinct react id
  · intro e he more t hmore hkept
    have hthere := mem_roll_append he more hkept
    refine ⟨hthere, fun kind name slot v hwatches hslot htype => ?_⟩
    obtain ⟨registry, pending, hwrite⟩ := Registry.write_of_find? hslot htype
    have hstaff := ((hlog.trans hmore).enrolled hstart).staff
    obtain ⟨_, hfound, _, _, hobservers, hstored⟩ := notification_of_write hstaff hwrite
    cases hslot.symm.trans hfound
    have htold : e.who ∈ pending.observers := by
      rw [hobservers]
      exact List.mem_map_of_mem (List.mem_filter.mpr ⟨hthere, hwatches⟩)
    exact ⟨registry, pending, hwrite, hstored (List.ne_nil_of_mem htold), htold⟩

def kettle : Plan := { config := { name := "kettle" } }

/-- Everybody begins to observe, but for the whistle: there is no steam yet. -/
def attended : List (Op String Unit) :=
  [.createSlot .input "heat" .integer none,
    .observe .input "heat" "dial",
    .observeMute "lamp",
    .observe .input "steam" "whistle",
    .observeAll "diary"]

/-- The lamp is struck off, and the heat comes back with another type. -/
def rebuilt : List (Op String Unit) :=
  [.removeSlot .input "heat",
    .unobserve 2,
    .createSlot .input "heat" .double none]

/-- The dial is told of the heat that it did not observe first, before the diary, and the lamp is not there
any more to be struck off. -/
theorem dial_told_again :
    let site : Plan.Site String :=
      ⟨{ config := { name := "kettle" }, definition := { name := "kettle" } }, []⟩
    let react := Behaviour.idle.react 0
    let s := (start site).performAll react attended
    let t := s.performAll react rebuilt
    kettle.build String = .ok site ∧
      Enrolled [⟨1, .slots (.slot .input "heat"), "dial"⟩, ⟨3, .slots .everything, "diary"⟩] [1, 2, 3] t ∧
      (t.perform react (.unobserve 2)).2 = .ok (.flag false) ∧
      ∃ registry pending,
        t.agent.registry.write .input "heat" (.double .one) = .ok (registry, pending) ∧
        pending.slot = some ⟨"heat", .double, .double .one, false⟩ ∧
        pending.observers = ["dial", "diary"] := by
  intro site react s t
  have hbuild : kettle.build String = .ok site := rfl
  obtain ⟨hdeeds, _, hlogged⟩ := observers_on_roll (ν := Unit) hbuild
  let before := deeds react attended (start site)
  let after := deeds react rebuilt s
  have hs : Log (start site) before s := hdeeds react attended (by simp [attended, Op.Quiet])
  have hrebuilt : ∀ op ∈ rebuilt, op.Quiet := by simp [rebuilt, Op.Quiet]
  have ht : Log s after t := Log.start.performAll react hrebuilt
  have hroll : roll (before ++ after) =
      [⟨1, .slots (.slot .input "heat"), "dial"⟩, ⟨3, .slots .everything, "diary"⟩] := by decide
  have hissued : issued (before ++ after) = [1, 2, 3] := by decide
  obtain ⟨henrolled, _, hunobserve, htells, _⟩ := hlogged _ t (hs.trans ht)
  obtain ⟨_, _, _, _, hagain⟩ := hlogged before s hs
  have hdial : ⟨1, .slots (.slot .input "heat"), "dial"⟩ ∈ roll before := by decide
  have hheat : t.agent.registry.find? .input "heat" = some ⟨"heat", .double, .double .zero, false⟩ := by
    decide
  have hkept : ∀ d ∈ after, d.op ≠ .unobserve 1 := by simp [after, rebuilt, deeds]
  obtain ⟨_, htold⟩ := hagain _ hdial after t ht hkept
  obtain ⟨registry, pending, hwrite, hslot, _⟩ := htold .input "heat" _ (.double .one) rfl hheat rfl
  obtain ⟨_, _, _, _, hobservers, _⟩ := htells.notification _ _ _ _ _ hwrite
  rw [hroll, hissued] at henrolled
  rw [hroll] at hobservers
  exact ⟨hbuild, henrolled, (hunobserve react 2).1, registry, pending, hwrite, hslot, hobservers⟩

end Session

end Patchbay
