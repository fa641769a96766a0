import Mathlib.Logic.Relation
import Patchbay.Agent.Plan
import Patchbay.Proofs.Registry
import Patchbay.Session.Inbound
import Patchbay.Session.Program

/-!
# Runs of a session

A run is taken apart into steps between which the session can be looked at: by whoever performs
operations, or by an observer that is called while an operation is under way. Operations that call
nobody are steps as a whole. The others store a value or set a flag, which is a step, and then hand the
session to observers, each of which takes steps of its own.

So what every step preserves holds wherever an observer is called and after every operation, however
deep the calls are nested. `Kept` says this of a statement about sessions and of operations of some sort,
with one obligation for each kind of step; that observers take steps themselves is a case of it.
-/

namespace Patchbay

variable {ρ ν : Type}

/-- A category that is adopted was put together by declaring slots. -/
def Op.Sound : Op ρ ν → Prop
  | .addCategory c => c.slots.Sound
  | _ => True

/-- The operation calls no observers. -/
def Op.Quiet : Op ρ ν → Prop
  | .write .. | .writeAs .. | .writeImpulsion .. | .setMuted _ | .setFrozen _ | .deliver .. => False
  | _ => True

namespace Session

inductive Step : Session ρ ν → Session ρ ν → Prop
  | operate {s : Session ρ ν} {op : Op ρ ν} (sound : op.Sound) (quiet : op.Quiet)
      (react : React ρ ν) : Step s (s.perform react op).1
  | store {s : Session ρ ν} {kind : SlotKind} {name : String} {v : Value} {registry : Registry ρ}
      {pending : Notification ρ} (h : s.agent.registry.write kind name v = .ok (registry, pending)) :
      Step s (s.store kind name registry)
  | mute (s : Session ρ ν) (flag : Bool) : Step s { s with agent := { s.agent with muted := flag } }
  | freeze (s : Session ρ ν) (flag : Bool) :
      Step s { s with agent := { s.agent with frozen := flag } }
  | resolve (s : Session ρ ν) : Step s (s.run Agent.resolve).1
  | note (s : Session ρ ν) (n : Note ρ ν) : Step s (s.note n)

abbrev Path : Session ρ ν → Session ρ ν → Prop :=
  Relation.ReflTransGen Step

end Session

/-- Whatever an observer does when it is called, it does in steps. -/
def React.Sound (react : React ρ ν) : Prop :=
  ∀ who firing s, Session.Path s (react who firing s)

def Program.Sound : Program ρ ν → Prop
  | .done => True
  | .act choose next => (∀ a, (choose a).Sound) ∧ ∀ answer, (next answer).Sound

def Behaviour.Sound (b : Behaviour ρ ν) : Prop :=
  ∀ who firing, (b who firing).Sound

namespace Session

/-- A session as it starts, with the agent that a plan gives. -/
def start (site : Plan.Site ρ) : Session ρ ν :=
  { agent := site.agent, sent := site.sent }

def Reachable (s : Session ρ ν) : Prop :=
  ∃ (p : Plan) (site : Plan.Site ρ), p.build ρ = .ok site ∧ Path (start site) s

end Session

/-- Every operation that the program may perform, whatever it sees, is one of those that `P` allows. -/
def Program.Within (P : Op ρ ν → Prop) : Program ρ ν → Prop
  | .done => True
  | .act choose next => (∀ a, P (choose a)) ∧ ∀ answer, (next answer).Within P

def Behaviour.Within (P : Op ρ ν → Prop) (b : Behaviour ρ ν) : Prop :=
  ∀ who firing, (b who firing).Within P

theorem Program.Sound.within {p : Program ρ ν} (h : p.Sound) : p.Within Op.Sound := by
  induction p with
  | done => trivial
  | act choose next ih => exact ⟨h.1, fun answer => ih answer (h.2 answer)⟩

/-- A call leaves `I` as it was. -/
def React.Keeps (react : React ρ ν) (I : Session ρ ν → Prop) : Prop :=
  ∀ who firing s, I s → I (react who firing s)

namespace Session

/-- What holds of a session goes on to hold, whichever step is taken of an operation that `P` allows and
whatever an observer enters in the journal. -/
structure Kept (P : Op ρ ν → Prop) (I : Session ρ ν → Prop) : Prop where
  operate : ∀ s op (react : React ρ ν), P op → op.Quiet → I s → I (s.perform react op).1
  store : ∀ s kind name v registry (pending : Notification ρ),
    s.agent.registry.write kind name v = .ok (registry, pending) → I s → I (s.store kind name registry)
  mute : ∀ s flag, I s → I { s with agent := { s.agent with muted := flag } }
  freeze : ∀ s flag, I s → I { s with agent := { s.agent with frozen := flag } }
  resolve : ∀ s, I s → I (s.run Agent.resolve).1
  called : ∀ s who firing muted frozen, I s → I (s.note (.called who firing muted frozen))
  did : ∀ s who answer, I s → I (s.note (.did who answer))

namespace Delivery

/-- The delivery writes the value into the input, and the observers of the input are called. -/
def Stores (react : React ρ ν) (d : Delivery ρ ν) (input : String) (v : Value)
    (next : Delivery ρ ν) : Prop :=
  ∃ registry pending, d.session.agent.registry.write .input input v = .ok (registry, pending) ∧
    next = { d with
      session := (d.session.store .input input registry).notify react pending
      report := { d.report with written := d.report.written ++ [input] } }

/-- The turn of an input ends in the value being written, or in a fault that leaves the session as it
is. -/
theorem toInput_cases (react : React ρ ν) (type : ValueType) (decoded : Except Fault Value)
    (d : Delivery ρ ν) (input : String) :
    (∃ v, d.session.agent.registry.type .input input = .ok type ∧ decoded = .ok v ∧
      d.Stores react input v (d.toInput react type decoded input)) ∨
    ∃ fault stale, d.toInput react type decoded input = { d.fail input fault with stale } := by
  cases htype : d.session.agent.registry.type .input input with
  | error fault =>
    refine .inr ⟨fault, d.stale, ?_⟩
    simp only [toInput, htype]
    rfl
  | ok expected =>
    by_cases hexpected : expected = type
    · subst hexpected
      cases decoded with
      | error fault =>
        refine .inr ⟨fault, d.stale, ?_⟩
        simp only [toInput, htype, ne_eq, not_true_eq_false, if_false]
        rfl
      | ok v =>
        cases hwrite : d.session.agent.registry.write .input input v with
        | error fault =>
          refine .inr ⟨fault, d.stale, ?_⟩
          simp only [toInput, htype, ne_eq, not_true_eq_false, if_false, hwrite, commit]
          rfl
        | ok done =>
          refine .inl ⟨v, rfl, rfl, done.1, done.2, hwrite, ?_⟩
          simp only [toInput, htype, ne_eq, not_true_eq_false, if_false, hwrite, commit]
    · refine .inr ⟨.mistyped input expected type, true, ?_⟩
      simp only [toInput, htype, ne_eq, hexpected, not_false_eq_true, if_true]

theorem Stores.commit {react : React ρ ν} {d next : Delivery ρ ν} {input : String} {v : Value}
    (h : d.Stores react input v next) :
    d.session.commit react .input input (d.session.agent.registry.write .input input v) =
      (next.session, .ok ()) := by
  obtain ⟨registry, pending, hwrite, rfl⟩ := h
  rw [hwrite]
  rfl

end Delivery

section Calls
variable {react : React ρ ν} {I : Session ρ ν → Prop} (hreact : react.Keeps I)
include hreact

theorem call_keeps (firing : Firing) (observers : List ρ) {s : Session ρ ν} (hs : I s) :
    I (s.call react firing observers) := by
  induction observers generalizing s with
  | nil => exact hs
  | cons who rest ih => exact ih (hreact who firing s hs)

theorem notify_keeps (n : Notification ρ) {s : Session ρ ν} (hs : I s) : I (s.notify react n) := by
  simp only [notify]
  split
  · exact hs
  · exact call_keeps hreact _ _ hs

section Inputs
variable (hstore : ∀ s input v registry (pending : Notification ρ),
  s.agent.registry.write .input input v = .ok (registry, pending) → I s →
    I (s.store .input input registry))
include hstore

theorem toInput_keeps (type : ValueType) (decoded : Except Fault Value) (input : String)
    {d : Delivery ρ ν} (hd : I d.session) : I (d.toInput react type decoded input).session := by
  rcases d.toInput_cases react type decoded input with
    ⟨v, _, _, registry, pending, hwrite, hnext⟩ | ⟨fault, stale, hnext⟩
  · rw [hnext]
    exact notify_keeps hreact pending (hstore d.session input v registry pending hwrite hd)
  · rw [hnext]
    exact hd

theorem toInputs_keeps (type : ValueType) (decoded : Except Fault Value) (inputs : List String)
    {d : Delivery ρ ν} (hd : I d.session) :
    I (inputs.foldl (Delivery.toInput react type decoded) d).session := by
  induction inputs generalizing d with
  | nil => exact hd
  | cons input rest ih => exact ih (toInput_keeps hreact hstore type decoded input hd)

end Inputs

end Calls

namespace Kept
variable {P : Op ρ ν → Prop} {I : Session ρ ν → Prop} (h : Kept P I)
include h

section Observed
variable {react : React ρ ν} (hreact : react.Keeps I)
include hreact

theorem commit (kind : SlotKind) (name : String) (v : Value) {s : Session ρ ν} (hs : I s) :
    I (s.commit react kind name (s.agent.registry.write kind name v)).1 := by
  cases hwrite : s.agent.registry.write kind name v with
  | error fault => exact hs
  | ok done => exact notify_keeps hreact done.2 (h.store s kind name v done.1 done.2 hwrite hs)

theorem write (kind : SlotKind) (name : String) (v : Value) {s : Session ρ ν} (hs : I s) :
    I (s.write react kind name v).1 := by
  simp only [Session.write]
  split
  · exact hs
  · exact h.commit hreact kind name v hs

theorem writeAs (kind : SlotKind) (name : String) (v : Value) {s : Session ρ ν} (hs : I s) :
    I (s.writeAs react kind name v).1 := by
  simp only [Session.writeAs]
  split
  · exact hs
  · cases hwrite : s.agent.registry.writeAs kind name v with
    | error fault => exact hs
    | ok done =>
      obtain ⟨_, w, _, _, hw⟩ := Registry.writeAs_eq_ok hwrite
      rw [← hw]
      exact h.commit hreact kind name w hs

theorem writeImpulsion (kind : SlotKind) (name : String) {s : Session ρ ν} (hs : I s) :
    I (s.writeImpulsion react kind name).1 := by
  simp only [Session.writeImpulsion]
  split
  · exact hs
  · exact h.write hreact kind name _ hs

theorem setMuted (flag : Bool) {s : Session ρ ν} (hs : I s) : I (s.setMuted react flag) := by
  simp only [Session.setMuted]
  split
  · exact hs
  · exact call_keeps hreact _ _ (h.mute s flag hs)

theorem setFrozen (flag : Bool) {s : Session ρ ν} (hs : I s) : I (s.setFrozen react flag) := by
  simp only [Session.setFrozen]
  split
  · exact hs
  · exact call_keeps hreact _ _ (h.freeze s flag hs)

theorem toInputs (type : ValueType) (decoded : Except Fault Value) (inputs : List String)
    {d : Delivery ρ ν} (hd : I d.session) :
    I (inputs.foldl (Delivery.toInput react type decoded) d).session :=
  toInputs_keeps hreact (fun s => h.store s .input) type decoded inputs hd

theorem deliver (agent output : String) (type : ValueType) (payload : List UInt8) {s : Session ρ ν}
    (hs : I s) : I (s.deliver react agent output type payload).1 := by
  simp only [Session.deliver]
  split
  · exact hs
  · split
    · exact hs
    · have hinputs := h.toInputs hreact type (Value.ofWire type payload)
        ((s.agent.wiring.routes agent output).map (·.2)) (d := { session := s }) hs
      split
      · exact h.resolve _ hinputs
      · exact hinputs

theorem perform {op : Op ρ ν} (hop : P op) {s : Session ρ ν} (hs : I s) :
    I (s.perform react op).1 := by
  by_cases hquiet : op.Quiet
  · exact h.operate s op react hop hquiet hs
  · cases op with
    | write kind name v => exact h.write hreact kind name v hs
    | writeAs kind name v => exact h.writeAs hreact kind name v hs
    | writeImpulsion kind name => exact h.writeImpulsion hreact kind name hs
    | setMuted flag => exact h.setMuted hreact flag hs
    | setFrozen flag => exact h.setFrozen hreact flag hs
    | deliver agent output type payload => exact h.deliver hreact agent output type payload hs
    | _ => exact absurd trivial hquiet

theorem performAll {ops : List (Op ρ ν)} (hops : ∀ op ∈ ops, P op) {s : Session ρ ν} (hs : I s) :
    I (s.performAll react ops) := by
  induction ops generalizing s with
  | nil => exact hs
  | cons op rest ih =>
    obtain ⟨hop, hrest⟩ := List.forall_mem_cons.mp hops
    exact ih hrest (h.perform hreact hop hs)

theorem exec (who : ρ) {p : Program ρ ν} (hp : p.Within P) {s : Session ρ ν} (hs : I s) :
    I (p.exec (Session.perform react) who s) := by
  induction p generalizing s with
  | done => exact hs
  | act choose next ih =>
    obtain ⟨hchoose, hnext⟩ := hp
    exact ih _ (hnext _) (h.did _ who _ (h.perform hreact (hchoose s.agent) hs))

end Observed

/-- Observers that perform allowed operations keep it, however deep they call one another. -/
theorem react {b : Behaviour ρ ν} (hb : b.Within P) (depth : Nat) : (b.react depth).Keeps I := by
  induction depth with
  | zero => exact fun who firing s hs => h.called s who firing _ _ hs
  | succ depth ih =>
    exact fun who firing s hs => h.exec ih who (hb who firing) (h.called s who firing _ _ hs)

end Kept

theorem kept_of_step {I : Session ρ ν → Prop} (hstep : ∀ s t, I s → Step s t → I t) :
    Kept Op.Sound I where
  operate _ _ react sound quiet hs := hstep _ _ hs (.operate sound quiet react)
  store _ _ _ _ _ _ hwrite hs := hstep _ _ hs (.store hwrite)
  mute s flag hs := hstep _ _ hs (.mute s flag)
  freeze s flag hs := hstep _ _ hs (.freeze s flag)
  resolve s hs := hstep _ _ hs (.resolve s)
  called s _ _ _ _ hs := hstep _ _ hs (.note s _)
  did s _ _ hs := hstep _ _ hs (.note s _)

theorem kept_path (s : Session ρ ν) : Kept Op.Sound (Path s) :=
  kept_of_step fun _ _ hpath hstep => hpath.tail hstep

theorem keeps_path {react : React ρ ν} (hreact : react.Sound) (s : Session ρ ν) :
    react.Keeps (Path s) :=
  fun who firing t h => h.trans (hreact who firing t)

theorem path_toInputs {react : React ρ ν} (hreact : react.Sound) (type : ValueType)
    (decoded : Except Fault Value) (inputs : List String) (d : Delivery ρ ν) :
    Path d.session (inputs.foldl (Delivery.toInput react type decoded) d).session :=
  (kept_path d.session).toInputs (keeps_path hreact _) type decoded inputs .refl

theorem path_performAll {react : React ρ ν} (hreact : react.Sound) {ops : List (Op ρ ν)}
    (hops : ∀ op ∈ ops, op.Sound) (s : Session ρ ν) : Path s (s.performAll react ops) :=
  (kept_path s).performAll (keeps_path hreact s) hops .refl

/-- Observers that perform operations take steps, whichever operations these are and however deep they
call one another. -/
theorem sound_react {b : Behaviour ρ ν} (hb : b.Sound) (depth : Nat) : (b.react depth).Sound :=
  fun who firing s =>
    (kept_path s).react (fun who firing => (hb who firing).within) depth who firing s .refl

section Build

theorem start_of_next {α : Type} {site after : Plan.Site ρ} {step : Agent ρ → Act ρ α}
    (h : site.next step = .ok after) : (start after : Session ρ ν) = ((start site).run step).1 := by
  simp only [Plan.Site.next] at h
  split at h
  · cases h
    rfl
  · cases h

theorem Kept.next {P : Op ρ ν → Prop} {I : Session ρ ν → Prop} (h : Kept P I) {α : Type}
    {site after : Plan.Site ρ} {step : Agent ρ → Act ρ α} (hnext : site.next step = .ok after)
    {op : Op ρ ν} (hop : P op) (quiet : op.Quiet)
    (hstep : ∀ s : Session ρ ν, (s.perform (fun _ _ s => s) op).1 = (s.run step).1)
    (hs : I (start site)) : I (start after) := by
  rw [start_of_next hnext, ← hstep]
  exact h.operate _ op _ hop quiet hs

theorem Kept.registerAll {P : Op ρ ν → Prop} {I : Session ρ ν → Prop} (h : Kept P I)
    (hregister : ∀ c, P (.registerCategory c)) {cs : List Category} {site after : Plan.Site ρ}
    (hall : cs.foldlM (fun site c => site.next (·.registerCategory c)) site = .ok after)
    (hs : I (start site)) : I (start after) := by
  induction cs generalizing site with
  | nil =>
    cases hall
    exact hs
  | cons c rest ih =>
    rw [List.foldlM_cons] at hall
    obtain ⟨next, hnext, hall⟩ := of_bind_eq_ok hall
    exact ih hall (h.next hnext (hregister c) trivial (fun _ => rfl) hs)

/-- A plan that leaves the definition open is built as one that gives the empty definition of the name. -/
theorem exists_definition_of_build {p : Plan} {site : Plan.Site ρ} (h : p.build ρ = .ok site) :
    ∃ d, (p.definition = some d ∨ d = { name := p.config.name }) ∧
      ({ p with definition := some d } : Plan).build ρ = .ok site := by
  cases hdefinition : p.definition with
  | some d =>
    refine ⟨d, .inl rfl, ?_⟩
    rw [← hdefinition]
    exact h
  | none =>
    simp only [Plan.build, hdefinition] at h
    obtain ⟨d, hd, h⟩ := of_bind_eq_ok h
    refine ⟨d, .inr ?_, h⟩
    cases hnew : Definition.new p.config.name with
    | error fault =>
      rw [hnew] at hd
      cases hd
    | ok e =>
      rw [hnew] at hd
      exact (Except.ok.inj hd).symm.trans (Definition.new_eq_ok hnew)

/-- Building an agent is a run of its own, which begins with an agent that has nothing but a name. -/
theorem Kept.build {P : Op ρ ν → Prop} {I : Session ρ ν → Prop} (h : Kept P I)
    (hregister : ∀ c, P (.registerCategory c)) (hmapping : ∀ m, P (.loadMapping m)) {p : Plan}
    (hload : ∀ d, p.definition = some d ∨ d = { name := p.config.name } → P (.loadDefinition d))
    (hbare : ∀ name, checkName name = .ok () →
      I { agent := { config := p.config, definition := { name } } })
    {site : Plan.Site ρ} (hbuild : p.build ρ = .ok site) : I (start site) := by
  obtain ⟨given, hgiven, hbuild⟩ := exists_definition_of_build hbuild
  simp only [Plan.build] at hbuild
  obtain ⟨d, hd, hbuild⟩ := of_bind_eq_ok hbuild
  cases hd
  obtain ⟨bare, hnew, hbuild⟩ := of_bind_eq_ok hbuild
  obtain ⟨first, hfirst, hbuild⟩ := of_bind_eq_ok hbuild
  obtain ⟨second, hsecond, hbuild⟩ := of_bind_eq_ok hbuild
  have hstart : I (start ⟨{ config := p.config, definition := bare }, []⟩) := by
    cases hname : checkName given.name with
    | error fault =>
      simp only [Definition.new, hname, Except.mapError] at hnew
      cases hnew
    | ok _ =>
      simp only [Definition.new, hname, Except.mapError] at hnew
      cases hnew
      exact hbare given.name hname
  have hcategories := h.registerAll hregister hfirst hstart
  have hdefinition := h.next hsecond (hload given hgiven) trivial (fun _ => rfl) hcategories
  cases hm : p.mapping with
  | none =>
    rw [hm] at hbuild
    cases hbuild
    exact hdefinition
  | some m =>
    rw [hm] at hbuild
    exact h.next hbuild (hmapping m) trivial (fun _ => rfl) hdefinition

end Build

theorem invariant_of_path {I : Session ρ ν → Prop} (hstep : ∀ s t, I s → Step s t → I t)
    {s t : Session ρ ν} (h : Path s t) (hs : I s) : I t := by
  induction h with
  | refl => exact hs
  | tail _ hlast ih => exact hstep _ _ ih hlast

/-- What holds of a bare agent and is kept by every step holds throughout. -/
theorem Reachable.invariant {I : Session ρ ν → Prop} (hstep : ∀ s t, I s → Step s t → I t)
    (hbare : ∀ config name, I { agent := { config, definition := { name } } }) {s : Session ρ ν}
    (h : s.Reachable) : I s := by
  obtain ⟨p, site, hbuild, hpath⟩ := h
  have hstart : I (start site) := (kept_of_step hstep).build (fun _ => trivial) (fun _ => trivial)
    (fun _ _ => trivial) (fun name _ => hbare p.config name) hbuild
  exact invariant_of_path hstep hpath hstart

theorem reachable_of_build {p : Plan} {site : Plan.Site ρ} (h : p.build ρ = .ok site) :
    (start site : Session ρ ν).Reachable :=
  ⟨p, site, h, .refl⟩

theorem Reachable.path {s t : Session ρ ν} (h : s.Reachable) (hpath : Path s t) : t.Reachable := by
  obtain ⟨p, site, hbuild, hs⟩ := h
  exact ⟨p, site, hbuild, hs.trans hpath⟩

end Session

end Patchbay
