import Mathlib.Data.List.Induction
import Patchbay.Proofs.Staff

/-!
# The roll of observers

What an agent has for observers is what is left of a roll, which anyone could keep who sees what is asked of
the agent and what is answered: an observer is entered under the identifier that the answer gives, and
struck off when it is no longer to observe.

What carries the induction is that identifiers on the roll are distinct and were given before. So whoever is
struck off is in one of the lists only, and the agent may stop looking where it finds the identifier.
-/

namespace Patchbay

variable {ρ ν : Type}

/-- What one can observe: stored values, or whether the agent is muted or frozen. -/
inductive Post
  | slots (watch : Watch)
  | mute
  | freeze
  deriving DecidableEq

structure Enrolment (ρ : Type) where
  id : Nat
  post : Post
  who : ρ
  deriving DecidableEq

namespace Enrolment

def observer? (e : Enrolment ρ) : Option (Observer ρ) :=
  match e.post with
  | .slots watch => some ⟨e.id, watch, e.who⟩
  | _ => none

def flagObserver? (post : Post) (e : Enrolment ρ) : Option (FlagObserver ρ) :=
  if e.post = post then some ⟨e.id, e.who⟩ else none

theorem observer?_eq_some_iff {e : Enrolment ρ} {o : Observer ρ} :
    e.observer? = some o ↔ e = ⟨o.id, .slots o.watch, o.who⟩ := by
  obtain ⟨id, post, who⟩ := e
  cases post with
  | slots watch =>
    simp only [observer?, Option.some.injEq]
    constructor <;> rintro ⟨⟩ <;> rfl
  | mute | freeze => simp [observer?]

theorem flagObserver?_eq_some_iff {post : Post} {e : Enrolment ρ} {o : FlagObserver ρ} :
    e.flagObserver? post = some o ↔ e = ⟨o.id, post, o.who⟩ := by
  obtain ⟨id, other, who⟩ := e
  by_cases h : other = post
  · subst h
    simp only [flagObserver?, if_true, Option.some.injEq]
    constructor <;> rintro ⟨⟩ <;> rfl
  · simp [flagObserver?, h]

end Enrolment

/-- The lists as they are kept for the observers on the roll. -/
def Staff.of (roll : List (Enrolment ρ)) (nextId : Nat) : Staff ρ :=
  { slots := roll.filterMap Enrolment.observer?
    mute := roll.filterMap (Enrolment.flagObserver? .mute)
    freeze := roll.filterMap (Enrolment.flagObserver? .freeze)
    nextId }

namespace Staff

def add (staff : Staff ρ) (post : Post) (who : ρ) : Staff ρ :=
  let id := staff.nextId
  match post with
  | .slots watch => { staff with slots := staff.slots ++ [⟨id, watch, who⟩], nextId := id + 1 }
  | .mute => { staff with mute := staff.mute ++ [⟨id, who⟩], nextId := id + 1 }
  | .freeze => { staff with freeze := staff.freeze ++ [⟨id, who⟩], nextId := id + 1 }

theorem of_snoc (roll : List (Enrolment ρ)) (nextId : Nat) (post : Post) (who : ρ) :
    of (roll ++ [⟨nextId, post, who⟩]) (nextId + 1) = (of roll nextId).add post who := by
  cases post <;> simp [of, add, Enrolment.observer?, Enrolment.flagObserver?]

theorem filterMap_filter_id {α : Type} {f : Enrolment ρ → Option α} {key : α → Nat}
    (hf : ∀ e x, f e = some x → key x = e.id) (roll : List (Enrolment ρ)) (id : Nat) :
    (roll.filter (·.id != id)).filterMap f = (roll.filterMap f).filter (key · != id) := by
  rw [List.filterMap_filter, List.filter_filterMap]
  refine List.filterMap_congr fun e _ => ?_
  cases he : f e with
  | none => simp
  | some x => simp only [Option.filter_some, hf e x he]

theorem filter_id_of_any {α : Type} {key : α → Nat} {xs : List α} {id : Nat}
    (h : xs.any (key · == id) = false) : xs.filter (key · != id) = xs := by
  refine List.filter_eq_self.mpr fun x hx => ?_
  simpa using List.any_eq_false.mp h x hx

theorem of_filter (roll : List (Enrolment ρ)) (nextId id : Nat) :
    of (roll.filter (·.id != id)) nextId =
      { slots := (of roll nextId).slots.filter (·.id != id)
        mute := (of roll nextId).mute.filter (·.id != id)
        freeze := (of roll nextId).freeze.filter (·.id != id)
        nextId } := by
  have hslot (e : Enrolment ρ) (o : Observer ρ) (h : e.observer? = some o) : o.id = e.id :=
    (congrArg Enrolment.id (Enrolment.observer?_eq_some_iff.mp h)).symm
  have hflag (post : Post) (e : Enrolment ρ) (o : FlagObserver ρ) (h : e.flagObserver? post = some o) :
      o.id = e.id := (congrArg Enrolment.id (Enrolment.flagObserver?_eq_some_iff.mp h)).symm
  simp only [of, filterMap_filter_id hslot, filterMap_filter_id (hflag _)]

section Mem
variable {roll : List (Enrolment ρ)} {nextId : Nat}

theorem mem_slots {o : Observer ρ} :
    o ∈ (of roll nextId).slots ↔ ⟨o.id, .slots o.watch, o.who⟩ ∈ roll := by
  simp [of, Enrolment.observer?_eq_some_iff]

theorem mem_mute {o : FlagObserver ρ} : o ∈ (of roll nextId).mute ↔ ⟨o.id, .mute, o.who⟩ ∈ roll := by
  simp [of, Enrolment.flagObserver?_eq_some_iff]

theorem mem_freeze {o : FlagObserver ρ} :
    o ∈ (of roll nextId).freeze ↔ ⟨o.id, .freeze, o.who⟩ ∈ roll := by
  simp [of, Enrolment.flagObserver?_eq_some_iff]

theorem any_id (roll : List (Enrolment ρ)) (nextId id : Nat) : roll.any (·.id == id) =
    ((of roll nextId).slots.any (·.id == id) || ((of roll nextId).mute.any (·.id == id) ||
      (of roll nextId).freeze.any (·.id == id))) := by
  rw [Bool.eq_iff_iff]
  simp only [Bool.or_eq_true, List.any_eq_true, mem_slots, mem_mute, mem_freeze, beq_iff_eq]
  constructor
  · rintro ⟨⟨_, post, who⟩, he, rfl⟩
    cases post with
    | slots watch => exact .inl ⟨⟨_, watch, who⟩, he, rfl⟩
    | mute => exact .inr (.inl ⟨⟨_, who⟩, he, rfl⟩)
    | freeze => exact .inr (.inr ⟨⟨_, who⟩, he, rfl⟩)
  · rintro (⟨o, he, rfl⟩ | ⟨o, he, rfl⟩ | ⟨o, he, rfl⟩) <;> exact ⟨_, he, rfl⟩

/-- An identifier is in one of the lists only. -/
theorem any_flag_eq_false (hdistinct : (roll.map (·.id)).Nodup) {id : Nat}
    (hslots : (of roll nextId).slots.any (·.id == id) = true) :
    (of roll nextId).mute.any (·.id == id) = false ∧
      (of roll nextId).freeze.any (·.id == id) = false := by
  obtain ⟨o, ho, hid⟩ := List.any_eq_true.mp hslots
  have hpost {e : Enrolment ρ} (he : e ∈ roll) (hsame : e.id = id) : e.post = .slots o.watch := by
    have heq := List.inj_on_of_nodup_map hdistinct he (mem_slots.mp ho)
      (hsame.trans (beq_iff_eq.mp hid).symm)
    exact congrArg Enrolment.post heq
  constructor <;> refine List.any_eq_false.mpr fun m hm hsame => ?_
  · cases hpost (mem_mute.mp hm) (beq_iff_eq.mp hsame)
  · cases hpost (mem_freeze.mp hm) (beq_iff_eq.mp hsame)

end Mem

end Staff

namespace Op

/-- What the operation asks to observe, and for whom. -/
def post? : Op ρ ν → Option (Post × ρ)
  | .observe kind name who => some (.slots (.slot kind name), who)
  | .observeAll who => some (.slots .everything, who)
  | .observeMute who => some (.mute, who)
  | .observeFreeze who => some (.freeze, who)
  | _ => none

end Op

structure Deed (ρ ν : Type) where
  op : Op ρ ν
  answer : Except Fault (Reply ν)

namespace Deed

/-- Whoever is to observe from now on, under the identifier that is answered. -/
def enrolment? (d : Deed ρ ν) : Option (Enrolment ρ) :=
  match d.op.post?, d.answer with
  | some (post, who), .ok (.id id) => some ⟨id, post, who⟩
  | _, _ => none

def enter (roll : List (Enrolment ρ)) (d : Deed ρ ν) : List (Enrolment ρ) :=
  match d.op with
  | .unobserve id => roll.filter (·.id != id)
  | _ => roll ++ d.enrolment?.toList

theorem enter_of_ne_unobserve {d : Deed ρ ν} (h : ∀ id, d.op ≠ .unobserve id)
    (roll : List (Enrolment ρ)) : d.enter roll = roll ++ d.enrolment?.toList := by
  simp only [enter]

end Deed

/-- The observers who are still to be told after all that was done. -/
def roll (log : List (Deed ρ ν)) : List (Enrolment ρ) :=
  log.foldl (fun roll d => d.enter roll) []

/-- The identifiers that observers were given, in the order of the answers. -/
def issued (log : List (Deed ρ ν)) : List Nat :=
  (log.filterMap Deed.enrolment?).map (·.id)

theorem roll_snoc (log : List (Deed ρ ν)) (d : Deed ρ ν) : roll (log ++ [d]) = d.enter (roll log) := by
  simp only [roll, List.foldl_append, List.foldl_cons, List.foldl_nil]

theorem issued_snoc (log : List (Deed ρ ν)) (d : Deed ρ ν) :
    issued (log ++ [d]) = issued log ++ d.enrolment?.toList.map (·.id) := by
  simp only [issued, List.filterMap_append, List.map_append]
  cases hd : d.enrolment? <;> simp [hd]

theorem Deed.mem_enter {roll : List (Enrolment ρ)} {d : Deed ρ ν} {e : Enrolment ρ} (he : e ∈ roll)
    (hd : d.op ≠ .unobserve e.id) : e ∈ d.enter roll := by
  simp only [enter]
  split
  · rename_i id hop
    have hid : e.id ≠ id := fun heq => hd (heq ▸ hop)
    exact List.mem_filter.mpr ⟨he, bne_iff_ne.mpr hid⟩
  · exact List.mem_append_left _ he

/-- Whoever is on the roll stays on it until struck off. -/
theorem mem_roll_append {log : List (Deed ρ ν)} {e : Enrolment ρ} (he : e ∈ roll log)
    (more : List (Deed ρ ν)) (hmore : ∀ d ∈ more, d.op ≠ .unobserve e.id) : e ∈ roll (log ++ more) := by
  induction more using List.reverseRecOn with
  | nil => rwa [List.append_nil]
  | append_singleton rest d ih =>
    obtain ⟨hrest, hd⟩ := List.forall_mem_append.mp hmore
    rw [← List.append_assoc, roll_snoc]
    exact Deed.mem_enter (ih hrest) (hd d (List.mem_singleton.mpr rfl))

namespace Session

/-- The session came from `s` to `t` in steps, and these are the operations among them that call nobody,
with their answers. -/
inductive Log (s : Session ρ ν) : List (Deed ρ ν) → Session ρ ν → Prop
  | start : Log s [] s
  | operate {log : List (Deed ρ ν)} {t : Session ρ ν} {op : Op ρ ν} (h : Log s log t) (quiet : op.Quiet)
      (react : React ρ ν) : Log s (log ++ [⟨op, (t.perform react op).2⟩]) (t.perform react op).1
  | store {log : List (Deed ρ ν)} {t : Session ρ ν} {kind : SlotKind} {name : String} {v : Value}
      {registry : Registry ρ} {pending : Notification ρ} (h : Log s log t)
      (hwrite : t.agent.registry.write kind name v = .ok (registry, pending)) :
      Log s log (t.store kind name registry)
  | mute {log : List (Deed ρ ν)} {t : Session ρ ν} (h : Log s log t) (flag : Bool) :
      Log s log { t with agent := { t.agent with muted := flag } }
  | freeze {log : List (Deed ρ ν)} {t : Session ρ ν} (h : Log s log t) (flag : Bool) :
      Log s log { t with agent := { t.agent with frozen := flag } }
  | resolve {log : List (Deed ρ ν)} {t : Session ρ ν} (h : Log s log t) :
      Log s log (t.run Agent.resolve).1
  | note {log : List (Deed ρ ν)} {t : Session ρ ν} (h : Log s log t) (n : Note ρ ν) :
      Log s log (t.note n)

theorem exists_log {s t : Session ρ ν} (h : Path s t) : ∃ log, Log s log t := by
  refine invariant_of_path (I := fun t => ∃ log, Log s log t) (fun t u hlog hstep => ?_) h ⟨[], .start⟩
  obtain ⟨log, hlog⟩ := hlog
  cases hstep with
  | operate _ quiet react => exact ⟨_, hlog.operate quiet react⟩
  | store hwrite => exact ⟨log, hlog.store hwrite⟩
  | mute flag => exact ⟨log, hlog.mute flag⟩
  | freeze flag => exact ⟨log, hlog.freeze flag⟩
  | resolve => exact ⟨log, hlog.resolve⟩
  | note n => exact ⟨log, hlog.note n⟩

theorem Log.trans {s t u : Session ρ ν} {log more : List (Deed ρ ν)} (h : Log s log t)
    (hmore : Log t more u) : Log s (log ++ more) u := by
  induction hmore with
  | start => rwa [List.append_nil]
  | operate _ quiet react ih =>
    rw [← List.append_assoc]
    exact ih.operate quiet react
  | store _ hwrite ih => exact ih.store hwrite
  | mute _ flag ih => exact ih.mute flag
  | freeze _ flag ih => exact ih.freeze flag
  | resolve _ ih => exact ih.resolve
  | note _ n ih => exact ih.note n

def deeds (react : React ρ ν) : List (Op ρ ν) → Session ρ ν → List (Deed ρ ν)
  | [], _ => []
  | op :: rest, s => ⟨op, (s.perform react op).2⟩ :: deeds react rest (s.perform react op).1

theorem Log.performAll {s t : Session ρ ν} {log : List (Deed ρ ν)} (h : Log s log t) (react : React ρ ν)
    {ops : List (Op ρ ν)} (quiet : ∀ op ∈ ops, op.Quiet) :
    Log s (log ++ deeds react ops t) (t.performAll react ops) := by
  induction ops generalizing log t with
  | nil => exact (List.append_nil log).symm ▸ h
  | cons op rest ih =>
    obtain ⟨hop, hrest⟩ := List.forall_mem_cons.mp quiet
    have hlog := ih (h.operate hop react) hrest
    rwa [List.append_assoc] at hlog

section Enrol
variable {s : Session ρ ν} {roll : List (Enrolment ρ)} {nextId : Nat}

/-- Whoever is to observe is entered under the identifier that comes next, or is refused for a slot that is
not there, and nothing changes. -/
theorem enrol_perform (hstaff : s.agent.staff = .of roll nextId) {op : Op ρ ν} {post : Post} {who : ρ}
    (hop : op.post? = some (post, who)) (react : React ρ ν) :
    (∃ kind name, post = .slots (.slot kind name) ∧ s.agent.registry.find? kind name = none ∧
      s.perform react op = (s, .error (.unknownSlot kind name))) ∨
    ((s.perform react op).2 = .ok (.id nextId) ∧
      (s.perform react op).1.agent.staff = .of (roll ++ [⟨nextId, post, who⟩]) (nextId + 1)) := by
  have hnext : s.agent.registry.nextId = nextId := congrArg Staff.nextId hstaff
  rw [Staff.of_snoc, ← hstaff, ← hnext]
  cases op with
  | observe kind name _ =>
    cases hop
    cases hfind : s.agent.registry.table.find? kind name with
    | none =>
      refine .inl ⟨kind, name, rfl, hfind, ?_⟩
      simp only [perform, run, Agent.observe, Registry.observe, Registry.get, Interface.get, hfind,
        Except.map, reply, Agent.fail, List.append_nil]
    | some slot =>
      right
      simp only [perform, run, Agent.observe, Registry.observe, Registry.get, Interface.get, hfind,
        Except.map, reply]
      exact ⟨rfl, rfl⟩
  | observeAll | observeMute | observeFreeze =>
    cases hop
    exact .inr ⟨rfl, rfl⟩
  | _ => cases hop

/-- The registry is asked first, and the agent looks for itself only if the registry knows nothing of the
identifier. -/
theorem unobserve_perform (hstaff : s.agent.staff = .of roll nextId)
    (hdistinct : (roll.map (·.id)).Nodup) (react : React ρ ν) (id : Nat) :
    (s.perform react (.unobserve id)).2 = .ok (.flag (roll.any (·.id == id))) ∧
      (s.perform react (.unobserve id)).1.agent.staff = .of (roll.filter (·.id != id)) nextId := by
  rw [Staff.any_id roll nextId id, Staff.of_filter roll nextId id]
  have hnext : s.agent.staff.nextId = nextId := congrArg Staff.nextId hstaff
  have hflags : s.agent.staff.slots.any (·.id == id) = true →
      s.agent.staff.mute.any (·.id == id) = false ∧ s.agent.staff.freeze.any (·.id == id) = false := by
    rw [hstaff]
    exact Staff.any_flag_eq_false hdistinct
  rw [← hstaff]
  cases hslots : s.agent.registry.hasObserver id with
  | true =>
    obtain ⟨hmute, hfreeze⟩ := hflags hslots
    have hlisted : s.agent.staff.slots.any (·.id == id) = true := hslots
    simp only [perform, run, Agent.unobserve, hslots, if_true, reply]
    refine ⟨?_, ?_⟩
    · rw [hlisted]
      rfl
    · rw [Staff.filter_id_of_any hmute, Staff.filter_id_of_any hfreeze, ← hnext]
      rfl
  | false =>
    have hlisted : s.agent.staff.slots.any (·.id == id) = false := hslots
    simp only [perform, run, Agent.unobserve, hslots, Bool.false_eq_true, if_false, reply]
    refine ⟨?_, ?_⟩
    · rw [hlisted]
      rfl
    · rw [Staff.filter_id_of_any hlisted, ← hnext]
      rfl

end Enrol

/-- The agent keeps the observers on the roll, and has given these identifiers. -/
structure Enrolled (roll : List (Enrolment ρ)) (given : List Nat) (s : Session ρ ν) : Prop where
  staff : s.agent.staff = .of roll (given.length + 1)
  counted : given = List.range' 1 given.length
  rising : roll.Pairwise fun a b => a.id < b.id
  among : ∀ e ∈ roll, e.id ∈ given

namespace Enrolled
variable {roll : List (Enrolment ρ)} {given : List Nat} {s t : Session ρ ν} (h : Enrolled roll given s)
include h

theorem same (ht : t.agent.staff = s.agent.staff) : Enrolled roll given t :=
  ⟨ht.trans h.staff, h.counted, h.rising, h.among⟩

theorem distinct : (roll.map (·.id)).Nodup := by
  rw [List.Nodup, List.pairwise_map]
  exact h.rising.imp Nat.ne_of_lt

theorem le_of_mem {e : Enrolment ρ} (he : e ∈ roll) : e.id ≤ given.length := by
  have hmem := h.among e he
  rw [h.counted, List.mem_range'_1] at hmem
  omega

theorem enrol {post : Post} {who : ρ}
    (ht : t.agent.staff = .of (roll ++ [⟨given.length + 1, post, who⟩]) (given.length + 1 + 1)) :
    Enrolled (roll ++ [⟨given.length + 1, post, who⟩]) (given ++ [given.length + 1]) t := by
  refine ⟨?_, ?_, ?_, ?_⟩
  · rw [ht, List.length_append, List.length_singleton]
  · rw [List.length_append, List.length_singleton, List.range'_concat, ← h.counted]
    simp only [Nat.one_mul, Nat.add_comm 1]
  · refine List.pairwise_append.mpr ⟨h.rising, List.pairwise_singleton _ _, fun e he new hnew => ?_⟩
    rw [List.mem_singleton.mp hnew]
    exact Nat.lt_succ_of_le (h.le_of_mem he)
  · intro e he
    rw [List.mem_append, List.mem_singleton] at he ⊢
    exact he.imp (h.among e) (congrArg Enrolment.id)

theorem strike {id : Nat}
    (ht : t.agent.staff = .of (roll.filter (·.id != id)) (given.length + 1)) :
    Enrolled (roll.filter (·.id != id)) given t :=
  ⟨ht, h.counted, h.rising.filter _, fun e he => h.among e (List.mem_of_mem_filter he)⟩

end Enrolled

theorem Enrolled.operate {log : List (Deed ρ ν)} {s : Session ρ ν}
    (h : Enrolled (roll log) (issued log) s) {op : Op ρ ν} (quiet : op.Quiet) (react : React ρ ν) :
    let d : Deed ρ ν := ⟨op, (s.perform react op).2⟩
    Enrolled (roll (log ++ [d])) (issued (log ++ [d])) (s.perform react op).1 := by
  intro d
  rw [roll_snoc, issued_snoc]
  cases hpost : op.post? with
  | some asked =>
    obtain ⟨post, who⟩ := asked
    have hop (id : Nat) (heq : op = .unobserve id) : False := by
      rw [heq] at hpost
      cases hpost
    rw [Deed.enter_of_ne_unobserve hop]
    rcases enrol_perform h.staff hpost react with ⟨_, _, _, _, hrefused⟩ | ⟨hanswer, hstaff⟩
    · have hnone : d.enrolment? = none := by
        simp only [d, Deed.enrolment?, hpost, hrefused]
      rw [hnone, hrefused, Option.toList_none, List.map_nil, List.append_nil, List.append_nil]
      exact h
    · have hsome : d.enrolment? = some ⟨(issued log).length + 1, post, who⟩ := by
        simp only [d, Deed.enrolment?, hpost, hanswer]
      rw [hsome]
      exact h.enrol hstaff
  | none =>
    have hnone : d.enrolment? = none := by
      simp only [d, Deed.enrolment?, hpost]
    rw [hnone, Option.toList_none, List.map_nil, List.append_nil]
    -- What is about observers and asks for no post can only be to strike somebody off.
    by_cases henrols : op.Enrols
    · obtain ⟨id, rfl⟩ : ∃ id, op = .unobserve id := by
        cases op with
        | unobserve id => exact ⟨id, rfl⟩
        | observe | observeAll | observeMute | observeFreeze => cases hpost
        | _ => exact henrols.elim
      exact h.strike (unobserve_perform h.staff h.distinct react id).2
    · have hop (id : Nat) (heq : op = .unobserve id) : False := henrols (heq ▸ trivial)
      rw [Deed.enter_of_ne_unobserve hop, hnone, Option.toList_none, List.append_nil]
      exact h.same (s.staff_perform quiet henrols react)

theorem Log.enrolled {s t : Session ρ ν} {log : List (Deed ρ ν)} (h : Log s log t)
    (hs : s.agent.staff = .of [] 1) : Enrolled (roll log) (issued log) t := by
  induction h with
  | start => exact ⟨hs, rfl, .nil, fun _ he => absurd he List.not_mem_nil⟩
  | operate _ quiet react ih => exact ih.operate quiet react
  | store _ hwrite ih => exact ih.same (staff_store hwrite)
  | mute _ _ ih | freeze _ _ ih | resolve _ ih | note _ _ ih => exact ih.same rfl

end Session

end Patchbay
