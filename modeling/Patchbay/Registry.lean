import Patchbay.Interface

/-!
# Live slots and their observers

The registry holds the slots of an agent as they are now, and who observes them. An observer watches
one slot or all of them; what it does when a slot is written is not said here, only by whom. A write
returns the notification that it owes: the slot as it was stored and the observers that watch it, in
the order in which they registered. Whoever owns the registry delivers it.

Observers are numbered from one, no number is given twice, and an observer stays registered when the
slot it watches goes away.
-/

namespace Patchbay

inductive Watch
  | slot (kind : SlotKind) (name : String)
  | everything
  deriving DecidableEq

def Watch.covers : Watch → SlotKind → String → Bool
  | everything, _, _ => true
  | slot k n, kind, name => k == kind && n == name

structure Observer (ρ : Type) where
  id : Nat
  watch : Watch
  who : ρ

/-- The observers that are owed word of a write. The slot is there only if someone observes it. -/
structure Notification (ρ : Type) where
  kind : SlotKind
  slot : Option Slot
  observers : List ρ

structure Registry (ρ : Type) where
  table : Interface := {}
  observers : List (Observer ρ) := []
  nextId : Nat := 1

namespace Registry

variable {ρ : Type}

def find? (r : Registry ρ) (kind : SlotKind) (name : String) : Option Slot :=
  r.table.find? kind name

def get (r : Registry ρ) (kind : SlotKind) (name : String) : Except Fault Slot :=
  r.table.get kind name

def type (r : Registry ρ) (kind : SlotKind) (name : String) : Except Fault ValueType :=
  (r.get kind name).map (·.type)

def read (r : Registry ρ) (kind : SlotKind) (name : String) : Except Fault Value :=
  (r.get kind name).map (·.value)

def withTable (r : Registry ρ) (table : Interface) : Registry ρ :=
  { r with table }

def create (r : Registry ρ) (kind : SlotKind) (name : String) (type : ValueType)
    (initial : Option Value) : Except Fault (Slot × Registry ρ) :=
  if r.table.contains kind name then .error (.naming (.taken name))
  else do
    let s ← Slot.new name type
    let s ← match initial with
      | some v => s.write v
      | none => .ok s
    return (s, { r with table := ← r.table.insert kind s })

/-- Declares slots one after the other, up to the first that cannot be. -/
def createAll : List (SlotKind × Slot) → Registry ρ → Registry ρ × Except Fault Unit
  | [], r => (r, .ok ())
  | (kind, s) :: rest, r =>
    match r.create kind s.name s.type (some s.value) with
    | .ok (_, r) => createAll rest r
    | .error fault => (r, .error fault)

def remove (r : Registry ρ) (kind : SlotKind) (name : String) : Except Fault (Slot × Registry ρ) :=
  (r.table.remove kind name).map fun (s, table) => (s, { r with table })

def watchers (r : Registry ρ) (kind : SlotKind) (name : String) : List ρ :=
  (r.observers.filter (·.watch.covers kind name)).map (·.who)

def notification (r : Registry ρ) (kind : SlotKind) (name : String) : Notification ρ :=
  let observers := r.watchers kind name
  { kind, slot := if observers.isEmpty then none else r.find? kind name, observers }

def write (r : Registry ρ) (kind : SlotKind) (name : String) (v : Value) :
    Except Fault (Registry ρ × Notification ρ) :=
  match r.table.update kind name (·.write v) with
  | .error fault => .error fault
  | .ok (_, table) =>
    let r := { r with table }
    .ok (r, r.notification kind name)

def writeAs (r : Registry ρ) (kind : SlotKind) (name : String) (v : Value) :
    Except Fault (Registry ρ × Notification ρ) := do
  let type ← r.type kind name
  let v ← v.convert type
  r.write kind name v

/-- Goes back to the first value of the type, of which nobody is notified. -/
def clear (r : Registry ρ) (kind : SlotKind) (name : String) : Except Fault (Registry ρ) :=
  (r.table.update kind name fun s => .ok s.clear).map fun (_, table) => { r with table }

def setMuted (r : Registry ρ) (kind : SlotKind) (name : String) (muted : Bool) :
    Except Fault (Registry ρ) :=
  (r.table.update kind name fun s => .ok { s with muted }).map fun (_, table) => { r with table }

def isMuted (r : Registry ρ) (kind : SlotKind) (name : String) : Except Fault Bool :=
  (r.get kind name).map (·.muted)

def reserve (r : Registry ρ) : Nat × Registry ρ :=
  (r.nextId, { r with nextId := r.nextId + 1 })

def register (r : Registry ρ) (watch : Watch) (who : ρ) : Nat × Registry ρ :=
  let (id, r) := r.reserve
  (id, { r with observers := r.observers ++ [⟨id, watch, who⟩] })

def observe (r : Registry ρ) (kind : SlotKind) (name : String) (who : ρ) :
    Except Fault (Nat × Registry ρ) :=
  (r.get kind name).map fun _ => r.register (.slot kind name) who

def observeAll (r : Registry ρ) (who : ρ) : Nat × Registry ρ :=
  r.register .everything who

def hasObserver (r : Registry ρ) (id : Nat) : Bool :=
  r.observers.any (·.id == id)

def unobserve (r : Registry ρ) (id : Nat) : Registry ρ :=
  { r with observers := r.observers.filter (·.id != id) }

theorem watchers_eq_nil_iff {r : Registry ρ} {kind : SlotKind} {name : String} :
    r.watchers kind name = [] ↔ ∀ o ∈ r.observers, o.watch.covers kind name = false := by
  simp [watchers, List.filter_eq_nil_iff]

end Registry

end Patchbay
