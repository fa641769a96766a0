import Patchbay.Call
import Patchbay.Category

/-!
# Definitions

A definition is the whole declared interface of an agent: slots of its own, categories it adopts, and
calls. Its effective set holds its own slots and those of its categories, and no name may be declared
twice within a kind. `check` is the whole rule; the editing operations keep it.
-/

namespace Patchbay

structure Definition where
  name : String
  description : String := ""
  version : String := ""
  categories : List Category := []
  calls : List Call := []
  own : Interface := {}
  deriving DecidableEq

namespace Definition

def new (name : String) : Except Fault Definition :=
  match checkName name with
  | .ok () => .ok { name }
  | .error fault => .error (.naming fault)

def category? (d : Definition) (name : String) : Option Category :=
  d.categories.find? (·.name == name)

def hasCategory (d : Definition) (name : String) : Bool :=
  d.categories.any (·.name == name)

def contributor? (d : Definition) (kind : SlotKind) (name : String) : Option String :=
  (d.categories.find? (·.slots.contains kind name)).map (·.name)

def find? (d : Definition) (kind : SlotKind) (name : String) : Option Slot :=
  match d.own.find? kind name with
  | some s => some s
  | none => d.categories.findSome? fun c => c.slots.find? kind name

def effective (d : Definition) (kind : SlotKind) : List Slot :=
  d.own.slots kind ++ d.categories.flatMap fun c => c.slots.slots kind

def addTemplates (category : String) : List (SlotKind × Slot) → Interface → Except Malformed Interface
  | [], i => .ok i
  | (kind, s) :: rest, i =>
    match i.insert kind s with
    | .ok i => addTemplates category rest i
    | .error _ => .error (.collision kind s.name category)

def addCategories : List Category → Interface → Except Malformed Interface
  | [], i => .ok i
  | c :: rest, i =>
    match addTemplates c.name c.slots.all i with
    | .ok i => addCategories rest i
    | .error why => .error why

/-- The effective set as an interface; a name declared twice within a kind has no place in it. -/
def interface (d : Definition) : Except Malformed Interface :=
  addCategories d.categories d.own

def checkCategories (seen : List String) : List Category → Except Malformed Unit
  | [] => .ok ()
  | c :: rest =>
    if c.name ∈ seen then .error (.categoryTwice c.name) else checkCategories (c.name :: seen) rest

def checkCalls (seen : List String) : List Call → Except Malformed Unit
  | [] => .ok ()
  | c :: rest =>
    match c.check with
    | .error fault => .error (.call c.name fault)
    | .ok () =>
      if c.name ∈ seen then .error (.callTwice c.name) else checkCalls (c.name :: seen) rest

/-- The rule of definitions: a name, distinct categories, sound and distinct calls, and no collision in
the effective set. The first breach in this order is reported. -/
def check (d : Definition) : Except Malformed Unit := do
  if Text.isBlank d.name then throw .nameless
  checkCategories [] d.categories
  checkCalls [] d.calls
  let _ ← d.interface
  return ()

def validate (d : Definition) : Except Fault Unit :=
  d.check.mapError .malformed

def addSlot (d : Definition) (kind : SlotKind) (s : Slot) : Except Fault Definition :=
  if (d.contributor? kind s.name).isSome then .error (.naming (.taken s.name))
  else (d.own.insert kind s).map fun own => { d with own }

/-- Takes out a slot of the definition's own. The slots of a category stay as long as the category is
adopted. -/
def removeSlot (d : Definition) (kind : SlotKind) (name : String) :
    Except Fault (Slot × Definition) :=
  match d.contributor? kind name with
  | some category => .error (.malformed (.contributed kind name category))
  | none => (d.own.remove kind name).map fun (s, own) => (s, { d with own })

def addCategory (d : Definition) (c : Category) : Except Fault Definition :=
  if d.hasCategory c.name then .error (.naming (.taken c.name))
  else
    match c.slots.all.find? fun (kind, s) => (d.find? kind s.name).isSome with
    | some (kind, s) => .error (.malformed (.collision kind s.name c.name))
    | none => .ok { d with categories := d.categories ++ [c] }

def call? (d : Definition) (name : String) : Option Call :=
  d.calls.find? (·.name == name)

def hasCall (d : Definition) (name : String) : Bool :=
  d.calls.any (·.name == name)

def callNames (d : Definition) : List String :=
  d.calls.map (·.name)

def addCall (d : Definition) (c : Call) : Except Fault Definition :=
  match c.check with
  | .error fault => .error (.naming fault)
  | .ok () =>
    if d.hasCall c.name then .error (.naming (.taken c.name))
    else .ok { d with calls := d.calls ++ [c] }

def removeCall (d : Definition) (name : String) : Except Fault (Call × Definition) :=
  match d.call? name with
  | some c => .ok (c, { d with calls := d.calls.eraseP (·.name == name) })
  | none => .error (.unknownCall name)

def replaceCall (name : String) (c : Call) : List Call → List Call
  | [] => []
  | first :: rest => if first.name == name then c :: rest else first :: replaceCall name c rest

def updateCall (d : Definition) (name : String) (change : Call → Except Fault Call) :
    Except Fault Definition :=
  match d.call? name with
  | some c => (change c).map fun c => { d with calls := replaceCall name c d.calls }
  | none => .error (.unknownCall name)

def addArgument (d : Definition) (call argument : String) (type : ValueType) :
    Except Fault Definition :=
  d.updateCall call fun c => c.addArgument argument type

def removeArgument (d : Definition) (call argument : String) : Except Fault Definition :=
  d.updateCall call fun c => (c.removeArgument argument).map (·.2)

/-- Equality that heeds neither the order of slots within a kind nor the sign of zero. -/
def same (a b : Definition) : Bool :=
  a.name == b.name && a.description == b.description && a.version == b.version &&
    a.categories.length == b.categories.length &&
    (a.categories.zip b.categories).all (fun (x, y) => x.same y) &&
    a.calls == b.calls && a.own.same b.own

end Definition

end Patchbay
