import Patchbay.Fault

/-!
# Calls

A call declares a named entry point with typed arguments. The names of its arguments are distinct and
not blank. Only the declaration is kept here; carrying out a call is none of our business.
-/

namespace Patchbay

structure Argument where
  name : String
  type : ValueType
  deriving DecidableEq

structure Call where
  name : String
  description : String := ""
  arguments : List Argument := []
  deriving DecidableEq

namespace Call

def new (name : String) : Except Fault Call :=
  match checkName name with
  | .ok () => .ok { name }
  | .error fault => .error (.naming fault)

def argument? (c : Call) (name : String) : Option Argument :=
  c.arguments.find? (·.name == name)

def hasArgument (c : Call) (name : String) : Bool :=
  c.arguments.any (·.name == name)

def addArgument (c : Call) (name : String) (type : ValueType) : Except Fault Call :=
  match checkName name with
  | .error fault => .error (.naming fault)
  | .ok () =>
    if c.hasArgument name then .error (.naming (.taken name))
    else .ok { c with arguments := c.arguments ++ [⟨name, type⟩] }

def removeArgument (c : Call) (name : String) : Except Fault (Argument × Call) :=
  match c.argument? name with
  | some a => .ok (a, { c with arguments := c.arguments.eraseP (·.name == name) })
  | none => .error (.unknownArgument c.name name)

def signature (c : Call) : List (String × ValueType) :=
  c.arguments.map fun a => (a.name, a.type)

def checkArguments (seen : List String) : List Argument → Except NameFault Unit
  | [] => .ok ()
  | a :: rest =>
    match checkName a.name with
    | .error fault => .error fault
    | .ok () => if a.name ∈ seen then .error (.taken a.name) else checkArguments (a.name :: seen) rest

/-- Refuses a call with a blank name, a blank argument name or two arguments of one name. -/
def check (c : Call) : Except NameFault Unit :=
  match checkName c.name with
  | .error fault => .error fault
  | .ok () => checkArguments [] c.arguments

end Call

end Patchbay
