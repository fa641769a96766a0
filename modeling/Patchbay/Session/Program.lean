import Patchbay.Session.Operation

/-!
# What observers do

An observer is a program: it looks at the agent, performs an operation, sees the answer, and goes on
from there, for finitely many operations. Its operations may call further observers, itself included,
so their nesting is bounded: an observer that is called `depth` levels deep is entered in the journal
and does nothing.
-/

namespace Patchbay

inductive Program (ρ ν : Type)
  | done
  | act (choose : Agent ρ → Op ρ ν) (next : Except Fault (Reply ν) → Program ρ ν)

namespace Program

variable {ρ ν : Type}

def ofList : List (Agent ρ → Op ρ ν) → Program ρ ν
  | [] => done
  | choose :: rest => act choose fun _ => ofList rest

def once (op : Op ρ ν) : Program ρ ν :=
  act (fun _ => op) fun _ => done

/-- Performs the operations of an observer and enters each answer in the journal. -/
def exec (perform : Op ρ ν → Session ρ ν → Session ρ ν × Except Fault (Reply ν)) (who : ρ) :
    Program ρ ν → Session ρ ν → Session ρ ν
  | done, s => s
  | act choose next, s =>
    let (s, answer) := perform (choose s.agent) s
    exec perform who (next answer) (s.note (.did who answer))

end Program

abbrev Behaviour (ρ ν : Type) := ρ → Firing → Program ρ ν

namespace Behaviour

variable {ρ ν : Type}

/-- What observers do if at most `depth` of them may be at work inside one another. -/
def react (b : Behaviour ρ ν) : Nat → React ρ ν
  | depth, who, firing, s =>
    let s := s.note (.called who firing s.agent.muted s.agent.frozen)
    match depth with
    | 0 => s
    | depth + 1 => (b who firing).exec (Session.perform (b.react depth)) who s

def perform (b : Behaviour ρ ν) (depth : Nat) (op : Op ρ ν) (s : Session ρ ν) :
    Session ρ ν × Except Fault (Reply ν) :=
  s.perform (b.react depth) op

def idle : Behaviour ρ ν := fun _ _ => .done

end Behaviour

end Patchbay
