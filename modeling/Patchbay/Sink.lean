import Patchbay.Event

/-!
# Recorders and fan-outs

A recorder keeps the effects that it is sent, in their order, and shows them by what they ask. A
fan-out passes every effect on to each of its sinks, of which some record and some forget.
-/

namespace Patchbay

structure Recorder where
  effects : List Effect := []
  deriving DecidableEq

namespace Recorder

def send (r : Recorder) (e : Effect) : Recorder :=
  ⟨r.effects ++ [e]⟩

def size (r : Recorder) : Nat := r.effects.length

def isEmpty (r : Recorder) : Bool := r.effects.isEmpty

def take (r : Recorder) : List Effect × Recorder := (r.effects, {})

def subscriptions (r : Recorder) : List Change :=
  r.effects.filterMap Effect.change?

def publications (r : Recorder) : List (String × ValueType × List UInt8) :=
  r.effects.filterMap Effect.publication?

def requests (r : Recorder) : List (String × String) :=
  r.effects.filterMap Effect.request?

theorem foldl_send (r : Recorder) (es : List Effect) : es.foldl send r = ⟨r.effects ++ es⟩ := by
  induction es generalizing r with
  | nil => simp
  | cons e es ih => simp [ih, send]

end Recorder

inductive Sink
  | forgetful
  | recording (r : Recorder)
  deriving DecidableEq

namespace Sink

def send (e : Effect) : Sink → Sink
  | forgetful => forgetful
  | recording r => recording (r.send e)

def recorder? : Sink → Option Recorder
  | forgetful => none
  | recording r => some r

def clear : Sink → Sink
  | forgetful => forgetful
  | recording r => recording r.take.2

end Sink

structure Fanout where
  sinks : List Sink := []
  deriving DecidableEq

namespace Fanout

def add (f : Fanout) (s : Sink) : Fanout :=
  ⟨f.sinks ++ [s]⟩

def size (f : Fanout) : Nat := f.sinks.length

def isEmpty (f : Fanout) : Bool := f.sinks.isEmpty

def send (f : Fanout) (e : Effect) : Fanout :=
  ⟨f.sinks.map (Sink.send e)⟩

def sendAll (es : List Effect) (f : Fanout) : Fanout :=
  es.foldl send f

def recorders (f : Fanout) : List Recorder :=
  f.sinks.filterMap Sink.recorder?

def take (f : Fanout) : List (List Effect) × Fanout :=
  (f.recorders.map (·.take.1), ⟨f.sinks.map Sink.clear⟩)

end Fanout

end Patchbay
