import Patchbay.Event

/-!
# Broadcasting

A hub hands the records of its senders to all its receivers. It keeps the latest records, as many as
the power of two that the wanted buffer is rounded up to; a receiver that falls behind is told how many
records it lost and goes on with the oldest one kept. Records that are sent while nobody receives are
dropped. A receiver sees the end once no sender is left and nothing is left to receive.
-/

namespace Patchbay

/-- An effect with its sender and its place among the effects of that sender, from one on. -/
structure Record where
  agent : String
  sequence : Nat
  effect : Effect
  deriving DecidableEq

inductive Received
  | record (r : Record)
  | empty
  | closed
  | lagged (lost : Nat)
  deriving DecidableEq

def Received.record? : Received → Option Record
  | record r => some r
  | _ => none

structure Hub where
  capacity : Nat
  log : List Record := []
  /-- For each receiver the number of records that are behind it, unless it has gone. -/
  cursors : List (Option Nat) := []
  senders : Nat := 1
  deriving DecidableEq

namespace Hub

def ofBuffer (buffer : Nat) : Hub :=
  { capacity := (max buffer 1).nextPowerOfTwo }

def receiverCount (h : Hub) : Nat :=
  (h.cursors.filter (·.isSome)).length

def publish (h : Hub) (r : Record) : Hub :=
  if h.receiverCount = 0 then h else { h with log := h.log ++ [r] }

/-- Adds a receiver of what is sent from now on, and gives its index. -/
def subscribe (h : Hub) : Nat × Hub :=
  (h.cursors.length, { h with cursors := h.cursors ++ [some h.log.length] })

def receive (h : Hub) (index : Nat) : Option (Received × Hub) :=
  (h.cursors[index]?.join).map fun cursor =>
    let moved (n : Nat) : Hub := { h with cursors := h.cursors.set index (some n) }
    if cursor + h.capacity < h.log.length then
      (.lagged (h.log.length - h.capacity - cursor), moved (h.log.length - h.capacity))
    else
      match h.log[cursor]? with
      | some r => (.record r, moved (cursor + 1))
      | none => (if h.senders = 0 then .closed else .empty, h)

def dropReceiver (h : Hub) (index : Nat) : Hub :=
  { h with cursors := h.cursors.set index none }

def addSender (h : Hub) : Hub := { h with senders := h.senders + 1 }

def dropSender (h : Hub) : Hub := { h with senders := h.senders - 1 }

/-- Everything that a receiver finds before it would have to wait, within `fuel` looks. -/
def receiveAll : Nat → Nat → Hub → List Received × Hub
  | 0, _, h => ([], h)
  | fuel + 1, index, h =>
    match h.receive index with
    | some (.record r, h) =>
      let (rest, h) := receiveAll fuel index h
      (.record r :: rest, h)
    | some (.lagged n, h) =>
      let (rest, h) := receiveAll fuel index h
      (.lagged n :: rest, h)
    | _ => ([], h)

end Hub

structure Sender where
  agent : String
  sequence : Nat := 0
  deriving DecidableEq

namespace Sender

def send (s : Sender) (effect : Effect) (h : Hub) : Sender × Hub :=
  let sequence := s.sequence + 1
  ({ s with sequence }, h.publish ⟨s.agent, sequence, effect⟩)

def sendAll : List Effect → Sender → Hub → Sender × Hub
  | [], s, h => (s, h)
  | effect :: rest, s, h =>
    let (s, h) := s.send effect h
    sendAll rest s h

end Sender

end Patchbay
