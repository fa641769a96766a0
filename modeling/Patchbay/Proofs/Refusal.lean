import Patchbay.Proofs.Delivery
import Patchbay.Proofs.Operation

/-!
# Refused operations leave no trace

An operation that ends in a fault leaves the session as it was before, with the agent and everything that
was asked of the network. A write is refused before anything is stored, so no observer is called for it
either. The operations that change definition and live slots one after the other are refused at the first
of the two, as the second cannot fail where the first has not.
-/

namespace Patchbay

variable {ρ ν : Type}

namespace Session

section Write
variable {s : Session ρ ν} (react : React ρ ν) {kind : SlotKind} {name : String} {fault : Fault}

theorem commit_of_error {outcome : Except Fault (Registry ρ × Notification ρ)}
    (h : (s.commit react kind name outcome).2 = .error fault) :
    (s.commit react kind name outcome).1 = s := by
  cases outcome with
  | error fault => rfl
  | ok done => cases h

theorem write_of_error {v : Value} (h : (s.write react kind name v).2 = .error fault) :
    (s.write react kind name v).1 = s := by
  simp only [write] at h ⊢
  cases hwritable : s.agent.checkWritable kind with
  | error fault => rfl
  | ok _ =>
    rw [hwritable] at h
    exact commit_of_error react h

theorem writeAs_of_error {v : Value} (h : (s.writeAs react kind name v).2 = .error fault) :
    (s.writeAs react kind name v).1 = s := by
  simp only [writeAs] at h ⊢
  cases hwritable : s.agent.checkWritable kind with
  | error fault => rfl
  | ok _ =>
    rw [hwritable] at h
    exact commit_of_error react h

theorem writeImpulsion_of_error (h : (s.writeImpulsion react kind name).2 = .error fault) :
    (s.writeImpulsion react kind name).1 = s := by
  simp only [writeImpulsion] at h ⊢
  cases htype : s.agent.registry.type kind name with
  | error fault => rfl
  | ok type =>
    rw [htype] at h
    exact write_of_error react h

end Write

/-- A delivery as a whole fails only while the agent is frozen. A fault at an input goes into the
report. -/
theorem deliver_of_error {s : Session ρ ν} (react : React ρ ν) {agent output : String}
    {type : ValueType} {payload : List UInt8} {fault : Fault}
    (h : (s.deliver react agent output type payload).2 = .error fault) :
    (s.deliver react agent output type payload).1 = s := by
  simp only [deliver] at h ⊢
  split at h
  · rename_i hfrozen
    rw [if_pos hfrozen]
  · split at h
    · cases h
    · cases h

theorem reply_of_error {α : Type} {f : α → Reply ν} {out : Session ρ ν × Except Fault α} {fault : Fault}
    (h : (reply f out).2 = .error fault) : out.2 = .error fault := by
  obtain ⟨s, result⟩ := out
  cases result with
  | error other => exact congrArg Except.error (Except.error.inj h)
  | ok x => cases h

/-- Whatever operation a reached session refuses, it is afterwards as it was: the definition, the live
slots and their observers, the wiring with its identifiers and words, the peers, the categories and the
flags of the agent, what was asked of the network, and the journal. What is heard of a peer is the
exception. -/
theorem unchanged_of_refused {s : Session ρ ν} (h : s.Reachable) {op : Op ρ ν} (sound : op.Sound)
    (hop : ¬op.HearsPeer) (react : React ρ ν) {fault : Fault}
    (hfault : (s.perform react op).2 = .error fault) : (s.perform react op).1 = s := by
  by_cases hquiet : op.Quiet
  · have hturn := turn_perform h.settled sound hquiet hop react
    generalize s.perform react op = out at hturn hfault
    cases hturn with
    | refused fault => rfl
    | carried b sent answer h => cases hfault
  · cases op with
    | write kind name v => exact write_of_error react (reply_of_error hfault)
    | writeAs kind name v => exact writeAs_of_error react (reply_of_error hfault)
    | writeImpulsion kind name => exact writeImpulsion_of_error react (reply_of_error hfault)
    | setMuted flag => cases hfault
    | setFrozen flag => cases hfault
    | deliver agent output type payload => exact deliver_of_error react (reply_of_error hfault)
    | _ => exact absurd trivial hquiet

/-- Its first input is new to the panel and its second is not. -/
def gauges : Category :=
  { name := "gauges"
    slots :=
      { inputs := [⟨"dial", .integer, .integer 0, false⟩, ⟨"light", .bool, .bool false, false⟩] } }

theorem gauges_refused :
    let out := panel.perform (fun _ _ s => s) (.addCategory gauges)
    out.2 = .error (.malformed (.collision .input "light" "gauges")) ∧ out.1 = panel ∧
      panel.agent.registry.table.contains .input "dial" = false := by
  intro out
  have hfault : out.2 = .error (.malformed (.collision .input "light" "gauges")) := rfl
  have hgauges : (Op.addCategory gauges : Op Unit Unit).Sound := by
    have hdial := Interface.sound_empty.insert .input (s := ⟨"dial", .integer, .integer 0, false⟩)
      ⟨by decide, rfl⟩ rfl
    exact hdial.insert .input (s := ⟨"light", .bool, .bool false, false⟩) ⟨by decide, rfl⟩ rfl
  refine ⟨hfault, ?_, by decide⟩
  exact unchanged_of_refused reachable_panel hgauges (fun hop => hop)
    (fun _ _ s => s) hfault

end Session

end Patchbay
