import LineBasic.Debugger

/-!
# Requests to a debugger

All that the one at the controls of a debugger can ask of it, as data. What a request does to the
machine is said once for each function of the debugger: commands and breakpoints leave it alone, and
everything else that runs it runs it by plain steps (`step_advances`).
-/
namespace LineBasic

/-- A call of the debugger. -/
inductive Request where
  | begin
  | breakOff
  | stepIn
  | stepOver (force : Bool)
  | stepOut (force : Bool)
  | runToBreakpoint
  | runToSlot (slot : Nat) (force : Bool)
  | toggle (label : Label)
  | proceed (steps : Nat)
  | submit (text : String)
deriving DecidableEq, Repr

inductive Reply where
  | done
  | flag (b : Bool)
  | event (e : Event)
deriving DecidableEq, Repr

namespace Debugger

variable {V : Type} [Viewer V]

def serve (d : Debugger V) : Request → Reply × Debugger V
  | .begin => (.flag d.beginSession.1, d.beginSession.2)
  | .breakOff => (.done, d.breakOff)
  | .stepIn => (.done, d.stepIn)
  | .stepOver force => (.done, d.stepOver force)
  | .stepOut force => (.done, d.stepOut force)
  | .runToBreakpoint => (.done, d.runToBreakpoint)
  | .runToSlot slot force => (.done, d.runToSlot slot force)
  | .toggle label => (.flag (d.toggle label).1, (d.toggle label).2)
  | .proceed steps => (.event (d.untilEvent steps).1, (d.untilEvent steps).2)
  | .submit text => (.flag (d.submit text).1, (d.submit text).2)

end Debugger

/-! ## Lines from the user -/

namespace Debugger

variable {V : Type} [Viewer V]

/-- What a line from the user can do. -/
inductive Submitted (d : Debugger V) (text : String) : Debugger V → Prop
  | answered (waiting : d.machine.status = .waiting) :
      Submitted d text { d with machine := d.machine.takeAnswer text }
  | refused (e : Error) : Submitted d text { d with machine := d.machine.emit (.error e) }
  | revised (s : Statement) (parsed : Statement.parse text = .ok s) : Submitted d text (d.revise s)
  | direct (s : Statement) (idle : ¬ d.active = true) (parsed : Statement.parse text = .ok s) :
      Submitted d text { d with machine := (d.machine.submitStatement s).2 }

theorem submit_submitted (d : Debugger V) (text : String) : Submitted d text (d.submit text).2 := by
  unfold submit
  split
  · next hw =>
    rw [Machine.submit_of_isWaiting hw]
    exact .answered (by simpa [Machine.isWaiting] using hw)
  · unfold Machine.parse
    cases hparse : Statement.parse text with
    | error e => exact .refused e
    | ok s =>
      dsimp only
      split
      · exact .revised s hparse
      · split
        · exact .refused _
        · next ha => exact .direct s ha hparse

end Debugger

/-! ## What leaves the machine alone -/

namespace Debugger

section Commands

variable {V : Type}

theorem isPaused_iff {d : Debugger V} :
    d.isPaused = true ↔ d.active = true ∧ d.pace = .paused ∧ d.machine.isWaiting = false := by
  simp [isPaused, and_assoc]

@[simp] theorem pursue_machine (d : Debugger V) (goal : PausePoint) (force : Bool) :
    (d.pursue goal force).machine = d.machine := by
  unfold pursue
  split <;> rfl

@[simp] theorem stepOut_machine (d : Debugger V) (force : Bool) :
    (d.stepOut force).machine = d.machine := by
  unfold stepOut
  split
  · rfl
  · exact pursue_machine d _ force

end Commands

variable {V : Type} [Viewer V]

@[simp] theorem inform_machine (d : Debugger V) (msgs : List Message) :
    (d.inform msgs).machine = d.machine := by
  unfold inform
  split <;> rfl

@[simp] theorem tell_machine (d : Debugger V) (msgs : List Message) :
    (d.tell msgs).machine = d.machine := by
  unfold tell
  split <;> rfl

@[simp] theorem toggle_machine (d : Debugger V) (label : Label) :
    (d.toggle label).2.machine = d.machine :=
  inform_machine _ _

@[simp] theorem endSession_machine (d : Debugger V) : d.endSession.machine = d.machine :=
  tell_machine _ _

end Debugger

/-! ## What edits it -/

theorem Debugger.revise_machine {V : Type} [Viewer V] (d : Debugger V) (s : Statement) :
    (d.revise s).machine = (d.machine.revise s).2 ∨
      (d.revise s).machine = (d.machine.revise s).2.skipRemarks := by
  unfold Debugger.revise
  dsimp only
  split
  · exact .inr (inform_machine _ _)
  · exact .inl rfl

/-! ## What steps it -/

namespace Machine

/-- Some steps lead from one machine to the other. -/
def Advances (m n : Machine) : Prop :=
  ∃ k, n = Nat.repeat step k m

theorem Advances.refl (m : Machine) : Advances m m :=
  ⟨0, rfl⟩

theorem Advances.step {m n : Machine} (h : Advances m n) : Advances m n.step := by
  obtain ⟨k, rfl⟩ := h
  exact ⟨k + 1, rfl⟩

theorem Advances.repeat_step {m n : Machine} (h : Advances m n) (k : Nat) :
    Advances m (Nat.repeat Machine.step k n) := by
  induction k with
  | zero => exact h
  | succ k ih => exact ih.step

theorem Advances.trans {m n o : Machine} (h : Advances m n) (h' : Advances n o) : Advances m o := by
  obtain ⟨k, rfl⟩ := h'
  exact h.repeat_step k

theorem Advances.skipRemarks {m n : Machine} (h : Advances m n) : Advances m n.skipRemarks :=
  h.repeat_step _

end Machine

namespace Debugger

variable {V : Type} [Viewer V]

@[simp] theorem pause_machine (d : Debugger V) : d.pause.machine = d.machine.skipRemarks :=
  inform_machine _ _

theorem step_advances (d : Debugger V) (goal : PausePoint) (force : Bool) :
    Machine.Advances d.machine (d.step goal force).machine := by
  have hstep : Machine.Advances d.machine d.machine.step := (Machine.Advances.refl _).step
  unfold step
  dsimp only
  split
  · rw [pause_machine]
    exact hstep.skipRemarks
  · exact hstep

theorem beginSession_advances {d : Debugger V} (h : d.beginSession.1 = true) :
    Machine.Advances d.machine.start d.beginSession.2.machine := by
  unfold beginSession at h ⊢
  dsimp only at h ⊢
  split at h
  · next hr =>
    rw [if_pos hr, tell_machine]
    exact (Machine.Advances.refl _).skipRemarks
  · cases h

end Debugger

end LineBasic
