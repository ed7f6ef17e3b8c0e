import LineBasic.Proofs.Debugger.Orderly
import LineBasic.Proofs.Debugger.Transparency
import LineBasic.Proofs.Turn

/-!
# Machines and debuggers take turns

A call of a machine or a debugger takes turns (`Machine.untilEvent_eq_run`, `Debugger.untilEvent_eq_run`), so
what holds of turns holds of calls with any budget.
-/
namespace LineBasic

/-! ## Machines -/

namespace Machine

/-- Fetches an event, rests or makes a step. -/
def turn (m : Machine) : Turn Machine :=
  match m.events with
  | e :: es => .event e { m with events := es }
  | [] =>
    match m.status with
    | .stopped => .event .stopped m
    | .waiting => .event (.input inputPrompt) m
    | .running => .step m.step

theorem turn_of_cons {m : Machine} {e : Event} {es : List Event} (h : m.events = e :: es) :
    m.turn = .event e { m with events := es } := by
  rw [turn, h]

theorem turn_of_stopped {m : Machine} (h : m.events = []) (hs : m.status = .stopped) :
    m.turn = .event .stopped m := by
  rw [turn, h, hs]

theorem turn_of_waiting {m : Machine} (h : m.events = []) (hs : m.status = .waiting) :
    m.turn = .event (.input inputPrompt) m := by
  rw [turn, h, hs]

theorem turn_of_running {m : Machine} (h : m.events = []) (hs : m.status = .running) :
    m.turn = .step m.step := by
  rw [turn, h, hs]

theorem events_of_fetch?_some {m n : Machine} {e : Event} (h : m.fetch? = (some e, n)) :
    ∃ es, m.events = e :: es ∧ n = { m with events := es } := by
  unfold fetch? at h
  split at h
  · cases h
  · next hev =>
    cases h
    exact ⟨_, hev, rfl⟩

theorem events_of_fetch?_none {m n : Machine} (h : m.fetch? = (none, n)) : m.events = [] := by
  unfold fetch? at h
  split at h
  · next hev => exact hev
  · cases h

theorem untilEvent_eq_run (steps : Nat) (m : Machine) : m.untilEvent steps = Turn.run turn steps m := by
  fun_induction untilEvent steps m with
  | case1 steps m e n hf =>
    obtain ⟨es, hev, rfl⟩ := events_of_fetch?_some hf
    rw [Turn.run_of_event (turn_of_cons hev)]
  | case2 steps m _ hf hs => rw [Turn.run_of_event (turn_of_stopped (events_of_fetch?_none hf) hs)]
  | case3 steps m _ hf hs => rw [Turn.run_of_event (turn_of_waiting (events_of_fetch?_none hf) hs)]
  | case4 m _ hf hs => rw [Turn.run_zero_of_step (turn_of_running (events_of_fetch?_none hf) hs)]
  | case5 m _ hf hs steps ih =>
    rw [Turn.run_succ_of_step (turn_of_running (events_of_fetch?_none hf) hs), ih]

end Machine

/-! ## Debuggers -/

namespace Debugger

variable {V : Type} [Viewer V]

/-- Fetches an event, rests, ends the session or makes a step. Outside of a session it is the machine's
turn. -/
def turn (d : Debugger V) : Turn (Debugger V) :=
  if d.active then
    match d.machine.events with
    | e :: es => .event e { d with machine := { d.machine with events := es } }
    | [] =>
      match d.machine.status, d.pace with
      | .stopped, _ => .event .stopped d.endSession
      | .waiting, _ => .event (.input Machine.inputPrompt) d
      | .running, .paused => .event .stopped d
      | .running, .toward goal force => .step (d.step goal force)
  else d.machine.turn.map fun machine => { d with machine }

section

variable {d : Debugger V}

theorem turn_of_cons (ha : d.active = true) {e : Event} {es : List Event}
    (h : d.machine.events = e :: es) :
    d.turn = .event e { d with machine := { d.machine with events := es } } := by
  rw [turn, if_pos ha, h]

theorem turn_of_stopped (ha : d.active = true) (h : d.machine.events = [])
    (hs : d.machine.status = .stopped) : d.turn = .event .stopped d.endSession := by
  rw [turn, if_pos ha, h, hs]

theorem turn_of_waiting (ha : d.active = true) (h : d.machine.events = [])
    (hs : d.machine.status = .waiting) : d.turn = .event (.input Machine.inputPrompt) d := by
  rw [turn, if_pos ha, h, hs]

theorem turn_of_paused (ha : d.active = true) (h : d.machine.events = [])
    (hs : d.machine.status = .running) (hp : d.pace = .paused) : d.turn = .event .stopped d := by
  rw [turn, if_pos ha, h, hs, hp]

theorem turn_of_toward (ha : d.active = true) (h : d.machine.events = [])
    (hs : d.machine.status = .running) {goal : PausePoint} {force : Bool}
    (hp : d.pace = .toward goal force) : d.turn = .step (d.step goal force) := by
  rw [turn, if_pos ha, h, hs, hp]

end

/-- Outside of a session the debugger takes the turns of its machine. -/
theorem runFreely_eq_run {d : Debugger V} (ha : ¬ d.active = true) (steps : Nat) :
    d.runFreely steps = Turn.run turn steps d := by
  have hturn (machine : Machine) : turn { d with machine } = machine.turn.map ({ d with machine := · }) :=
    if_neg ha
  have hrun := Turn.run_map hturn steps d.machine
  rw [← Machine.untilEvent_eq_run] at hrun
  exact hrun.symm

theorem untilEvent_eq_run (steps : Nat) (d : Debugger V) : d.untilEvent steps = Turn.run turn steps d := by
  fun_induction untilEvent steps d with
  | case1 steps d ha e n hf =>
    obtain ⟨es, hev, rfl⟩ := Machine.events_of_fetch?_some hf
    rw [Turn.run_of_event (turn_of_cons ha hev)]
  | case2 steps d ha _ hf hs =>
    -- the machine that has stopped has nothing more to say
    have hev := Machine.events_of_fetch?_none hf
    have hm := Turn.run_of_event (Machine.turn_of_stopped hev hs) steps
    rw [← Machine.untilEvent_eq_run] at hm
    rw [Turn.run_of_event (turn_of_stopped ha hev hs), runFreely, endSession_machine, hm]
    refine Prod.ext rfl ?_
    show { d.endSession with machine := d.machine } = d.endSession
    rw [← d.endSession_machine]
  | case3 steps d ha _ hf hs =>
    rw [Turn.run_of_event (turn_of_waiting ha (Machine.events_of_fetch?_none hf) hs)]
  | case4 steps d ha _ hf hp hs =>
    rw [Turn.run_of_event (turn_of_paused ha (Machine.events_of_fetch?_none hf) hs hp)]
  | case5 d ha _ hf goal force hp hs =>
    rw [Turn.run_zero_of_step (turn_of_toward ha (Machine.events_of_fetch?_none hf) hs hp)]
  | case6 d ha _ hf goal force hp hs steps ih =>
    rw [Turn.run_succ_of_step (turn_of_toward ha (Machine.events_of_fetch?_none hf) hs hp), ih]
  | case7 steps d ha => exact runFreely_eq_run ha steps

end Debugger

end LineBasic
