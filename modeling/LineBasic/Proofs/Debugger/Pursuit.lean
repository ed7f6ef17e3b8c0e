import LineBasic.Proofs.Debugger.Notice
import LineBasic.Proofs.Machine.Strides

/-!
# On the way to a pause

A command says where the next pause is, and the calls after it run the machine there. Until then the
debugger goes along the run that the machine would make by itself, and at the first stop of that run it
has arrived (`Stage`). What calls, answers and all else that may be asked meanwhile make of a stage is a
stage again (`Stage.serve`), so a pause is always made at the first stop and there only.
-/
namespace LineBasic

namespace Machine

theorem direct_of_isRunning {m : Machine} (hr : m.status = .running) (h : m.step.isRunning = true) :
    m.step.direct = none := by
  have hs := status_of_isRunning h
  cases step_lands hr with
  | stopped hs' => cases hs.symm.trans hs'
  | waiting hs' => cases hs.symm.trans hs'
  | running _ hd => exact hd

/-- Skipping remarks does not make a running machine wait. -/
theorem skipRemarks_status {m : Machine} (hd : m.direct = none) (hs : m.status = .running) :
    m.skipRemarks.status ≠ .waiting := by
  rcases skipRemarks_eq hd with he | ⟨slot, label, -, hle, he⟩ <;> rw [he]
  · simp [hs]
  · exact (moveTo_settled hs hle label).status

theorem skipRemarks_muted {m n : Machine} (h : m.muted = n.muted) :
    m.skipRemarks.muted = n.skipRemarks.muted := by
  have hahead : m.remarksAhead = n.remarksAhead := congrArg (·.remarksAhead) h
  rw [skipRemarks, skipRemarks, hahead]
  exact muted_congr (fun es m => repeat_step_behind es _ m) h

end Machine

/-! ## Stops -/

/-- The machine is at the place for the pause. -/
def PausePoint.ReachedBy (n : Machine) : PausePoint → Prop
  | nextStatement => True
  | depth d => n.depth ≤ d
  | slot i => n.cursor = i
  | breakpoint => False

/-- A command, with the machine that it runs and the breakpoints on the way. -/
structure Pursuit where
  origin : Machine
  breakpoints : List Label
  goal : PausePoint
  force : Bool

namespace Pursuit

/-- The program is still running, and at the place for the pause or, unless breakpoints are passed by
force, on a line that has one. -/
def Stop (p : Pursuit) (n : Machine) : Prop :=
  n.isRunning = true ∧ (p.goal.ReachedBy n ∨
    p.force = false ∧ ∃ l, n.program.line? n.cursor = some l ∧ l.label ∈ p.breakpoints)

/-- With these answers the first stop is reached after `k ≥ 1` steps, with the machine `n`. -/
def FirstStop (p : Pursuit) (answers : List String) (k : Nat) (n : Machine) : Prop :=
  p.origin.FirstAt answers p.Stop k n

theorem stop_congr (p : Pursuit) {m n : Machine} (h : m.muted = n.muted) : p.Stop m ↔ p.Stop n := by
  have hmuted (n : Machine) : p.Stop n ↔ p.Stop n.muted := by
    obtain ⟨origin, bs, goal, force⟩ := p
    cases goal <;> rfl
  rw [hmuted m, h, ← hmuted n]

end Pursuit

namespace Debugger

variable {V : Type}

/-- The command that sets out for `goal` now. -/
def errand (d : Debugger V) (goal : PausePoint) (force : Bool) : Pursuit where
  origin := d.machine
  breakpoints := d.breakpoints
  goal := goal
  force := force

theorem reached_iff (d : Debugger V) (goal : PausePoint) :
    d.reached goal = true ↔ goal.ReachedBy d.machine := by
  cases goal with
  | nextStatement => simp [reached, PausePoint.ReachedBy]
  | depth n => simp [reached, PausePoint.ReachedBy]
  | slot i => simp [reached, PausePoint.ReachedBy]
  | breakpoint => simp [reached, PausePoint.ReachedBy]

theorem onBreakpoint_iff {d : Debugger V} (hd : d.machine.direct = none) :
    d.onBreakpoint = true ↔
      ∃ l, d.machine.program.line? d.machine.cursor = some l ∧ l.label ∈ d.breakpoints := by
  simp [onBreakpoint, Machine.upcomingLabel?, hd, Option.any_eq_true]

theorem stop_iff {d : Debugger V} (hd : d.machine.isRunning = true → d.machine.direct = none)
    (goal : PausePoint) (force : Bool) :
    (d.machine.isRunning && (d.reached goal || (!force && d.onBreakpoint))) = true ↔
      (d.errand goal force).Stop d.machine := by
  rw [Bool.and_eq_true]
  refine and_congr_right (fun hr => ?_)
  rw [Bool.or_eq_true, Bool.and_eq_true, reached_iff, onBreakpoint_iff (hd hr), Bool.not_eq_true']
  rfl

variable [Viewer V]

/-- A step is followed by a pause exactly at a stop. -/
theorem step_eq {d : Debugger V} (hr : d.machine.status = .running) (goal : PausePoint)
    (force : Bool) :
    ((d.errand goal force).Stop d.machine.step →
        d.step goal force = { d with machine := d.machine.step }.pause) ∧
      (¬ (d.errand goal force).Stop d.machine.step →
        d.step goal force = { d with machine := d.machine.step }) := by
  have hstop := stop_iff (d := { d with machine := d.machine.step })
    (Machine.direct_of_isRunning hr) goal force
  exact ⟨fun h => if_pos (hstop.2 h), fun h => if_neg (fun hc => h (hstop.1 hc))⟩

end Debugger

/-! ## Stages -/

namespace Pursuit

variable {V : Type} {p : Pursuit} {broken : Bool} {answers : List String} {k : Nat} {d : Debugger V}

/-- The debugger has gone along the run for `k` steps, and has not come to a stop. -/
structure OnWay (p : Pursuit) (answers : List String) (k : Nat) (d : Debugger V) : Prop where
  active : d.active = true
  pace : d.pace = .toward p.goal p.force
  breakpoints : p.force = true ∨ d.breakpoints = p.breakpoints
  along : p.origin.Along answers p.Stop k d.machine

/-- The debugger has paused at the first stop, behind the remarks there. -/
structure Arrived (p : Pursuit) (answers : List String) (d : Debugger V) : Prop where
  active : d.active = true
  pace : d.pace = .paused
  settled : d.machine.status ≠ .waiting
  first : ∃ k n, p.FirstStop answers k n ∧ d.machine.muted = n.skipRemarks.muted

/-- The run has ended, and the session cannot pause any more. If the run was not broken off, there was no
stop, whatever is answered. -/
structure Over (p : Pursuit) (broken : Bool) (answers : List String) (d : Debugger V) : Prop where
  stopped : d.machine.status = .stopped
  unpaused : d.isPaused = false
  never : broken = false → ∀ more k n, ¬ p.FirstStop (answers ++ more) k n

/-- How far a command has been carried out. -/
inductive Stage (p : Pursuit) (broken : Bool) (answers : List String) (d : Debugger V) : Prop
  | onWay {k : Nat} (h : p.OnWay answers k d)
  | arrived (h : p.Arrived answers d)
  | ended (h : p.Over broken answers d)

theorem OnWay.isPaused (h : p.OnWay answers k d) : d.isPaused = false := by
  simp [Debugger.isPaused, h.pace]

theorem Arrived.isPaused (h : p.Arrived answers d) : d.isPaused = true := by
  simp [Debugger.isPaused, h.active, h.pace, Machine.isWaiting, h.settled]

theorem Arrived.machine (h : p.Arrived answers d) {more : List String} {n : Machine}
    (hfirst : p.FirstStop (answers ++ more) k n) : d.machine.muted = n.skipRemarks.muted := by
  obtain ⟨l, o, ho, hd⟩ := h.first
  rwa [hfirst.unique (ho.append more)]

theorem Stage.arrived_of_isPaused (h : p.Stage broken answers d) (hp : d.isPaused = true) :
    p.Arrived answers d := by
  cases h with
  | onWay h => cases h.isPaused.symm.trans hp
  | arrived h => exact h
  | ended h => cases h.unpaused.symm.trans hp

/-- Only the events have changed. -/
theorem OnWay.setMachine (h : p.OnWay answers k d) {n : Machine} (hn : n.muted = d.machine.muted) :
    p.OnWay answers k { d with machine := n } :=
  ⟨h.active, h.pace, h.breakpoints, h.along.of_muted hn⟩

theorem Arrived.setMachine (h : p.Arrived answers d) {n : Machine} (hn : n.muted = d.machine.muted) :
    p.Arrived answers { d with machine := n } := by
  obtain ⟨k, o, hfirst, ho⟩ := h.first
  refine ⟨h.active, h.pace, ?_, k, o, hfirst, hn.trans ho⟩
  rw [Machine.status_of_muted hn]
  exact h.settled

theorem Over.setMachine (h : p.Over broken answers d) {n : Machine} (hn : n.status = .stopped) :
    p.Over broken answers { d with machine := n } := by
  refine ⟨hn, ?_, h.never⟩
  have hpaused := h.unpaused
  simp only [Debugger.isPaused, Machine.isWaiting, h.stopped] at hpaused
  simpa [Debugger.isPaused, Machine.isWaiting, hn] using hpaused

/-- With breakpoints passed by force, it does not matter where they are. -/
theorem OnWay.stop_iff (h : p.OnWay answers k d) (n : Machine) :
    (d.errand p.goal p.force).Stop n ↔ p.Stop n := by
  rcases h.breakpoints with hf | hb
  · simp [Stop, Debugger.errand, hf]
  · simp [Stop, Debugger.errand, hb]

variable [Viewer V]

/-- A pause is made behind the remarks of a stop. The session goes on from there, or the error that has
ended it is still to be delivered. -/
theorem arrived_pause (ha : d.active = true) (hr : d.machine.status = .running)
    (hd : d.machine.direct = none) {n : Machine} (hfirst : p.FirstStop answers k n)
    (hn : d.machine.muted = n.muted) : p.Arrived answers d.pause ∧
      (d.pause.machine.status = .running ∨ d.pause.machine.events ≠ []) := by
  obtain ⟨v, hv⟩ := d.halted.inform_eq [.cursor d.halted.machine.cursor]
  rw [Debugger.pause_eq, hv]
  refine ⟨⟨ha, rfl, ?_, k, n, hfirst, ?_⟩, Machine.skipRemarks_events hd hr⟩
  · exact (Machine.skipRemarks_status hd hr)
  · exact Machine.skipRemarks_muted hn

/-- A step leads to the first stop, where the debugger pauses, or along. -/
theorem OnWay.step (h : p.OnWay answers k d) (hr : d.machine.status = .running) :
    (p.Arrived answers (d.step p.goal p.force) ∧ ((d.step p.goal p.force).machine.status = .running ∨
        (d.step p.goal p.force).machine.events ≠ [])) ∨
      p.OnWay answers (k + 1) (d.step p.goal p.force) := by
  obtain ⟨hpause, hon⟩ := Debugger.step_eq hr p.goal p.force
  rw [h.stop_iff] at hpause hon
  obtain ⟨harrive, hgo⟩ := h.along.step hr (fun hn => p.stop_congr hn)
  by_cases hstop : p.Stop d.machine.step
  · left
    obtain ⟨n, hfirst, hn⟩ := harrive hstop
    rw [hpause hstop]
    exact arrived_pause h.active (Machine.status_of_isRunning hstop.1)
      (Machine.direct_of_isRunning hr hstop.1) hfirst hn
  · right
    rw [hon hstop]
    exact ⟨h.active, h.pace, h.breakpoints, hgo hstop⟩

/-- The end of a session. -/
theorem over_endSession (hs : d.machine.status = .stopped)
    (never : broken = false → ∀ more k n, ¬ p.FirstStop (answers ++ more) k n) :
    p.Over broken answers d.endSession := by
  refine ⟨?_, ?_, never⟩
  · rw [d.endSession_machine, hs]
  · simp [Debugger.isPaused, d.endSession_active]

/-- On the way, a turn is a step or delivers an event. -/
theorem OnWay.turn (broken : Bool) (h : p.OnWay answers k d) :
    (∃ e d', d.turn = .event e d' ∧ p.Stage broken answers d') ∨
      d.machine.status = .running ∧ d.turn = .step (d.step p.goal p.force) := by
  cases hev : d.machine.events with
  | cons e es =>
    exact .inl ⟨e, _, Debugger.turn_of_cons h.active hev, .onWay (h.setMachine rfl)⟩
  | nil =>
    cases hs : d.machine.status with
    | stopped =>
      refine .inl ⟨_, _, Debugger.turn_of_stopped h.active hev hs, .ended (over_endSession hs ?_)⟩
      exact fun _ more l n => h.along.not_firstAt (by simp [hs]) (by simp [hs]) l
    | waiting => exact .inl ⟨_, d, Debugger.turn_of_waiting h.active hev hs, .onWay h⟩
    | running => exact .inr ⟨rfl, Debugger.turn_of_toward h.active hev hs h.pace⟩

theorem Arrived.untilEvent (h : p.Arrived answers d)
    (hs : d.machine.status = .running ∨ d.machine.events ≠ []) (steps : Nat) :
    p.Arrived answers (d.untilEvent steps).2 := by
  obtain ⟨es, he⟩ := Debugger.untilEvent_of_paused h.active h.pace hs steps
  rw [he]
  exact h.setMachine rfl

theorem OnWay.untilEvent (broken : Bool) (h : p.OnWay answers k d) (steps : Nat) :
    p.Stage broken answers (d.untilEvent steps).2 := by
  induction steps generalizing k d with
  | zero =>
    rw [Debugger.untilEvent_eq_run]
    rcases h.turn broken with ⟨e, d', ht, hstage⟩ | ⟨-, ht⟩
    · rw [Turn.run_of_event ht]
      exact hstage
    · rw [Turn.run_zero_of_step ht]
      exact .onWay h
  | succ steps ih =>
    rw [Debugger.untilEvent_eq_run]
    rcases h.turn broken with ⟨e, d', ht, hstage⟩ | ⟨hr, ht⟩
    · rw [Turn.run_of_event ht]
      exact hstage
    · rw [Turn.run_succ_of_step ht, ← Debugger.untilEvent_eq_run]
      rcases h.step hr with ⟨harrived, hs⟩ | hon
      · exact .arrived (harrived.untilEvent hs steps)
      · exact ih hon

theorem Over.untilEvent (h : p.Over broken answers d) (ha : d.active = true) (steps : Nat) :
    p.Over broken answers (d.untilEvent steps).2 := by
  rw [Debugger.untilEvent_eq_run]
  cases hev : d.machine.events with
  | cons e es =>
    rw [Turn.run_of_event (Debugger.turn_of_cons ha hev)]
    exact h.setMachine h.stopped
  | nil =>
    rw [Turn.run_of_event (Debugger.turn_of_stopped ha hev h.stopped)]
    exact over_endSession h.stopped h.never

end Pursuit

/-! ## Requests -/

/-- The request neither edits the program nor begins a session. -/
def Request.Spares {V : Type} (d : Debugger V) : Request → Prop
  | .begin => False
  | .submit text =>
    d.machine.isWaiting = true ∨ ∀ s, Statement.parse text = .ok s → s.label = none
  | _ => True

/-- The answer that a request gives to a waiting `INPUT`. -/
def Request.given {V : Type} (d : Debugger V) (r : Request) : List String :=
  if d.machine.isWaiting then r.answer?.toList else []

def Request.isCommand : Request → Bool
  | .stepIn | .stepOver _ | .stepOut _ | .runToBreakpoint | .runToSlot _ _ => true
  | _ => false

/-- What is no line gives no answer. -/
theorem Request.given_of_answer? {V : Type} {r : Request} (h : r.answer? = none) (d : Debugger V) :
    r.given d = [] := by
  simp [given, h]

namespace Debugger

variable {V : Type} [Viewer V] {d : Debugger V}

/-- In a session, a line that does not edit the program is an answer or is refused. -/
theorem submit_of_spares (ha : d.active = true) {text : String} (h : (Request.submit text).Spares d) :
    (d.machine.status = .waiting ∧
        (d.submit text).2 = { d with machine := d.machine.takeAnswer text }) ∨
      d.machine.isWaiting = false ∧
        ∃ e, (d.submit text).2 = { d with machine := d.machine.emit (.error e) } := by
  cases hw : d.machine.isWaiting with
  | true =>
    left
    rw [submit_of_isWaiting hw]
    exact ⟨by simpa [Machine.isWaiting] using hw, rfl⟩
  | false =>
    right
    have hlabel := h.resolve_left (by simp [hw])
    refine ⟨rfl, ?_⟩
    rw [submit, if_neg (by simp [hw]), Machine.parse]
    cases hparse : Statement.parse text with
    | error e => exact ⟨e, rfl⟩
    | ok s =>
      have hs : ¬ s.label.isSome = true := by simp [hlabel s hparse]
      dsimp only
      rw [if_neg hs, if_pos ha]
      exact ⟨_, rfl⟩

/-- Commands are heard in a pause only. -/
theorem serve_of_isCommand (h : d.isPaused = false) {r : Request} (hr : r.isCommand = true) :
    (d.serve r).2 = d := by
  have hpursue (goal : PausePoint) (force : Bool) : d.pursue goal force = d := if_neg (by simp [h])
  cases r with
  | stepIn | stepOver | runToBreakpoint | runToSlot => exact hpursue _ _
  | stepOut force =>
    show d.stepOut force = d
    unfold stepOut
    split
    · rfl
    · exact hpursue _ force
  | begin | breakOff | toggle | proceed | submit => cases hr

/-- From `d₀` on, allowed requests have been made as long as the session was under way and not paused,
and these answers have been given. -/
inductive EnRoute (allowed : Debugger V → Request → Prop) (d₀ : Debugger V) :
    List String → Debugger V → Prop
  | refl : EnRoute allowed d₀ [] d₀
  | serve {answers : List String} {d : Debugger V} (r : Request) : EnRoute allowed d₀ answers d →
      d.active = true → d.isPaused = false → allowed d r →
      EnRoute allowed d₀ (answers ++ r.given d) (d.serve r).2

end Debugger

namespace Pursuit

variable {V : Type} {p : Pursuit} {broken : Bool} {answers : List String} {k : Nat} {d : Debugger V}

/-- The run may be broken off only if that is accounted for, and breakpoints may be toggled only if they
are passed by force. -/
structure Admits (p : Pursuit) (broken : Bool) (d : Debugger V) (r : Request) : Prop where
  spares : r.Spares d
  breakOff : r = .breakOff → broken = true
  toggle (label : Label) : r = .toggle label → p.force = true

theorem OnWay.breakOff (h : p.OnWay answers k d) (hb : broken = true) :
    p.Stage broken answers d.breakOff := by
  unfold Debugger.breakOff
  rcases d.machine.breakOff_eq with he | ⟨e, he⟩ <;> rw [he]
  · exact .onWay h
  · refine .ended ⟨rfl, ?_, fun hb' => ?_⟩
    · simp [Debugger.isPaused, h.pace]
    · cases hb.symm.trans hb'

theorem Over.breakOff (h : p.Over broken answers d) : p.Over broken answers d.breakOff := by
  unfold Debugger.breakOff
  rcases d.machine.breakOff_eq with he | ⟨e, he⟩ <;> rw [he]
  · exact h
  · exact h.setMachine rfl

variable [Viewer V]

theorem OnWay.toggle (h : p.OnWay answers k d) (hf : p.force = true) (label : Label) :
    p.OnWay answers k (d.toggle label).2 := by
  obtain ⟨v, hv⟩ := Debugger.inform_eq
    { d with breakpoints := Debugger.toggled d.breakpoints label } [.breakpoint label]
  rw [Debugger.toggle_snd, hv]
  exact ⟨h.active, h.pace, .inl hf, h.along⟩

theorem OnWay.submit (h : p.OnWay answers k d) {text : String} (hr : (Request.submit text).Spares d) :
    p.OnWay (answers ++ (Request.submit text).given d) k (d.submit text).2 := by
  rcases Debugger.submit_of_spares h.active hr with ⟨hw, he⟩ | ⟨hw, e, he⟩ <;> rw [he]
  · have hgiven : (Request.submit text).given d = [text] := if_pos (by simp [Machine.isWaiting, hw])
    rw [hgiven]
    exact ⟨h.active, h.pace, h.breakpoints, h.along.answer hw text⟩
  · have hgiven : (Request.submit text).given d = [] := if_neg (by simp [hw])
    rw [hgiven, List.append_nil]
    exact h.setMachine rfl

theorem Over.toggle (h : p.Over broken answers d) (label : Label) :
    p.Over broken answers (d.toggle label).2 := by
  obtain ⟨v, hv⟩ := Debugger.inform_eq
    { d with breakpoints := Debugger.toggled d.breakpoints label } [.breakpoint label]
  rw [Debugger.toggle_snd, hv]
  exact ⟨h.stopped, h.unpaused, h.never⟩

theorem Over.submit (h : p.Over broken answers d) (ha : d.active = true) {text : String}
    (hr : (Request.submit text).Spares d) :
    p.Over broken (answers ++ (Request.submit text).given d) (d.submit text).2 := by
  rcases Debugger.submit_of_spares ha hr with ⟨hw, -⟩ | ⟨hw, e, he⟩
  · cases h.stopped.symm.trans hw
  · have hgiven : (Request.submit text).given d = [] := if_neg (by simp [hw])
    rw [he, hgiven, List.append_nil]
    exact h.setMachine h.stopped

/-- A request that is allowed leads from one stage to another. -/
theorem Stage.serve (h : p.Stage broken answers d) (ha : d.active = true) (hp : d.isPaused = false)
    {r : Request} (hr : p.Admits broken d r) :
    p.Stage broken (answers ++ r.given d) (d.serve r).2 := by
  have hstage : (∃ k, p.OnWay answers k d) ∨ p.Over broken answers d := by
    cases h with
    | onWay h => exact .inl ⟨_, h⟩
    | arrived h => cases hp.symm.trans h.isPaused
    | ended h => exact .inr h
  cases r with
  | begin => exact hr.spares.elim
  | submit text =>
    rcases hstage with ⟨k, h⟩ | h
    · exact .onWay (h.submit hr.spares)
    · exact .ended (h.submit ha hr.spares)
  | breakOff =>
    rw [Request.given_of_answer? rfl, List.append_nil]
    rcases hstage with ⟨k, h⟩ | h
    · exact h.breakOff (hr.breakOff rfl)
    · exact .ended h.breakOff
  | toggle label =>
    rw [Request.given_of_answer? rfl, List.append_nil]
    rcases hstage with ⟨k, h⟩ | h
    · exact .onWay (h.toggle (hr.toggle label rfl) label)
    · exact .ended (h.toggle label)
  | proceed steps =>
    rw [Request.given_of_answer? rfl, List.append_nil]
    rcases hstage with ⟨k, h⟩ | h
    · exact h.untilEvent broken steps
    · exact .ended (h.untilEvent ha steps)
  | stepIn | stepOver | stepOut | runToBreakpoint | runToSlot =>
    rw [Request.given_of_answer? rfl, List.append_nil, Debugger.serve_of_isCommand hp rfl]
    exact h

/-- A command that is on its way is carried out stage by stage. -/
theorem stage_of_onWay {d₀ : Debugger V} {allowed : Debugger V → Request → Prop}
    (h₀ : p.OnWay [] 0 d₀) (hallowed : ∀ d r, allowed d r → p.Admits broken d r)
    (h : Debugger.EnRoute allowed d₀ answers d) : p.Stage broken answers d := by
  induction h with
  | refl => exact .onWay h₀
  | serve r _ ha hd hr ih => exact ih.serve ha hd (hallowed _ _ hr)

omit [Viewer V] in
/-- Whatever has happened before, a session on the way to `goal` sets out from where it is. -/
theorem onWay_of_pace {goal : PausePoint} {force : Bool} (ha : d.active = true)
    (hp : d.pace = .toward goal force) : (d.errand goal force).OnWay [] 0 d :=
  ⟨ha, hp, .inr rfl, Machine.along_refl _ _⟩

omit [Viewer V] in
/-- A command that is given in a pause is on its way. -/
theorem onWay_pursue (hp : d.isPaused = true) (goal : PausePoint) (force : Bool) :
    (d.errand goal force).OnWay [] 0 (d.pursue goal force) := by
  rw [Debugger.pursue, if_pos hp]
  exact onWay_of_pace (d := { d with pace := .toward goal force }) (Debugger.isPaused_iff.1 hp).1 rfl

end Pursuit

end LineBasic
