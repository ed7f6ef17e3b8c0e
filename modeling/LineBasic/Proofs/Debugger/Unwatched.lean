import LineBasic.Proofs.Debugger.Turns

/-!
# The viewer plays no part in a session

A debugger tells its viewer what happens and asks nothing back. Without the viewer each of its functions
does the same: `unwatched` commutes with all of them (`serve_unwatched`). So whatever viewers do about
their connections and messages, nothing of it shows in a session (`transcript_withViewer`).
-/
namespace LineBasic.Debugger

variable {V W : Type}

/-- The debugger with another viewer in place of its own. -/
def withViewer (d : Debugger V) (w : W) : Debugger W where
  machine := d.machine
  viewer := w
  breakpoints := d.breakpoints
  pace := d.pace
  active := d.active

/-- The debugger without its viewer. -/
def unwatched (d : Debugger V) : Debugger Silent :=
  d.withViewer ⟨⟩

/-! ## Commands -/

theorem pursue_unwatched (d : Debugger V) (goal : PausePoint) (force : Bool) :
    d.unwatched.pursue goal force = (d.pursue goal force).unwatched := by
  unfold pursue
  rw [apply_ite unwatched]
  rfl

theorem stepOut_unwatched (d : Debugger V) (force : Bool) :
    d.unwatched.stepOut force = (d.stepOut force).unwatched := by
  unfold stepOut
  rw [show d.unwatched.machine.depth = d.machine.depth from rfl]
  cases d.machine.depth with
  | zero => rfl
  | succ n => exact pursue_unwatched d _ force

/-! ## Notices -/

variable [Viewer V]

theorem unwatched_inform (d : Debugger V) (msgs : List Message) :
    (d.inform msgs).unwatched = d.unwatched := by
  obtain ⟨v, hv⟩ := inform_eq d msgs
  rw [hv]
  rfl

theorem unwatched_tell (d : Debugger V) (msgs : List Message) :
    (d.tell msgs).unwatched = d.unwatched := by
  obtain ⟨v, hv⟩ := tell_eq d msgs
  rw [hv]
  rfl

/-- To tell a viewer that shows nothing is to do nothing. -/
theorem inform_silent (d : Debugger Silent) (msgs : List Message) : d.inform msgs = d :=
  unwatched_inform d msgs

theorem tell_silent (d : Debugger Silent) (msgs : List Message) : d.tell msgs = d :=
  unwatched_tell d msgs

theorem toggle_unwatched (d : Debugger V) (label : Label) :
    d.unwatched.toggle label = ((d.toggle label).1, (d.toggle label).2.unwatched) := by
  refine Prod.ext rfl ?_
  rw [toggle_snd, toggle_snd, inform_silent, unwatched_inform]
  rfl

theorem beginSession_unwatched (d : Debugger V) :
    d.unwatched.beginSession = (d.beginSession.1, d.beginSession.2.unwatched) := by
  unfold beginSession
  dsimp only
  rw [tell_silent, show d.unwatched.machine.start = d.machine.start from rfl]
  split
  · rw [unwatched_tell]
    rfl
  · rfl

/-! ## Lines from the user -/

theorem revise_unwatched (d : Debugger V) (s : Statement) :
    d.unwatched.revise s = (d.revise s).unwatched := by
  unfold revise
  dsimp only
  rw [apply_ite unwatched, inform_silent, unwatched_inform]
  rfl

theorem submit_unwatched (d : Debugger V) (text : String) :
    d.unwatched.submit text = ((d.submit text).1, (d.submit text).2.unwatched) := by
  unfold submit
  rw [show d.unwatched.machine = d.machine from rfl]
  split
  · rfl
  · cases d.machine.parse text with
    | mk s machine =>
      cases s with
      | none => rfl
      | some s =>
        dsimp only
        rw [show d.unwatched.active = d.active from rfl]
        split
        · exact congrArg (true, ·) (revise_unwatched { d with machine } s)
        · split <;> rfl

/-! ## Execution -/

theorem pause_unwatched (d : Debugger V) : d.unwatched.pause = d.pause.unwatched := by
  unfold pause
  dsimp only
  rw [inform_silent, unwatched_inform]
  rfl

theorem step_unwatched (d : Debugger V) (goal : PausePoint) (force : Bool) :
    d.unwatched.step goal force = (d.step goal force).unwatched := by
  have hreached (e : Debugger V) : e.unwatched.reached goal = e.reached goal := by
    cases goal <;> rfl
  unfold step
  dsimp only
  rw [apply_ite unwatched, ← pause_unwatched, ← hreached]
  rfl

theorem endSession_unwatched (d : Debugger V) : d.unwatched.endSession = d.endSession.unwatched := by
  unfold endSession
  rw [tell_silent, unwatched_tell]
  rfl

theorem turn_unwatched (d : Debugger V) : d.unwatched.turn = d.turn.map unwatched := by
  by_cases ha : d.active = true
  · have ha' : d.unwatched.active = true := ha
    cases hev : d.machine.events with
    | cons e es => rw [turn_of_cons ha hev, turn_of_cons ha' hev]; rfl
    | nil =>
      cases hs : d.machine.status with
      | stopped =>
        rw [turn_of_stopped ha hev hs, turn_of_stopped ha' hev hs, endSession_unwatched]
        rfl
      | waiting => rw [turn_of_waiting ha hev hs, turn_of_waiting ha' hev hs]; rfl
      | running =>
        cases hp : d.pace with
        | paused => rw [turn_of_paused ha hev hs hp, turn_of_paused ha' hev hs hp]; rfl
        | toward goal force =>
          rw [turn_of_toward ha hev hs hp, turn_of_toward ha' hev hs hp, step_unwatched]
          rfl
  · rw [turn, turn, if_neg ha, if_neg (show ¬ d.unwatched.active = true from ha)]
    show d.machine.turn.map _ = _
    cases d.machine.turn <;> rfl

theorem untilEvent_unwatched (steps : Nat) (d : Debugger V) :
    d.unwatched.untilEvent steps = ((d.untilEvent steps).1, (d.untilEvent steps).2.unwatched) := by
  rw [untilEvent_eq_run, untilEvent_eq_run]
  exact Turn.run_map turn_unwatched steps d

/-! ## Requests -/

/-- A request is served the same without the viewer. -/
theorem serve_unwatched (d : Debugger V) (r : Request) :
    d.unwatched.serve r = ((d.serve r).1, (d.serve r).2.unwatched) := by
  cases r with
  | begin => rw [serve, beginSession_unwatched]; rfl
  | breakOff => rfl
  | stepIn | stepOver | runToBreakpoint | runToSlot => exact congrArg (Reply.done, ·) (pursue_unwatched d _ _)
  | stepOut force => exact congrArg (Reply.done, ·) (stepOut_unwatched d force)
  | toggle label => rw [serve, toggle_unwatched]; rfl
  | proceed steps => rw [serve, untilEvent_unwatched]; rfl
  | submit text => rw [serve, submit_unwatched]; rfl

/-- The replies to requests, each with the debugger after it but for the viewer. -/
def transcript (d : Debugger V) : List Request → List (Reply × Debugger Silent)
  | [] => []
  | r :: rs => ((d.serve r).1, (d.serve r).2.unwatched) :: (d.serve r).2.transcript rs

theorem transcript_unwatched (d : Debugger V) (rs : List Request) :
    d.unwatched.transcript rs = d.transcript rs := by
  induction rs generalizing d with
  | nil => rfl
  | cons r rs ih =>
    rw [transcript, transcript, serve_unwatched]
    exact congrArg _ (ih _)

/-- With any other viewer in place of its own, a debugger gives the same replies to all requests, and
its machine, breakpoints, pace and activity are the same after each of them. -/
theorem transcript_withViewer [Viewer W] (d : Debugger V) (w : W) (rs : List Request) :
    (d.withViewer w).transcript rs = d.transcript rs :=
  calc (d.withViewer w).transcript rs
      = (d.withViewer w).unwatched.transcript rs := ((d.withViewer w).transcript_unwatched rs).symm
    _ = d.transcript rs := d.transcript_unwatched rs

end LineBasic.Debugger
