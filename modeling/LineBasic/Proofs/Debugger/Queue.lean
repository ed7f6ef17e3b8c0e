import LineBasic.Proofs.Debugger.Pause
import LineBasic.Proofs.Debugger.Turns

/-!
# What is queued

A machine queues what its program has to say and nothing else, and a debugger adds no more than errors
(`Machine.Reachable.holdsOutput`, `Debugger.Reachable.holdsOutput`). That a session rests is therefore never an
old piece of news: when the event comes that says so, the queue is empty and the session stands as it says
(`InSession.comes`).
-/
namespace LineBasic

/-! ## Machines -/

namespace Machine

variable {α : Type}

/-- Nothing but output is queued. -/
def HoldsOutput (m : Machine) : Prop :=
  ∀ e ∈ m.events, e.isOutput = true

theorem holdsOutput_fresh (generator : Random.Generator) : HoldsOutput { generator } :=
  List.forall_mem_nil _

/-- The action queues nothing but output. -/
def Speaks (x : ExecM α) : Prop :=
  ∀ m, m.HoldsOutput → (final (x m)).HoldsOutput

theorem speaks_closed : Closed Speaks where
  pure _ _ h := h
  throw _ _ h := h
  bind hx hf := final_bind (R := fun m n => m.HoldsOutput → n.HoldsOutput) (fun h h' hm => h' (h hm)) hx hf
  get {_ f} hf _ := by
    intro m
    exact hf m m
  value e := by
    intro m h
    unfold value
    cases Expression.evaluate m.memory e m.generator <;> exact h
  setMemory _ _ h := h
  setCalls _ _ h := h
  setInputs _ _ h := h
  setFilled _ _ h := h
  queue f _ hf := by
    intro m h
    refine List.forall_mem_append.2 ⟨h, fun e he => ?_⟩
    obtain ⟨text, rfl | rfl⟩ := hf m e he <;> rfl

theorem speaks_exec (s : Statement) : Speaks (exec s) :=
  speaks_closed.exec id speaks_closed.bind (fun _ h => h) s

namespace HoldsOutput

variable {m : Machine}

theorem emit (h : m.HoldsOutput) (e : Error) : (m.emit (.error e)).HoldsOutput :=
  List.forall_mem_append.2 ⟨h, List.forall_mem_singleton.2 rfl⟩

theorem abort (h : m.HoldsOutput) (e : Error) : (m.abort e).HoldsOutput :=
  h.emit e

theorem breakOff (h : m.HoldsOutput) : m.breakOff.HoldsOutput := by
  rcases m.breakOff_eq with he | ⟨e, he⟩ <;> rw [he]
  · exact h
  · exact h.abort e

theorem moveTo (h : m.HoldsOutput) (slot : Nat) (label : Option Label) :
    (m.moveTo slot label).HoldsOutput := by
  unfold Machine.moveTo
  dsimp only
  split
  · exact h
  · exact h.abort _

theorem follow (h : m.HoldsOutput) (label : Option Label) (q : Sequel) :
    (m.follow label q).HoldsOutput := by
  cases q with
  | next =>
    unfold Machine.follow
    by_cases hd : m.direct.isSome = true
    · rw [if_pos hd]
      exact h
    · rw [if_neg hd]
      exact h.moveTo _ label
  | jump slot => exact moveTo (m := { m with direct := none }) h slot label
  | halt | restart | wait => exact h

theorem step (h : m.HoldsOutput) : m.step.HoldsOutput := by
  cases hr : m.isRunning with
  | false => rwa [step_of_not_isRunning hr]
  | true =>
    cases hs : m.upcoming? with
    | none =>
      rw [Machine.step, if_pos hr, hs]
      exact h.abort _
    | some s =>
      have hexec := speaks_exec s m h
      rw [step_eq_of_exec hr hs]
      cases hx : exec s m with
      | ok q n =>
        rw [hx] at hexec
        exact hexec.follow s.label q
      | error e n =>
        rw [hx] at hexec
        exact hexec.abort _

theorem advances {n : Machine} (h : m.HoldsOutput) (ha : Advances m n) : n.HoldsOutput := by
  obtain ⟨k, rfl⟩ := ha
  induction k with
  | zero => exact h
  | succ k ih => exact ih.step

theorem takeAnswer (h : m.HoldsOutput) (text : String) : (m.takeAnswer text).HoldsOutput := by
  have hvalues := speaks_closed.answerValues text m h
  unfold Machine.takeAnswer
  cases hx : answerValues text m with
  | ok vs n =>
    rw [hx] at hvalues
    exact hvalues
  | error e n =>
    rw [hx] at hvalues
    exact hvalues.abort _

theorem submitStatement (h : m.HoldsOutput) (s : Statement) : (m.submitStatement s).2.HoldsOutput := by
  unfold Machine.submitStatement
  split
  · exact h
  · split
    · exact h
    · split
      · exact h.emit _
      · exact h

theorem submit (h : m.HoldsOutput) (text : String) : (m.submit text).2.HoldsOutput := by
  unfold Machine.submit
  split
  · exact h.takeAnswer text
  · unfold Machine.parse
    cases Statement.parse text with
    | error e => exact h.emit e
    | ok s => exact h.submitStatement s

theorem replaceProgram (h : m.HoldsOutput) {source : String} {n : Machine}
    (hn : m.replaceProgram source = .ok n) : n.HoldsOutput := by
  rw [Machine.replaceProgram] at hn
  cases hp : Program.ofSource source with
  | error e =>
    rw [hp] at hn
    cases hn
  | ok program =>
    rw [hp] at hn
    cases hn
    exact h

theorem fetch (h : m.HoldsOutput) {e : Event} {es : List Event} (hev : m.events = e :: es) :
    e.isOutput = true ∧ HoldsOutput { m with events := es } := by
  rw [HoldsOutput, hev] at h
  exact List.forall_mem_cons.1 h

/-- A machine that has delivered some of its events has the others still. -/
theorem delivers {n : Machine} {e : Event} (h : m.HoldsOutput) (hd : Delivers m e n) : n.HoldsOutput := by
  obtain ⟨taken, ha, -⟩ := hd
  exact (List.forall_mem_append.1 (h.advances ha)).2

end HoldsOutput

/-- A reachable machine has nothing but output in its queue. -/
theorem Reachable.holdsOutput {m : Machine} (h : Reachable m) : m.HoldsOutput := by
  induction h with
  | fresh generator => exact holdsOutput_fresh generator
  | submit text _ ih => exact ih.submit text
  | load source _ hl ih => exact ih.replaceProgram hl
  | start _ ih => exact ih
  | step _ ih => exact ih.step
  | untilEvent steps _ ih => exact ih.delivers (untilEvent_delivers steps _)
  | breakOff _ ih => exact ih.breakOff

end Machine

/-! ## Debuggers -/

namespace Debugger

section

variable {V : Type} [Viewer V] {d : Debugger V}

theorem revise_holdsOutput (h : d.machine.HoldsOutput) (s : Statement) : (d.revise s).machine.HoldsOutput := by
  have hrevised : (d.machine.revise s).2.HoldsOutput := h
  rcases d.revise_machine s with he | he <;> rw [he]
  · exact hrevised
  · exact hrevised.advances (Machine.Advances.refl _).skipRemarks

theorem submit_holdsOutput (h : d.machine.HoldsOutput) (text : String) :
    (d.submit text).2.machine.HoldsOutput := by
  have hsub := d.submit_submitted text
  generalize (d.submit text).2 = d' at hsub ⊢
  cases hsub with
  | answered => exact h.takeAnswer text
  | refused e => exact h.emit e
  | revised s => exact revise_holdsOutput h s
  | direct s => exact h.submitStatement s

theorem beginSession_holdsOutput (h : d.machine.HoldsOutput) : d.beginSession.2.machine.HoldsOutput := by
  have hstart : d.machine.start.HoldsOutput := h
  unfold beginSession
  dsimp only
  split
  · rw [tell_machine]
    exact hstart.advances (Machine.Advances.refl _).skipRemarks
  · exact hstart

theorem serve_holdsOutput (h : d.machine.HoldsOutput) (r : Request) : (d.serve r).2.machine.HoldsOutput := by
  cases r with
  | begin => exact beginSession_holdsOutput h
  | breakOff => exact h.breakOff
  | stepIn | stepOver | runToBreakpoint | runToSlot =>
    show (d.pursue _ _).machine.HoldsOutput
    rwa [pursue_machine]
  | stepOut force =>
    show (d.stepOut force).machine.HoldsOutput
    rwa [stepOut_machine]
  | toggle label =>
    show (d.toggle label).2.machine.HoldsOutput
    rwa [toggle_machine]
  | proceed steps => exact h.delivers (untilEvent_delivers steps d)
  | submit text => exact submit_holdsOutput h text

/-- Whatever a debugger was asked, there is nothing but output in its queue. -/
theorem Reachable.holdsOutput (h : Reachable d) : d.machine.HoldsOutput := by
  induction h with
  | fresh v hm => exact hm.holdsOutput
  | serve r _ ih => exact serve_holdsOutput ih r
  | watch v _ ih => exact ih

end

/-! ## Sessions -/

section

variable {V : Type} (d : Debugger V)

theorem pursue_active (goal : PausePoint) (force : Bool) : (d.pursue goal force).active = d.active := by
  unfold pursue
  split <;> rfl

theorem stepOut_active (force : Bool) : (d.stepOut force).active = d.active := by
  unfold stepOut
  split
  · rfl
  · exact d.pursue_active _ force

variable [Viewer V]

theorem inform_active (msgs : List Message) : (d.inform msgs).active = d.active := by
  obtain ⟨v, hv⟩ := inform_eq d msgs
  rw [hv]

theorem tell_active (msgs : List Message) : (d.tell msgs).active = d.active := by
  obtain ⟨v, hv⟩ := tell_eq d msgs
  rw [hv]

theorem revise_active (s : Statement) : (d.revise s).active = d.active := by
  unfold revise
  dsimp only
  split
  · exact inform_active _ _
  · rfl

theorem submit_active (text : String) : (d.submit text).2.active = d.active := by
  have hsub := d.submit_submitted text
  generalize (d.submit text).2 = d' at hsub ⊢
  cases hsub with
  | answered | refused | direct => rfl
  | revised s => exact d.revise_active s

theorem step_active (goal : PausePoint) (force : Bool) : (d.step goal force).active = d.active := by
  unfold step
  dsimp only
  split
  · exact inform_active _ _
  · rfl

end

variable {V : Type}

/-- A session is under way, and nothing but output is queued. -/
structure InSession (d : Debugger V) : Prop where
  active : d.active = true
  output : d.machine.HoldsOutput

/-- What an event says about the session that it comes from. -/
inductive Comes : Event → Debugger V → Prop
  | ended {d : Debugger V} (idle : d.active = false) : Comes .stopped d
  | paused {d : Debugger V} (session : InSession d) (events : d.machine.events = [])
      (running : d.machine.status = .running) : Comes .stopped d
  | asks {d : Debugger V} (session : InSession d) (events : d.machine.events = [])
      (waiting : d.machine.status = .waiting) : Comes (.input Machine.inputPrompt) d
  | speaks {d : Debugger V} {e : Event} (session : InSession d) (output : e.isOutput = true) : Comes e d
  | goesOn {d : Debugger V} (session : InSession d) : Comes .running d

namespace InSession

variable {d : Debugger V}

theorem withMachine (h : InSession d) {m : Machine} (hm : m.HoldsOutput) : InSession { d with machine := m } :=
  ⟨h.active, hm⟩

theorem breakOff (h : InSession d) : InSession d.breakOff :=
  h.withMachine h.output.breakOff

theorem pursue (h : InSession d) (goal : PausePoint) (force : Bool) : InSession (d.pursue goal force) :=
  ⟨(d.pursue_active goal force).trans h.active, (d.pursue_machine goal force).symm ▸ h.output⟩

theorem stepOut (h : InSession d) (force : Bool) : InSession (d.stepOut force) :=
  ⟨(d.stepOut_active force).trans h.active, (d.stepOut_machine force).symm ▸ h.output⟩

variable [Viewer V]

theorem toggle (h : InSession d) (label : Label) : InSession (d.toggle label).2 :=
  ⟨(inform_active _ _).trans h.active, (d.toggle_machine label).symm ▸ h.output⟩

theorem submit (h : InSession d) (text : String) : InSession (d.submit text).2 :=
  ⟨(d.submit_active text).trans h.active, submit_holdsOutput h.output text⟩

theorem step (h : InSession d) (goal : PausePoint) (force : Bool) : InSession (d.step goal force) :=
  ⟨(d.step_active goal force).trans h.active, h.output.advances (d.step_advances goal force)⟩

theorem begin (hm : d.machine.HoldsOutput) (h : d.beginSession.1 = true) : InSession d.beginSession.2 := by
  refine ⟨?_, beginSession_holdsOutput hm⟩
  unfold beginSession at h ⊢
  dsimp only at h ⊢
  split at h
  · next hr => rw [if_pos hr, tell_active]
  · cases h

end InSession

variable [Viewer V]

/-- An event that says how a session stands is true when it is delivered. -/
theorem InSession.comes {d : Debugger V} (h : InSession d) (steps : Nat) :
    Comes (d.untilEvent steps).1 (d.untilEvent steps).2 := by
  fun_induction untilEvent steps d with
  | case1 steps d ha e n hf =>
    obtain ⟨es, hev, rfl⟩ := Machine.events_of_fetch?_some hf
    obtain ⟨he, hes⟩ := h.output.fetch hev
    exact .speaks (h.withMachine hes) he
  | case2 steps d ha _ hf hs =>
    -- The session ends, and the machine that is let run has nothing more to say.
    have hm : d.endSession.machine.untilEvent steps = (.stopped, d.endSession.machine) := by
      rw [endSession_machine, Machine.untilEvent_eq_run]
      exact Turn.run_of_event (Machine.turn_of_stopped (Machine.events_of_fetch?_none hf) hs) steps
    rw [runFreely, hm]
    exact .ended d.endSession_active
  | case3 steps d ha _ hf hs => exact .asks h (Machine.events_of_fetch?_none hf) hs
  | case4 steps d ha _ hf hp hs => exact .paused h (Machine.events_of_fetch?_none hf) hs
  | case5 d ha _ hf goal force hp hs => exact .goesOn h
  | case6 d ha _ hf goal force hp hs steps ih => exact ih (h.step goal force)
  | case7 steps d ha => exact absurd h.active ha

end Debugger

end LineBasic
