import LineBasic.Proofs.Debugger.Turns
import LineBasic.Proofs.Debugger.View

/-!
# What a request tells the viewer

A request makes at most one notice. `Effect` says which, and what the session is like when it is made;
the theorems about viewers are case analyses over it and do not look at the debugger again.
-/
namespace LineBasic

/-! ## Pauses -/

namespace Machine

theorem moveTo_events {m : Machine} (hs : m.status = .running) (slot : Nat) (label : Option Label) :
    (m.moveTo slot label).status = .running ∨ (m.moveTo slot label).events ≠ [] := by
  unfold moveTo
  dsimp only
  split
  · exact .inl hs
  · exact .inr (by simp [abort, emit])

/-- Skipping remarks leaves a machine running, or with the error that has ended its run. -/
theorem skipRemarks_events {m : Machine} (hd : m.direct = none) (hs : m.status = .running) :
    m.skipRemarks.status = .running ∨ m.skipRemarks.events ≠ [] := by
  rcases skipRemarks_eq hd with he | ⟨slot, label, -, -, he⟩ <;> rw [he]
  · exact .inl hs
  · exact moveTo_events hs slot label

end Machine

namespace Debugger

/-- In a pause there is nothing to do but to deliver an event. -/
theorem untilEvent_of_paused {V : Type} [Viewer V] {d : Debugger V} (ha : d.active = true)
    (hp : d.pace = .paused) (hs : d.machine.status = .running ∨ d.machine.events ≠ []) (steps : Nat) :
    ∃ es, (d.untilEvent steps).2 = { d with machine := { d.machine with events := es } } := by
  rw [untilEvent_eq_run]
  cases hev : d.machine.events with
  | cons e es =>
    rw [Turn.run_of_event (turn_of_cons ha hev)]
    exact ⟨es, rfl⟩
  | nil =>
    rw [Turn.run_of_event (turn_of_paused ha hev (hs.resolve_right (absurd hev)) hp)]
    exact ⟨[], by rw [← hev]⟩

/-- The debugger at a pause that it makes now. -/
def halted {V : Type} (d : Debugger V) : Debugger V :=
  { d with pace := .paused, machine := d.machine.skipRemarks }

theorem pause_eq {V : Type} [Viewer V] (d : Debugger V) :
    d.pause = d.halted.inform [.cursor d.halted.machine.cursor] :=
  rfl

variable {d : Debugger (Unsteady Recorder)}

/-! ## Notices -/

/-- What comes of a request, as far as the viewer is concerned. -/
inductive Effect (d : Debugger (Unsteady Recorder)) : Request → Debugger (Unsteady Recorder) → Prop
  /-- There is no notice. If a session is under way, it was so before, with the same program, and in a
  pause at the same place. -/
  | quiet {r : Request} {d' : Debugger (Unsteady Recorder)} (viewer : d'.viewer = d.viewer)
      (breakpoints : d'.breakpoints = d.breakpoints)
      (kept : d'.Live → d.Live ∧ d'.machine.program = d.machine.program ∧
        (d'.pace = .paused → d.pace = .paused ∧ d'.machine.cursor = d.machine.cursor)) :
      Effect d r d'
  | begun {e : Debugger (Unsteady Recorder)} (orderly : e.Orderly) (viewer : e.viewer = d.viewer)
      (program : e.machine.program = d.machine.program) : Effect d .begin (e.tell e.snapshot)
  | toggled (label : Label) :
      Effect d (.toggle label)
        ({ d with breakpoints := Debugger.toggled d.breakpoints label }.inform [.breakpoint label])
  | edited {text : String} {s : Statement} {e : Debugger (Unsteady Recorder)} (orderly : e.Orderly)
      (machine : e = { d with machine := (d.machine.revise s).2.skipRemarks })
      (program : e.machine.program = (d.machine.program.apply s).2) (live : e.Live → d.Live) :
      Effect d (.submit text) (e.inform
        ((changeMessage? e.machine.program (d.machine.program.apply s).1).toList ++
          [.cursor e.machine.cursor]))
  | paused {steps : Nat} {e : Debugger (Unsteady Recorder)} (es : List Event) (orderly : e.Orderly)
      (live : d.Live) (viewer : e.viewer = d.viewer) (breakpoints : e.breakpoints = d.breakpoints)
      (program : e.machine.program = d.machine.program) :
      Effect d (.proceed steps)
        { e.inform [.cursor e.machine.cursor] with machine := { e.machine with events := es } }
  | ended {steps : Nat} {d' e : Debugger (Unsteady Recorder)} (active : d'.active = false)
      (viewer : e.viewer = d.viewer) (told : d'.viewer = (e.tell [.clear, .print]).viewer) :
      Effect d (.proceed steps) d'

theorem effect_refl (r : Request) : Effect d r d :=
  .quiet rfl rfl (fun hlive => ⟨hlive, rfl, fun hp => ⟨hp, rfl⟩⟩)

/-- A session that is not under way afterwards is of no interest to the viewer. -/
theorem effect_of_not_live {r : Request} {d' : Debugger (Unsteady Recorder)}
    (viewer : d'.viewer = d.viewer) (breakpoints : d'.breakpoints = d.breakpoints)
    (h : ¬ d'.Live) : Effect d r d' :=
  .quiet viewer breakpoints (fun hlive => absurd hlive h)

theorem effect_setMachine {r : Request} {m : Machine} (h : Live { d with machine := m } → d.Live ∧
    m.program = d.machine.program ∧ (d.pace = .paused → m.cursor = d.machine.cursor)) :
    Effect d r { d with machine := m } :=
  .quiet rfl rfl (fun hlive => ⟨(h hlive).1, (h hlive).2.1, fun hp => ⟨hp, (h hlive).2.2 hp⟩⟩)

/-! ## Requests -/

theorem pursue_effect (r : Request) (goal : PausePoint) (force : Bool) :
    Effect d r (d.pursue goal force) := by
  unfold pursue
  split
  · next hpaused =>
    have hpace := (isPaused_iff.1 hpaused).2.1
    exact .quiet rfl rfl (fun hlive => ⟨⟨hlive.1, .inl hpace⟩, rfl, fun hp => by cases hp⟩)
  · exact effect_refl r

theorem breakOff_effect (r : Request) : Effect d r d.breakOff := by
  refine effect_setMachine (fun hlive => ?_)
  rcases d.machine.breakOff_eq with he | ⟨e, he⟩ <;> rw [he] at hlive ⊢
  · exact ⟨hlive, rfl, fun _ => rfl⟩
  · exact ⟨⟨hlive.1, hlive.2.imp_right (absurd rfl)⟩, rfl, fun _ => rfl⟩

theorem beginSession_effect (ho : d.Orderly) : Effect d .begin d.beginSession.2 := by
  unfold beginSession
  dsimp only
  split
  · exact .begun ho.begun rfl (Machine.skipRemarks_program rfl)
  · next hr =>
    -- There is no line to start at, so the cursor was at slot 0 already.
    have hempty : d.machine.program.isEmpty = true := by
      simpa [Machine.isRunning, Machine.start] using hr
    refine effect_setMachine (fun hlive => ?_)
    have hp : d.pace = .paused := by
      refine hlive.2.resolve_right (absurd ?_)
      simp [Machine.start, hempty]
    refine ⟨⟨hlive.1, .inl hp⟩, rfl, fun _ => ?_⟩
    have hle := (ho.settled hlive.1 hp).cursor
    have hsize : d.machine.program.size = 0 := by
      simpa [Program.isEmpty, Program.size] using hempty
    rw [hsize] at hle
    exact (Nat.le_zero.1 hle).symm

theorem revise_effect (ho : d.Orderly) (text : String) (s : Statement) :
    Effect d (.submit text) (d.revise s) := by
  unfold revise
  dsimp only
  split
  · next hc =>
    have hd : (d.machine.revise s).2.direct = none := ho.direct hc.2
    have hprogram : (d.machine.revise s).2.skipRemarks.program = (d.machine.program.apply s).2 :=
      Machine.skipRemarks_program hd
    have heffect : Effect d (.submit text) _ :=
      .edited ((ho.revised s).skipRemarks hc.2) rfl hprogram (Live.of_skipRemarks (d := d) hd)
    rwa [hprogram] at heffect
  · next hc =>
    refine effect_setMachine (fun hlive => ?_)
    obtain ⟨hprogram, hcursor⟩ :=
      Machine.revise_of_unchanged (by_contra fun hne => hc ⟨hne, hlive.1⟩)
    exact ⟨hlive, hprogram, fun _ => hcursor⟩

theorem submit_effect (ho : d.Orderly) (text : String) : Effect d (.submit text) (d.submit text).2 := by
  have hsub := d.submit_submitted text
  generalize (d.submit text).2 = d' at hsub ⊢
  cases hsub with
  | answered hw =>
    refine effect_setMachine (fun hlive => ?_)
    refine ⟨⟨hlive.1, .inr (by simp [hw])⟩, Machine.takeAnswer_program _ _, fun hp => ?_⟩
    exact absurd hw (ho.settled hlive.1 hp).status
  | refused e => exact effect_setMachine (fun hlive => ⟨hlive, rfl, fun _ => rfl⟩)
  | revised s => exact revise_effect ho text s
  | direct s ha => exact effect_setMachine (fun hlive => absurd hlive.1 ha)

/-! ## Runs -/

/-- A run with a step in front has the effect that it has without. -/
theorem Effect.of_step {d' : Debugger (Unsteady Recorder)} {k n : Nat} (ha : d.active = true)
    (hr : d.machine.status = .running) (hp : d.pace ≠ .paused)
    (h : Effect { d with machine := d.machine.step } (.proceed k) d') : Effect d (.proceed n) d' := by
  have hlive : d.Live := ⟨ha, .inr (by simp [hr])⟩
  have hprogram : Live { d with machine := d.machine.step } → d.machine.step.program = d.machine.program := by
    intro hl
    cases Machine.step_lands hr with
    | stopped hs =>
      -- `CLEAR` may have taken the program away, but then the session is over
      exact absurd hs (hl.2.resolve_left hp)
    | waiting _ _ hprogram => exact hprogram
    | running _ _ hprogram => exact hprogram
  cases h with
  | quiet hv hb hk =>
    refine .quiet hv hb (fun hl => ?_)
    obtain ⟨hl', hprog, hpaused⟩ := hk hl
    exact ⟨hlive, hprog.trans (hprogram hl'), fun hp' => absurd (hpaused hp').1 hp⟩
  | paused es ho hl hv hb hprog => exact .paused es ho hlive hv hb (hprog.trans (hprogram hl))
  | ended hna hv ht => exact .ended hna hv ht

/-- A run that comes to a pause tells of it, and of nothing else. -/
theorem pause_effect (ho : d.Orderly) (ha : d.active = true) (hr : d.machine.status = .running)
    (hs : d.machine.Settled) (steps : Nat) :
    Effect d (.proceed steps) (d.pause.untilEvent steps).2 := by
  have hd := ho.direct ha
  obtain ⟨v, hv⟩ := inform_eq d.halted [.cursor d.halted.machine.cursor]
  have hactive : d.pause.active = true := by rw [pause_eq, hv]; exact ha
  have hpaused : d.pause.pace = .paused := by rw [pause_eq, hv]; rfl
  have hrest : d.pause.machine.status = .running ∨ d.pause.machine.events ≠ [] := by
    rw [pause_machine]
    exact Machine.skipRemarks_events hd hr
  obtain ⟨es, hes⟩ := untilEvent_of_paused hactive hpaused hrest steps
  rw [hes, pause_machine, pause_eq]
  exact .paused es (ho.paused ha hs) ⟨ha, .inr (by simp [hr])⟩ rfl rfl (Machine.skipRemarks_program hd)

theorem untilEvent_effect (ho : d.Orderly) (steps : Nat) :
    Effect d (.proceed steps) (d.untilEvent steps).2 := by
  fun_induction Debugger.untilEvent steps d with
  | case1 steps d _ e n hf =>
    obtain ⟨es, -, rfl⟩ := Machine.events_of_fetch?_some hf
    exact effect_setMachine (fun hlive => ⟨hlive, rfl, fun _ => rfl⟩)
  | case2 steps d =>
    exact .ended (e := { d with active := false, pace := .paused }) d.endSession_active rfl rfl
  | case3 | case4 | case5 => exact effect_refl _
  | case6 d ha _ _ goal force hp hs steps ih =>
    have hne : d.pace ≠ .paused := by simp [hp]
    have hord := ho.stepped ha hs hne
    replace ih := ih (ho.step ha hs hne goal force)
    refine Effect.of_step (k := steps) ha hs hne ?_
    unfold step at ih ⊢
    dsimp only at ih ⊢
    split at ih
    · next hc =>
      rw [if_pos hc]
      rw [Bool.and_eq_true] at hc
      have hrun := Machine.status_of_isRunning hc.1
      exact pause_effect hord ha hrun ((Machine.step_lands hs).settled hrun) steps
    · next hc =>
      rw [if_neg hc]
      exact ih
  | case7 steps d hna =>
    exact effect_of_not_live rfl rfl (fun hlive => hna hlive.1)

theorem serve_effect (ho : d.Orderly) (r : Request) : Effect d r (d.serve r).2 := by
  cases r with
  | begin => exact beginSession_effect ho
  | breakOff => exact breakOff_effect _
  | stepIn | stepOver | runToBreakpoint | runToSlot => exact pursue_effect _ _ _
  | stepOut force =>
    unfold serve stepOut
    dsimp only
    split
    · exact effect_refl _
    · exact pursue_effect _ _ _
  | toggle label => exact .toggled label
  | proceed steps => exact untilEvent_effect ho steps
  | submit text => exact submit_effect ho text

end Debugger

end LineBasic
