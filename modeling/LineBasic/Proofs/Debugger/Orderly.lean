import LineBasic.Proofs.Debugger.Request
import LineBasic.Proofs.Debugger.Skip
import LineBasic.Proofs.Machine.Reachable

/-!
# Debuggers in order

What holds of a debugger whatever is asked of it (`Reachable.orderly`): the labels ascend, no breakpoint
is set twice, a session has no direct statement, and while it is paused no `INPUT` waits and the
cursor is on a line or right behind the last one.
-/
namespace LineBasic

/-! ## Settled machines -/

namespace Machine

/-- No `INPUT` waits, and the cursor is on a line or right behind the last. -/
structure Settled (m : Machine) : Prop where
  status : m.status ≠ .waiting
  cursor : m.cursor ≤ m.program.size

theorem moveTo_program (m : Machine) (slot : Nat) (label : Option Label) :
    (m.moveTo slot label).program = m.program := by
  unfold moveTo
  dsimp only
  split <;> rfl

theorem moveTo_direct {m : Machine} (h : m.direct = none) (slot : Nat) (label : Option Label) :
    (m.moveTo slot label).direct = none := by
  unfold moveTo
  dsimp only
  split
  · exact h
  · rfl

theorem moveTo_settled {m : Machine} (hs : m.status = .running) {slot : Nat}
    (h : slot ≤ m.program.size) (label : Option Label) : (m.moveTo slot label).Settled := by
  unfold moveTo
  dsimp only
  split
  · exact ⟨by simp [hs], h⟩
  · exact ⟨by simp [abort], h⟩

theorem skipRemarks_program {m : Machine} (h : m.direct = none) :
    m.skipRemarks.program = m.program := by
  rcases skipRemarks_eq h with he | ⟨slot, label, -, -, he⟩ <;> rw [he]
  exact moveTo_program m slot label

theorem skipRemarks_direct {m : Machine} (h : m.direct = none) : m.skipRemarks.direct = none := by
  rcases skipRemarks_eq h with he | ⟨slot, label, -, -, he⟩ <;> rw [he]
  · exact h
  · exact moveTo_direct h slot label

theorem Settled.skipRemarks {m : Machine} (h : m.Settled) (hd : m.direct = none) :
    m.skipRemarks.Settled := by
  rcases skipRemarks_eq hd with he | ⟨slot, label, hr, hle, he⟩ <;> rw [he]
  · exact h
  · exact moveTo_settled hr hle label

theorem start_settled (m : Machine) : m.start.Settled := by
  refine ⟨?_, Nat.zero_le _⟩
  show (if m.program.isEmpty then Status.stopped else .running) ≠ .waiting
  split <;> simp

theorem Settled.revise {m : Machine} (h : m.Settled) (s : Statement) : (m.revise s).2.Settled where
  status := h.status
  cursor := (Program.apply_alters m.program s).shift_le h.cursor

/-- A line that changes nothing leaves the machine at its place. -/
theorem revise_of_unchanged {m : Machine} {s : Statement} (h : (m.revise s).1 = .unchanged) :
    (m.revise s).2.program = m.program ∧ (m.revise s).2.cursor = m.cursor := by
  have hsame : (m.program.apply s).1 = .unchanged := h
  have halters := Program.apply_alters m.program s
  rw [hsame] at halters
  refine ⟨halters.eq_of_unchanged, ?_⟩
  show (m.program.apply s).1.shift m.cursor = _
  rw [hsame]
  rfl

theorem Lands.settled {m n : Machine} (h : Lands m n) (hr : n.status = .running) : n.Settled := by
  refine ⟨by simp [hr], ?_⟩
  cases h with
  | stopped hs => cases hr.symm.trans hs
  | waiting hs => cases hr.symm.trans hs
  | running _ _ _ hlt => exact Nat.le_of_lt hlt

theorem takeAnswer_direct {m : Machine} (h : m.direct = none) (text : String) :
    (m.takeAnswer text).direct = none := by
  rcases takeAnswer_eq m text with ⟨n, vs, quiet, ht⟩ | ⟨n, e, -, -, ht⟩ <;> rw [ht]
  · exact quiet.direct.trans h
  · rfl

end Machine

/-! ## The invariant -/

namespace Debugger

variable {V : Type}

structure Orderly (d : Debugger V) : Prop where
  ascending : d.machine.program.Ascending
  nodup : d.breakpoints.Nodup
  direct : d.active = true → d.machine.direct = none
  settled : d.active = true → d.pace = .paused → d.machine.Settled

/-- The viewer plays no part in it. -/
theorem Orderly.withViewer {d : Debugger V} (h : Orderly d) (v : V) : Orderly { d with viewer := v } :=
  ⟨h.ascending, h.nodup, h.direct, h.settled⟩

theorem Orderly.pursue {d : Debugger V} (h : Orderly d) (goal : PausePoint) (force : Bool) :
    Orderly (d.pursue goal force) := by
  unfold Debugger.pursue
  split
  · exact ⟨h.ascending, h.nodup, h.direct, fun _ hp => by cases hp⟩
  · exact h

theorem Orderly.stepOut {d : Debugger V} (h : Orderly d) (force : Bool) :
    Orderly (d.stepOut force) := by
  unfold Debugger.stepOut
  split
  · exact h
  · exact h.pursue _ force

theorem Orderly.breakOff {d : Debugger V} (h : Orderly d) : Orderly d.breakOff := by
  unfold Debugger.breakOff
  rcases d.machine.breakOff_eq with he | ⟨e, he⟩ <;> rw [he]
  · exact h
  · exact ⟨h.ascending, h.nodup, fun _ => rfl,
      fun ha hp => ⟨by simp [Machine.abort], (h.settled ha hp).cursor⟩⟩

/-- The events play no part in it either. -/
theorem Orderly.withEvents {d : Debugger V} (h : Orderly d) (es : List Event) :
    Orderly { d with machine := { d.machine with events := es } } :=
  ⟨h.ascending, h.nodup, h.direct, fun ha hp => ⟨(h.settled ha hp).status, (h.settled ha hp).cursor⟩⟩

theorem Orderly.runFreely {d : Debugger V} (h : Orderly d) (ha : d.active = false) (steps : Nat) :
    Orderly (d.runFreely steps).2 := by
  have hna : ¬ d.active = true := by simp [ha]
  exact ⟨Machine.untilEvent_ascending steps h.ascending, h.nodup, fun h' => absurd h' hna,
    fun h' => absurd h' hna⟩

theorem Orderly.skipRemarks {d : Debugger V} (h : Orderly d) (ha : d.active = true) :
    Orderly { d with machine := d.machine.skipRemarks } := by
  have hd := h.direct ha
  refine ⟨?_, h.nodup, fun _ => Machine.skipRemarks_direct hd, fun _ hp => ?_⟩
  · show d.machine.skipRemarks.program.Ascending
    rw [Machine.skipRemarks_program hd]
    exact h.ascending
  · exact (h.settled ha hp).skipRemarks hd

theorem Orderly.begun {d : Debugger V} (h : Orderly d) :
    Orderly { d with active := true, pace := .paused, machine := d.machine.start.skipRemarks } := by
  have hstart : Orderly { d with active := true, pace := .paused, machine := d.machine.start } :=
    ⟨h.ascending, h.nodup, fun _ => rfl, fun _ _ => Machine.start_settled _⟩
  exact hstart.skipRemarks rfl

theorem Orderly.start {d : Debugger V} (h : Orderly d) : Orderly { d with machine := d.machine.start } :=
  ⟨h.ascending, h.nodup, fun _ => rfl, fun _ _ => Machine.start_settled _⟩

theorem Orderly.revised {d : Debugger V} (h : Orderly d) (s : Statement) :
    Orderly { d with machine := (d.machine.revise s).2 } :=
  ⟨Machine.revise_ascending s h.ascending, h.nodup, h.direct, fun ha hp => (h.settled ha hp).revise s⟩

theorem Orderly.paused {d : Debugger V} (h : Orderly d) (ha : d.active = true)
    (hs : d.machine.Settled) :
    Orderly { d with pace := .paused, machine := d.machine.skipRemarks } := by
  have hpaused : Orderly { d with pace := .paused } := ⟨h.ascending, h.nodup, h.direct, fun _ _ => hs⟩
  exact hpaused.skipRemarks ha

theorem Orderly.stepped {d : Debugger V} (h : Orderly d) (ha : d.active = true)
    (hr : d.machine.status = .running) (hp : d.pace ≠ .paused) :
    Orderly { d with machine := d.machine.step } := by
  refine ⟨Machine.step_ascending h.ascending, h.nodup, fun _ => ?_, fun _ hp' => absurd hp' hp⟩
  cases Machine.step_lands hr with
  | stopped _ hd => exact hd
  | waiting _ hd => exact hd.trans (h.direct ha)
  | running _ hd => exact hd

/-! ## Breakpoints -/

/-- The breakpoints after one of them was toggled. -/
def toggled (bs : List Label) (label : Label) : List Label :=
  if !bs.contains label then bs.takeWhile (· < label) ++ label :: bs.dropWhile (· < label)
  else bs.filter (· ≠ label)

theorem toggled_perm {bs : List Label} {label : Label} (h : label ∉ bs) :
    (toggled bs label).Perm (label :: bs) := by
  rw [toggled, if_pos (by simpa using h)]
  refine List.perm_middle.trans ?_
  rw [List.takeWhile_append_dropWhile]

theorem toggled_of_mem {bs : List Label} {label : Label} (h : label ∈ bs) :
    toggled bs label = bs.filter (· ≠ label) := by
  rw [toggled, if_neg (by simpa using h)]

theorem nodup_toggled {bs : List Label} (h : bs.Nodup) (label : Label) : (toggled bs label).Nodup := by
  by_cases hm : label ∈ bs
  · rw [toggled_of_mem hm]
    exact h.filter _
  · rw [(toggled_perm hm).nodup_iff, List.nodup_cons]
    exact ⟨hm, h⟩

theorem Orderly.toggled {d : Debugger V} (h : Orderly d) (label : Label) :
    Orderly { d with breakpoints := toggled d.breakpoints label } :=
  ⟨h.ascending, nodup_toggled h.nodup label, h.direct, h.settled⟩

/-! ## Sessions -/

variable [Viewer V]

theorem inform_eq (d : Debugger V) (msgs : List Message) :
    ∃ v, d.inform msgs = { d with viewer := v } := by
  unfold inform
  split <;> exact ⟨_, rfl⟩

theorem tell_eq (d : Debugger V) (msgs : List Message) :
    ∃ v, d.tell msgs = { d with viewer := v } := by
  unfold tell
  split <;> exact ⟨_, rfl⟩

theorem Orderly.inform {d : Debugger V} (h : Orderly d) (msgs : List Message) :
    Orderly (d.inform msgs) := by
  obtain ⟨v, hv⟩ := inform_eq d msgs
  rw [hv]
  exact h.withViewer v

theorem Orderly.tell {d : Debugger V} (h : Orderly d) (msgs : List Message) :
    Orderly (d.tell msgs) := by
  obtain ⟨v, hv⟩ := tell_eq d msgs
  rw [hv]
  exact h.withViewer v

theorem toggle_snd (d : Debugger V) (label : Label) :
    (d.toggle label).2 =
      { d with breakpoints := toggled d.breakpoints label }.inform [.breakpoint label] :=
  rfl

theorem Orderly.toggle {d : Debugger V} (h : Orderly d) (label : Label) :
    Orderly (d.toggle label).2 := by
  rw [toggle_snd]
  exact (h.toggled label).inform _

theorem Orderly.beginSession {d : Debugger V} (h : Orderly d) : Orderly d.beginSession.2 := by
  unfold Debugger.beginSession
  dsimp only
  split
  · exact h.begun.tell _
  · exact h.start

theorem Orderly.revise {d : Debugger V} (h : Orderly d) (s : Statement) : Orderly (d.revise s) := by
  unfold Debugger.revise
  dsimp only
  split
  · next hc => exact ((h.revised s).skipRemarks hc.2).inform _
  · exact h.revised s

theorem Orderly.submit {d : Debugger V} (h : Orderly d) (text : String) :
    Orderly (d.submit text).2 := by
  have hsub := d.submit_submitted text
  generalize (d.submit text).2 = d' at hsub ⊢
  cases hsub with
  | answered hw =>
    refine ⟨?_, h.nodup, fun ha => Machine.takeAnswer_direct (h.direct ha) text, fun ha hp => ?_⟩
    · show (d.machine.takeAnswer text).program.Ascending
      rw [Machine.takeAnswer_program]
      exact h.ascending
    · -- a paused session does not wait, so there is nothing to answer
      exact absurd hw (h.settled ha hp).status
  | refused e => exact h.withEvents _
  | revised s => exact h.revise s
  | direct s ha =>
    exact ⟨Machine.submitStatement_ascending s h.ascending, h.nodup, fun ha' => absurd ha' ha,
      fun ha' => absurd ha' ha⟩

theorem Orderly.step {d : Debugger V} (h : Orderly d) (ha : d.active = true)
    (hr : d.machine.status = .running) (hp : d.pace ≠ .paused) (goal : PausePoint) (force : Bool) :
    Orderly (d.step goal force) := by
  have hstep := h.stepped ha hr hp
  unfold Debugger.step
  dsimp only
  split
  · next hc =>
    rw [Bool.and_eq_true] at hc
    have hs := (Machine.step_lands hr).settled (Machine.status_of_isRunning hc.1)
    exact (hstep.paused ha hs).inform _
  · exact hstep

theorem Orderly.endSession {d : Debugger V} (h : Orderly d) : Orderly d.endSession := by
  have hended : Orderly { d with active := false, pace := .paused } :=
    ⟨h.ascending, h.nodup, nofun, nofun⟩
  exact hended.tell _

theorem endSession_active (d : Debugger V) : d.endSession.active = false := by
  obtain ⟨v, hv⟩ := tell_eq { d with active := false, pace := .paused } [.clear, .print]
  rw [endSession, hv]

/-- What a step, fetching an event, ending the session and running freely preserve, a run preserves. -/
theorem untilEvent_of_step {P : Debugger V → Prop}
    (hfetch : ∀ {d : Debugger V} (es : List Event), P d →
      P { d with machine := { d.machine with events := es } })
    (hstep : ∀ {d : Debugger V} (goal : PausePoint) (force : Bool), P d → d.active = true →
      d.machine.status = .running → d.pace ≠ .paused → P (d.step goal force))
    (hend : ∀ {d : Debugger V}, P d → P d.endSession)
    (hfree : ∀ {d : Debugger V} (steps : Nat), P d → d.active = false → P (d.runFreely steps).2)
    (steps : Nat) {d : Debugger V} (h : P d) : P (d.untilEvent steps).2 := by
  fun_induction Debugger.untilEvent steps d with
  | case1 steps d _ e n hf =>
    obtain ⟨es, hes⟩ := d.machine.fetch?_snd
    rw [hf] at hes
    rw [show n = { d.machine with events := es } from hes]
    exact hfetch es h
  | case2 steps d => exact hfree steps (hend h) d.endSession_active
  | case3 | case4 | case5 => exact h
  | case6 d ha _ _ goal force hp hs steps ih => exact ih (hstep goal force h ha hs (by simp [hp]))
  | case7 steps d hna => exact hfree steps h (by simpa using hna)

theorem Orderly.untilEvent {d : Debugger V} (h : Orderly d) (steps : Nat) :
    Orderly (d.untilEvent steps).2 := by
  exact untilEvent_of_step (P := Orderly) (fun es h => h.withEvents es)
    (fun goal force h ha hs hp => h.step ha hs hp goal force) Orderly.endSession
    (fun steps h ha => h.runFreely ha steps) steps h

theorem Orderly.serve {d : Debugger V} (h : Orderly d) (r : Request) : Orderly (d.serve r).2 := by
  cases r with
  | begin => exact h.beginSession
  | breakOff => exact h.breakOff
  | stepIn | stepOver | runToBreakpoint | runToSlot => exact h.pursue _ _
  | stepOut force => exact h.stepOut force
  | toggle label => exact h.toggle label
  | proceed steps => exact h.untilEvent steps
  | submit text => exact h.submit text

/-- A debugger of a reachable machine, after any requests. Its viewer may be replaced at any time. -/
inductive Reachable : Debugger V → Prop
  | fresh {m : Machine} (v : V) : m.Reachable → Reachable { machine := m, viewer := v }
  | serve {d : Debugger V} (r : Request) : Reachable d → Reachable (d.serve r).2
  | watch {d : Debugger V} (v : V) : Reachable d → Reachable { d with viewer := v }

theorem Reachable.orderly {d : Debugger V} (h : Reachable d) : Orderly d := by
  induction h with
  | fresh v hm => exact ⟨hm.ascending, .nil, nofun, nofun⟩
  | serve r _ ih => exact ih.serve r
  | watch v _ ih => exact ih.withViewer v

end Debugger

end LineBasic
