import LineBasic.Proofs.Debugger.Orderly
import LineBasic.Proofs.Machine.WellFormed

/-!
# Where a paused session rests

Whatever a debugger has been asked, the cursor of a session that is paused and still running is on no
remark (`rests_of_reachable`). Lines that are entered in the pause keep it on a line of the program as
long as there are lines. Once all of them have been erased, it stays behind the last line, whatever is
entered then (`edits_cursor_iff`).
-/
namespace LineBasic

/-! ## Machines at rest -/

namespace Machine

/-- Unless the run is over, the cursor is on no remark. -/
def Rested (m : Machine) : Prop :=
  m.status = .running → ∀ l, m.program.line? m.cursor = some l → l.statement.isRemark = false

theorem rested_of_status {m : Machine} (h : m.status ≠ .running) : m.Rested :=
  fun hr => absurd hr h

theorem Rested.congr {m n : Machine} (h : m.Rested) (hs : n.status = m.status)
    (hp : n.program = m.program) (hc : n.cursor = m.cursor) : n.Rested := by
  unfold Rested
  rw [hs, hp, hc]
  exact h

theorem skipRemarks_rested {m : Machine} (hd : m.direct = none) : m.skipRemarks.Rested := by
  by_cases hr : m.status = .running
  · intro _ l hl
    rw [skipRemarks_program hd, (skipRemarks_place hr hd).1] at hl
    exact Program.isRemark_of_pastRemarks hl
  · have hsame : m.skipRemarks = m := repeat_step_of_not_running hr _
    rw [hsame]
    exact rested_of_status hr

end Machine

/-! ## Sessions at rest -/

namespace Debugger

variable {V : Type}

/-- In a pause the machine is at rest. -/
def Rests (d : Debugger V) : Prop :=
  d.active = true → d.pace = .paused → d.machine.Rested

theorem rests_of_idle {d : Debugger V} (h : d.active = false) : Rests d :=
  fun ha => absurd ha (by simp [h])

theorem Rests.withViewer {d : Debugger V} (h : Rests d) (v : V) : Rests { d with viewer := v } :=
  h

theorem Rests.pursue {d : Debugger V} (h : Rests d) (goal : PausePoint) (force : Bool) :
    Rests (d.pursue goal force) := by
  unfold Debugger.pursue
  split
  · rintro - ⟨⟩
  · exact h

theorem Rests.stepOut {d : Debugger V} (h : Rests d) (force : Bool) : Rests (d.stepOut force) := by
  unfold Debugger.stepOut
  split
  · exact h
  · exact h.pursue _ force

theorem Rests.breakOff {d : Debugger V} (h : Rests d) : Rests d.breakOff := by
  unfold Debugger.breakOff
  rcases d.machine.breakOff_eq with he | ⟨e, he⟩ <;> rw [he]
  · exact h
  · exact fun _ _ => Machine.rested_of_status (by simp [Machine.abort])

variable [Viewer V]

theorem Rests.inform {d : Debugger V} (h : Rests d) (msgs : List Message) : Rests (d.inform msgs) := by
  obtain ⟨v, hv⟩ := inform_eq d msgs
  rw [hv]
  exact h.withViewer v

theorem Rests.tell {d : Debugger V} (h : Rests d) (msgs : List Message) : Rests (d.tell msgs) := by
  obtain ⟨v, hv⟩ := tell_eq d msgs
  rw [hv]
  exact h.withViewer v

theorem beginSession_rests (d : Debugger V) : Rests d.beginSession.2 := by
  unfold Debugger.beginSession
  dsimp only
  split
  · exact Rests.tell (fun _ _ => Machine.skipRemarks_rested rfl) _
  · next hr => exact fun _ _ => Machine.rested_of_status (by simpa [Machine.isRunning] using hr)

theorem Rests.revise {d : Debugger V} (h : Rests d) (ho : Orderly d) (s : Statement) :
    Rests (d.revise s) := by
  unfold Debugger.revise
  dsimp only
  split
  · next hc =>
    have hd : (d.machine.revise s).2.direct = none := ho.direct hc.2
    exact Rests.inform (fun _ _ => Machine.skipRemarks_rested hd) _
  · next hc =>
    intro ha hp
    obtain ⟨hprogram, hcursor⟩ := Machine.revise_of_unchanged (by_contra fun hne => hc ⟨hne, ha⟩)
    exact (h ha hp).congr rfl hprogram hcursor

theorem Rests.submit {d : Debugger V} (h : Rests d) (ho : Orderly d) (text : String) :
    Rests (d.submit text).2 := by
  have hsub := d.submit_submitted text
  generalize (d.submit text).2 = d' at hsub ⊢
  cases hsub with
  | answered hw => exact fun ha hp => absurd hw (ho.settled ha hp).status
  | refused e => exact fun ha hp => (h ha hp).congr rfl rfl rfl
  | revised s => exact h.revise ho s
  | direct s hna => exact fun ha => absurd ha hna

theorem Rests.step {d : Debugger V} (ho : Orderly d) (ha : d.active = true)
    (hr : d.machine.status = .running) (hp : d.pace ≠ .paused) (goal : PausePoint) (force : Bool) :
    Rests (d.step goal force) := by
  unfold Debugger.step
  dsimp only
  split
  · exact Rests.inform (fun _ _ => Machine.skipRemarks_rested ((ho.stepped ha hr hp).direct ha)) _
  · exact fun _ hp' => absurd hp' hp

theorem endSession_rests (d : Debugger V) : Rests d.endSession :=
  rests_of_idle d.endSession_active

theorem Rests.untilEvent {d : Debugger V} (h : Rests d) (ho : Orderly d) (steps : Nat) :
    Rests (d.untilEvent steps).2 := by
  refine (untilEvent_of_step (P := fun d => Rests d ∧ Orderly d) (fun es h => ⟨?_, h.2.withEvents es⟩)
    (fun goal force h ha hs hp => ⟨.step h.2 ha hs hp goal force, h.2.step ha hs hp goal force⟩)
    (fun h => ⟨endSession_rests _, h.2.endSession⟩)
    (fun steps h ha => ⟨rests_of_idle ha, h.2.runFreely ha steps⟩) steps ⟨h, ho⟩).1
  exact fun ha hp => (h.1 ha hp).congr rfl rfl rfl

theorem Rests.serve {d : Debugger V} (h : Rests d) (ho : Orderly d) (r : Request) :
    Rests (d.serve r).2 := by
  cases r with
  | begin => exact beginSession_rests d
  | breakOff => exact h.breakOff
  | stepIn | stepOver | runToBreakpoint | runToSlot => exact h.pursue _ _
  | stepOut force => exact h.stepOut force
  | toggle label =>
    have htoggled : Rests { d with breakpoints := toggled d.breakpoints label } := h
    exact htoggled.inform _
  | proceed steps => exact h.untilEvent ho steps
  | submit text => exact h.submit ho text

theorem Reachable.rests {d : Debugger V} (h : Reachable d) : Rests d := by
  induction h with
  | fresh v hm => exact rests_of_idle rfl
  | serve r h ih => exact ih.serve h.orderly r
  | watch v _ ih => exact ih.withViewer v

/-- While a session is paused and its program still runs, the cursor is on a line that is no remark or right
behind the last line, and neither an `INPUT` nor a direct statement is pending. -/
theorem rests_of_reachable {d : Debugger V} (h : Reachable d) (hp : d.isPaused = true)
    (hr : d.machine.isRunning = true) :
    (∀ l, d.machine.program.line? d.machine.cursor = some l → l.statement.isRemark = false) ∧
      d.machine.cursor ≤ d.machine.program.size ∧ d.machine.isWaiting = false ∧
      d.machine.direct = none := by
  obtain ⟨hactive, hpaused, hwaiting⟩ := isPaused_iff.1 hp
  exact ⟨h.rests hactive hpaused (Machine.status_of_isRunning hr),
    (h.orderly.settled hactive hpaused).cursor, hwaiting, h.orderly.direct hactive⟩

/-- A session that is paused at an `INPUT` behind a remark. -/
def asking : Debugger Silent :=
  let m := (((((Machine.ofSeed 1).submit "10 LET A = 1").2.submit "20 REM").2.submit "30 INPUT B").2.submit
    "40 END").2
  (((serve { machine := m, viewer := ⟨⟩ } .begin).2.serve .stepIn).2.serve (.proceed 9)).2

theorem reachable_asking : Reachable asking :=
  (((Reachable.fresh _ (((((Machine.Reachable.fresh (.ofSeed 1)).submit _).submit _).submit _).submit _)).serve
    .begin).serve .stepIn).serve _

/-- When a remark takes the place of the `INPUT`, the session goes on to the line behind it. -/
theorem rests_of_reachable_asking :
    let d := (asking.serve (.submit "30 REM")).2
    Reachable d ∧ d.isPaused = true ∧ d.machine.isRunning = true ∧
      d.machine.program.lines.map (·.statement.isRemark) = [false, true, true, false] ∧
      d.machine.cursor = 3 ∧
      ∀ l, d.machine.program.line? d.machine.cursor = some l → l.statement.isRemark = false := by
  intro d
  have h : Reachable d := reachable_asking.serve _
  have hp : d.isPaused = true := by decide +kernel
  have hr : d.machine.isRunning = true := by decide +kernel
  exact ⟨h, hp, hr, by decide +kernel, by decide +kernel, (rests_of_reachable h hp hr).1⟩

end Debugger

/-! ## Edits in a pause -/

namespace Machine

/-- The cursor is on a line of the program, or right behind the last one if the program has been `emptied`. -/
structure Lingers (emptied : Bool) (m : Machine) : Prop where
  direct : m.direct = none
  cursor : if emptied then m.cursor = m.program.size else m.cursor < m.program.size

variable {emptied : Bool} {m : Machine}

theorem Lingers.line?_iff (h : Lingers emptied m) :
    (∃ l, m.program.line? m.cursor = some l) ↔ emptied = false := by
  rw [← Option.isSome_iff_exists, ← Option.ne_none_iff_isSome, Ne, Program.line?_eq_none]
  have hcursor := h.cursor
  cases emptied with
  | true =>
    rw [if_pos rfl] at hcursor
    simp [hcursor]
  | false =>
    rw [if_neg Bool.false_ne_true] at hcursor
    simp [hcursor]

theorem Lingers.revise (h : Lingers emptied m) (s : Statement) :
    Lingers (emptied || (m.revise s).2.program.isEmpty) (m.revise s).2 := by
  refine ⟨h.direct, ?_⟩
  have hplaced := shift_placed (Program.apply_alters m.program s) h.cursor
  cases emptied with
  | true => exact hplaced
  | false =>
    -- with a line at the cursor the program had lines
    have hlines : m.program.isEmpty = false := by
      rw [Program.isEmpty, List.isEmpty_eq_false_iff_exists_mem]
      exact ⟨_, List.getElem_mem h.cursor⟩
    rw [hlines] at hplaced
    exact hplaced

theorem Lingers.skipRemarks (h : Lingers emptied m) (hr : m.skipRemarks.isRunning = true) :
    Lingers emptied m.skipRemarks := by
  refine ⟨skipRemarks_direct h.direct, ?_⟩
  cases emptied with
  | true =>
    -- behind the last line there is nothing to skip
    have heq : m.cursor = m.program.size := h.cursor
    have hnone : m.remarksAhead = 0 := by
      by_contra hne
      have := remarksAhead_le m hne
      omega
    rw [Machine.skipRemarks, hnone]
    exact heq
  | false =>
    rcases skipRemarks_eq h.direct with he | ⟨slot, label, -, -, he⟩ <;> rw [he] at hr ⊢
    · exact h.cursor
    · by_cases hlt : slot < m.program.size
      · rw [moveTo_of_lt hlt]
        exact hlt
      · rw [moveTo, if_neg hlt] at hr
        cases hr

end Machine

namespace Debugger

variable {V : Type} [Viewer V] {emptied : Bool} {d₀ d : Debugger V}

/-- The text is a line with a label. -/
def labelled (text : String) : Bool :=
  (Statement.parse text).toOption.any (·.label.isSome)

/-- Labelled lines have been entered one by one from `d₀` on, and the program has been running all along. The
flag says whether it has been without lines meanwhile. -/
inductive Edits (d₀ : Debugger V) : Bool → Debugger V → Prop
  | refl : Edits d₀ false d₀
  | submit {emptied : Bool} {d : Debugger V} (text : String) : Edits d₀ emptied d →
      labelled text = true → (d.submit text).2.machine.isRunning = true →
      Edits d₀ (emptied || (d.submit text).2.machine.program.isEmpty) (d.submit text).2

theorem submit_of_label {text : String} {s : Statement} (hparse : Statement.parse text = .ok s)
    (hs : s.label.isSome = true) (hw : d.machine.isWaiting = false) :
    d.submit text = (true, d.revise s) := by
  rw [submit, if_neg (by simp [hw]), Machine.parse, hparse]
  dsimp only
  rw [if_pos hs]

theorem submit_of_labelled {text : String} (h : labelled text = true) (hw : d.machine.isWaiting = false) :
    ∃ s, (d.submit text).2 = d.revise s := by
  unfold labelled at h
  cases hparse : Statement.parse text with
  | error e =>
    rw [hparse] at h
    cases h
  | ok s =>
    rw [hparse] at h
    exact ⟨s, congrArg Prod.snd (submit_of_label hparse h hw)⟩

theorem revise_lingers (h : d.machine.Lingers emptied) {s : Statement}
    (hr : (d.revise s).machine.isRunning = true) :
    (d.revise s).machine.Lingers (emptied || (d.revise s).machine.program.isEmpty) := by
  have hrevised := h.revise s
  rcases d.revise_machine s with he | he <;> rw [he] at hr ⊢
  · exact hrevised
  · rw [Machine.skipRemarks_program hrevised.direct]
    exact hrevised.skipRemarks hr

theorem Edits.lingers (h : Edits d₀ emptied d) (hw : d₀.machine.isWaiting = false)
    (h₀ : d₀.machine.Lingers false) : d.machine.isWaiting = false ∧ d.machine.Lingers emptied := by
  induction h with
  | refl => exact ⟨hw, h₀⟩
  | submit text _ hl hr ih =>
    obtain ⟨hwaiting, hlingers⟩ := ih
    obtain ⟨s, he⟩ := submit_of_labelled hl hwaiting
    rw [he] at hr ⊢
    refine ⟨?_, revise_lingers hlingers hr⟩
    rw [Machine.isWaiting, Machine.status_of_isRunning hr]
    rfl

/-- While lines are entered in a pause, the cursor is on a line of the program if and only if there have been
lines all along. Once they have all been erased, it is right behind the last line, however many are
entered. -/
theorem edits_cursor_iff (h₀ : Reachable d₀) (hp : d₀.isPaused = true)
    (hl : ∃ l, d₀.machine.program.line? d₀.machine.cursor = some l) (h : Edits d₀ emptied d) :
    ((∃ l, d.machine.program.line? d.machine.cursor = some l) ↔ emptied = false) ∧
      (emptied = true → d.machine.cursor = d.machine.program.size) := by
  obtain ⟨hactive, -, hwaiting⟩ := isPaused_iff.1 hp
  obtain ⟨l, hline⟩ := hl
  have hlingers₀ : d₀.machine.Lingers false :=
    ⟨h₀.orderly.direct hactive, (List.getElem?_eq_some_iff.1 hline).1⟩
  have hlingers := (h.lingers hwaiting hlingers₀).2
  refine ⟨hlingers.line?_iff, fun hemptied => ?_⟩
  have hcursor := hlingers.cursor
  rwa [if_pos hemptied] at hcursor

/-- A session at the only line of its program. -/
def lone : Debugger Silent :=
  (serve { machine := ((Machine.ofSeed 1).submit "10 END").2, viewer := ⟨⟩ } .begin).2

theorem reachable_lone : Reachable lone :=
  (Reachable.fresh _ ((Machine.Reachable.fresh (.ofSeed 1)).submit _)).serve _

/-- A line is entered before the one at the cursor, both are erased, and two others are entered. -/
theorem edits_cursor_iff_lone :
    ∃ (emptied : Bool) (d : Debugger Silent), Edits lone emptied d ∧ emptied = true ∧
      d.machine.program.size = 2 ∧ ¬ (∃ l, d.machine.program.line? d.machine.cursor = some l) ∧
      d.machine.cursor = d.machine.program.size := by
  have h0 : Edits lone false lone := .refl
  have h1 := h0.submit "5 PRINT 1" (by decide +kernel) (by decide +kernel)
  have h2 := h1.submit "10" (by decide +kernel) (by decide +kernel)
  have h3 := h2.submit "5" (by decide +kernel) (by decide +kernel)
  have h4 := h3.submit "20 END" (by decide +kernel) (by decide +kernel)
  have h5 := h4.submit "10 REM" (by decide +kernel) (by decide +kernel)
  obtain ⟨hiff, hend⟩ := edits_cursor_iff reachable_lone (by decide +kernel)
    (Option.isSome_iff_exists.1 (by decide +kernel)) h5
  exact ⟨_, _, h5, by decide +kernel, by decide +kernel,
    fun hl => absurd (hiff.1 hl) (by decide +kernel), hend (by decide +kernel)⟩

/-- When its line is erased and entered again, the session is behind the line, and the next step fails. -/
theorem edits_leave_line :
    ∃ (emptied : Bool) (d : Debugger Silent), Reachable lone ∧ lone.isPaused = true ∧
      (∃ l, lone.machine.program.line? lone.machine.cursor = some l) ∧ Edits lone emptied d ∧
      d.machine.program.size = 1 ∧ d.machine.program.line? d.machine.cursor = none ∧
      ((d.serve .stepIn).2.serve (.proceed 1)).1 = .event (.error ⟨.missingEnd, some 10, ""⟩) := by
  have h0 : Edits lone false lone := .refl
  have h1 := h0.submit "10" (by decide +kernel) (by decide +kernel)
  have h2 := h1.submit "10 END" (by decide +kernel) (by decide +kernel)
  exact ⟨_, _, reachable_lone, by decide +kernel, Option.isSome_iff_exists.1 (by decide +kernel), h2,
    by decide +kernel, Option.isNone_iff_eq_none.1 (by decide +kernel), by decide +kernel⟩

end Debugger

end LineBasic
