import LineBasic.Proofs.Debugger.Arrival
import LineBasic.Proofs.Debugger.Pause
import LineBasic.Proofs.Machine.Cursor

/-!
# Lines entered during a run

A run to a pause can be left for a while when its budget is used up, and lines can be entered then. A
change of the program also executes the remarks at the cursor, and no step of the run looks at the line
behind them. If that line has a breakpoint, the run goes past it (`edit_overlooks_iff`). From there on
it heeds every breakpoint again.
-/
namespace LineBasic

/-! ## Behind the remarks -/

namespace Machine

/-- The line behind the remarks at the cursor. -/
def behindRemarks? (m : Machine) : Option Line :=
  m.program.line? (m.program.pastRemarks m.cursor)

variable {m : Machine} {l k : Line}

theorem at_skipRemarks_iff (hr : m.status = .running) (hd : m.direct = none) :
    m.skipRemarks.At k ↔ m.behindRemarks? = some k := by
  have hline : m.skipRemarks.program.line? m.skipRemarks.cursor = m.behindRemarks? := by
    rw [skipRemarks_program hd, (skipRemarks_place hr hd).1, behindRemarks?]
  exact ⟨fun h => hline ▸ h.line, fun h => ⟨skipRemarks_direct hd, hline.trans h⟩⟩

theorem behindRemarks?_of_not_isRemark
    (h : ∀ l, m.program.line? m.cursor = some l → l.statement.isRemark = false) :
    m.behindRemarks? = m.program.line? m.cursor := by
  rw [behindRemarks?, Program.pastRemarks_of_not_isRemark h]

/-- The line behind the remarks is not one of them. -/
theorem label_ne_of_behindRemarks? (hp : m.program.Ascending) (hl : m.At l)
    (hrem : l.statement.isRemark = true) (hk : m.behindRemarks? = some k) : l.label ≠ k.label := by
  intro hlabel
  have hslot := hp.slot_inj hl.line hk hlabel
  have hsame : l = k := Option.some.inj (hl.line.symm.trans (hslot ▸ hk))
  exact absurd hrem (by simp [hsame, Program.isRemark_of_pastRemarks hk])

/-- A line with another label than the one at the cursor takes the cursor to no other line. -/
theorem at_of_at_revise {s : Statement} {x : Label} (hx : s.label = some x) (hd : m.direct = none)
    (hother : ∀ l, m.At l → l.label ≠ x) (h : (m.revise s).2.At k) : m.At k := by
  cases hl : m.program.line? m.cursor with
  | none =>
    have hnone := (Program.apply_alters m.program s).line?_shift_eq_none hl
    cases hnone.symm.trans h.line
  | some l =>
    have hat : m.At l := ⟨hd, hl⟩
    have hkept := hat.keep hx (hother l hat).symm
    cases hkept.line.symm.trans h.line
    exact hat

end Machine

/-! ## Runs that are under way -/

namespace Debugger

variable {V : Type}

/-- A run that heeds breakpoints has not come to its pause yet. -/
structure Underway (d : Debugger V) (goal : PausePoint) : Prop where
  active : d.active = true
  status : d.machine.status = .running
  pace : d.pace = .toward goal false

instance (d : Debugger V) (goal : PausePoint) : Decidable (d.Underway goal) :=
  decidable_of_iff (d.active = true ∧ d.machine.status = .running ∧ d.pace = .toward goal false)
    ⟨fun ⟨ha, hs, hp⟩ => ⟨ha, hs, hp⟩, fun h => ⟨h.active, h.status, h.pace⟩⟩

/-- Between `d` and `d₁` the run has come to another line, which is no remark and has a breakpoint, and it is
not paused there. -/
def Overlooks (d d₁ : Debugger V) (goal : PausePoint) : Prop :=
  d₁.Underway goal ∧ ∃ k, d₁.machine.At k ∧ k.statement.isRemark = false ∧ k.label ∈ d₁.breakpoints ∧
    ∀ l, d.machine.At l → l.label ≠ k.label

variable [Viewer V]

/-- All that follows leads to the first stop, and until the pause there it comes to none. -/
structure Heeds (d₀ : Debugger V) (p : Pursuit) : Prop extends StopsFirst d₀ p where
  misses {answers : List String} {d : Debugger V} : EnRoute Drives d₀ answers d →
    d.isPaused = false → d.machine.isRunning = true →
    ∃ k, p.origin.Along answers p.Stop k d.machine

theorem heeds_of_onWay {d₀ : Debugger V} {p : Pursuit} (h₀ : p.OnWay [] 0 d₀) : Heeds d₀ p := by
  refine ⟨stopsFirst_of_onWay h₀, fun {answers d} h hp hr => ?_⟩
  cases stage_of_drives h₀ h with
  | onWay hon => exact ⟨_, hon.along⟩
  | arrived harrived => cases hp.symm.trans harrived.isPaused
  | ended hover => cases hover.stopped.symm.trans (Machine.status_of_isRunning hr)

/-! ## What a line does to a session -/

variable {d : Debugger V} {s : Statement}

/-- A line that changes nothing does not move the cursor. -/
theorem revise_of_unchanged (h : (d.machine.revise s).1 = .unchanged) :
    d.revise s = { d with machine := (d.machine.revise s).2 } := by
  unfold revise
  dsimp only
  rw [if_neg (fun hc => hc.1 h)]

/-- A change in a session is followed by the execution of the remarks at the cursor. -/
theorem revise_of_changed (ha : d.active = true) (h : (d.machine.revise s).1 ≠ .unchanged) :
    ∃ v, d.revise s = { d with machine := (d.machine.revise s).2.skipRemarks, viewer := v } := by
  unfold revise
  dsimp only
  rw [if_pos ⟨h, ha⟩]
  exact inform_eq { d with machine := (d.machine.revise s).2.skipRemarks } _

variable {goal : PausePoint} {x : Label}

/-- What a run has overlooked by a change stands behind the remarks at the cursor. -/
theorem behindRemarks?_of_overlooks (ho : Orderly d) (hd : d.Underway goal) (hx : s.label = some x)
    (hother : ∀ l, d.machine.At l → l.label ≠ x) (h : Overlooks d (d.revise s) goal) :
    (d.machine.revise s).1 ≠ .unchanged ∧
      (∃ l, d.machine.At l ∧ l.statement.isRemark = true) ∧
      ∃ k, (d.machine.revise s).2.behindRemarks? = some k ∧ k.label ∈ d.breakpoints := by
  obtain ⟨-, k, hat, hrem, hmem, hmoved⟩ := h
  have hdirect := ho.direct hd.active
  have hc : (d.machine.revise s).1 ≠ .unchanged := by
    intro hc
    rw [revise_of_unchanged hc] at hat
    exact hmoved k (Machine.at_of_at_revise hx hdirect hother hat) rfl
  obtain ⟨v, hv⟩ := revise_of_changed hd.active hc
  rw [hv] at hat hmem
  have hk := (Machine.at_skipRemarks_iff (m := (d.machine.revise s).2) hd.status hdirect).1 hat
  refine ⟨hc, ?_, k, hk, hmem⟩
  by_contra hnone
  -- without a remark at the cursor the run has not come to another line
  have hstays : (d.machine.revise s).2.behindRemarks? =
      (d.machine.revise s).2.program.line? (d.machine.revise s).2.cursor := by
    refine Machine.behindRemarks?_of_not_isRemark (fun l hl => Bool.eq_false_iff.2 (fun hl' => ?_))
    exact hnone ⟨l, Machine.at_of_at_revise hx hdirect hother ⟨hdirect, hl⟩, hl'⟩
  exact hmoved k (Machine.at_of_at_revise hx hdirect hother ⟨hdirect, hstays.symm.trans hk⟩) rfl

/-- A change at a remark takes the run past the breakpoint of the line behind. -/
theorem overlooks_of_behindRemarks? (ho : Orderly d) (hd : d.Underway goal) (hx : s.label = some x)
    {l k : Line} (hl : d.machine.At l) (hother : l.label ≠ x) (hrem : l.statement.isRemark = true)
    (hc : (d.machine.revise s).1 ≠ .unchanged) (hk : (d.machine.revise s).2.behindRemarks? = some k)
    (hmem : k.label ∈ d.breakpoints) : Overlooks d (d.revise s) goal := by
  have hdirect := ho.direct hd.active
  obtain ⟨v, hv⟩ := revise_of_changed hd.active hc
  have hat := (Machine.at_skipRemarks_iff (m := (d.machine.revise s).2) hd.status hdirect).2 hk
  have hskip := Machine.skipRemarks_of_line? (m := (d.machine.revise s).2) hd.status hdirect hk
  have hne := Machine.label_ne_of_behindRemarks? (Machine.revise_ascending s ho.ascending)
    (hl.keep hx hother.symm) hrem hk
  rw [hv]
  refine ⟨⟨hd.active, ?_, hd.pace⟩, k, hat, Program.isRemark_of_pastRemarks hk, hmem, fun l' hl' => ?_⟩
  · rw [hskip]
    exact hd.status
  · cases hl.line.symm.trans hl'.line
    exact hne

/-- A line leaves the command of the session as it is. -/
theorem onWay_revise (hd : d.Underway goal) (s : Statement) :
    ((d.revise s).errand goal false).OnWay [] 0 (d.revise s) := by
  by_cases hc : (d.machine.revise s).1 = .unchanged
  · rw [revise_of_unchanged hc]
    exact Pursuit.onWay_of_pace hd.active hd.pace
  · obtain ⟨v, hv⟩ := revise_of_changed hd.active hc
    rw [hv]
    exact Pursuit.onWay_of_pace hd.active hd.pace

/-- A line entered during a run, with another label than the one at the cursor, is accepted. It takes the run
past a breakpoint if and only if it changes the program while the cursor is on a remark, and the line
behind the remarks there has the breakpoint. From where it leaves the run, every breakpoint that a step
comes to is heeded. -/
theorem edit_overlooks_iff (h : Reachable d) (hd : d.Underway goal) {text : String}
    (hparse : Statement.parse text = .ok s) (hx : s.label = some x)
    (hother : ∀ l, d.machine.At l → l.label ≠ x) :
    (d.submit text).1 = true ∧
      (Overlooks d (d.submit text).2 goal ↔
        (d.machine.revise s).1 ≠ .unchanged ∧
          (∃ l, d.machine.At l ∧ l.statement.isRemark = true) ∧
          ∃ k, (d.machine.revise s).2.behindRemarks? = some k ∧ k.label ∈ d.breakpoints) ∧
      Heeds (d.submit text).2 ((d.submit text).2.errand goal false) := by
  have hlabel : s.label.isSome = true := by rw [hx, Option.isSome_some]
  have hwaiting : d.machine.isWaiting = false := by simp [Machine.isWaiting, hd.status]
  rw [submit_of_label hparse hlabel hwaiting]
  refine ⟨rfl, ⟨behindRemarks?_of_overlooks h.orderly hd hx hother, ?_⟩,
    heeds_of_onWay (onWay_revise hd s)⟩
  rintro ⟨hc, ⟨l, hl, hrem⟩, k, hk, hmem⟩
  exact overlooks_of_behindRemarks? h.orderly hd hx hl (hother l hl) hrem hc hk hmem

/-- A run to the breakpoint at `label` that was left on a remark. -/
def resting (label : Label) : Debugger Silent :=
  let m := (((((Machine.ofSeed 1).submit "10 LET A = 1").2.submit "20 REM").2.submit "30 PRINT A").2.submit
    "40 END").2
  ((((serve { machine := m, viewer := ⟨⟩ } .begin).2.serve (.toggle label)).2.serve
    .runToBreakpoint).2.serve (.proceed 1)).2

theorem reachable_resting (label : Label) : Reachable (resting label) :=
  ((((Reachable.fresh _ (((((Machine.Reachable.fresh (.ofSeed 1)).submit _).submit _).submit _).submit _)).serve
    .begin).serve _).serve .runToBreakpoint).serve _

/-- With the breakpoint at either line the run has not come to its pause. -/
theorem underway_resting {label : Label} (h : label = 30 ∨ label = 40) :
    (resting label).Underway .breakpoint := by
  rcases h with rfl | rfl <;> decide +kernel

/-- The run is on the remark and on no other line. -/
theorem at_resting {label : Label} (h : label = 30 ∨ label = 40) :
    ∃ l, (resting label).machine.At l ∧ l.statement.isRemark = true ∧
      ∀ k, (resting label).machine.At k → k.label = 20 := by
  have hline : ((resting label).machine.program.line? (resting label).machine.cursor).map
      (fun l => (l.label, l.statement.isRemark)) = some (20, true) := by
    rcases h with rfl | rfl <;> decide +kernel
  obtain ⟨l, hl, hlabel⟩ := Option.map_eq_some_iff.1 hline
  have hdirect := (reachable_resting label).orderly.direct (underway_resting h).active
  refine ⟨l, ⟨hdirect, hl⟩, congrArg Prod.snd hlabel, fun k hk => ?_⟩
  cases hl.symm.trans hk.line
  exact congrArg Prod.fst hlabel

/-- A line is put behind the program while the run rests on the remark. The run goes on from the line behind
the remark, which has no breakpoint, and pauses at the one that has. -/
theorem edit_overlooks_iff_resting :
    let d := resting 40
    let d₁ := (d.submit "50 END").2
    Reachable d ∧ d.Underway .breakpoint ∧ (∃ l, d.machine.At l ∧ l.statement.isRemark = true) ∧
      (d.submit "50 END").1 = true ∧ ¬ Overlooks d d₁ .breakpoint ∧
      Heeds d₁ (d₁.errand .breakpoint false) ∧
      (d₁.serve (.proceed 9)).1 = .event (.print "1\n") ∧
      ((d₁.serve (.proceed 9)).2.serve (.proceed 9)).2.isPaused = true ∧
      ((d₁.serve (.proceed 9)).2.serve (.proceed 9)).2.machine.cursor = 3 := by
  intro d d₁
  have hunderway : d.Underway .breakpoint := underway_resting (.inr rfl)
  obtain ⟨l, hl, hrem, hat⟩ := at_resting (.inr rfl : 40 = 30 ∨ 40 = 40)
  have hother : ∀ k, d.machine.At k → k.label ≠ 50 := fun k hk => by simp [hat k hk]
  have hparse : Statement.parse "50 END" = .ok ⟨.stop, [], some 50⟩ := by decide +kernel
  obtain ⟨haccepted, hiff, hheeds⟩ :=
    edit_overlooks_iff (reachable_resting 40) hunderway hparse rfl hother
  refine ⟨reachable_resting 40, hunderway, ⟨l, hl, hrem⟩, haccepted, fun hover => ?_, hheeds,
    by decide +kernel, by decide +kernel, by decide +kernel⟩
  obtain ⟨-, -, k, hk, hmem⟩ := hiff.1 hover
  have hbehind : (d.machine.revise ⟨.stop, [], some 50⟩).2.behindRemarks?.map (·.label) = some 30 := by
    decide +kernel
  have hbreakpoints : d.breakpoints = [40] := by decide +kernel
  rw [hk, Option.map_some, Option.some.injEq] at hbehind
  rw [hbehind, hbreakpoints] at hmem
  exact absurd hmem (by decide)

/-- A run comes to a line with a breakpoint when another line is entered, and executes it without a pause. -/
theorem edit_overlooks_breakpoint :
    let d := resting 30
    let d₁ := (d.submit "50 END").2
    Reachable d ∧ d.Underway .breakpoint ∧ (d.submit "50 END").1 = true ∧ labelled "50 END" = true ∧
      (∀ l, d.machine.At l → l.label ≠ 50) ∧ Overlooks d d₁ .breakpoint ∧
      (d₁.serve (.proceed 9)).1 = .event (.print "1\n") := by
  intro d d₁
  obtain ⟨-, -, -, hat⟩ := at_resting (.inl rfl : 30 = 30 ∨ 30 = 40)
  have hline : (d₁.machine.program.line? d₁.machine.cursor).map
      (fun l => (l.label, l.statement.isRemark)) = some (30, false) := by decide +kernel
  obtain ⟨k, hk, hlabel⟩ := Option.map_eq_some_iff.1 hline
  obtain ⟨hlabel, hrem⟩ := Prod.mk.inj hlabel
  have hdirect : d₁.machine.direct = none := Option.isNone_iff_eq_none.1 (by decide +kernel)
  have hbreakpoints : d₁.breakpoints = [30] := by decide +kernel
  have hover : Overlooks d d₁ .breakpoint := by
    refine ⟨by decide +kernel, k, ⟨hdirect, hk⟩, hrem, ?_, fun l hl => ?_⟩
    · rw [hlabel, hbreakpoints]
      exact List.mem_singleton_self 30
    · rw [hat l hl, hlabel]
      decide
  exact ⟨reachable_resting 30, underway_resting (.inl rfl), by decide +kernel, by decide +kernel,
    fun l hl => by simp [hat l hl], hover, by decide +kernel⟩

end Debugger

end LineBasic
