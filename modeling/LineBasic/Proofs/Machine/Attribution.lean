import LineBasic.Proofs.Machine.Fault

/-!
# The line of an error

A statement that fails does not say on which line, so it is the step that places its error
(`Sound.step_queues`). The line is always the one about to be executed: a stored statement has the label
of its line, whatever became of the program meanwhile, and a direct statement has none
(`Reachable.label_eq`). So an error names the line that was executed, however deep the failing statement
stood behind conditions, and wherever it was about to lead (`names_line`).
-/
namespace LineBasic.Machine

/-! ## The label of the next statement -/

/-- A statement to be executed by itself has no label. -/
def Unlabelled (m : Machine) : Prop :=
  ∀ s ∈ m.direct, s.label = none

theorem Unlabelled.inherit {m n : Machine} (h : m.Unlabelled) (hn : Inherits m n) : n.Unlabelled := by
  unfold Unlabelled
  rcases hn.direct with hd | hd <;> rw [hd]
  · exact h
  · simp

/-- A labelled line is stored and not executed. -/
theorem Unlabelled.submitStatement {m : Machine} (h : m.Unlabelled) (s : Statement) :
    (m.submitStatement s).2.Unlabelled := by
  unfold Machine.submitStatement
  split
  · exact h
  · next hlabel =>
    split
    · exact h
    · split
      · exact h
      · intro s' hs'
        cases hs'
        simpa using hlabel

theorem Unlabelled.submit {m : Machine} (h : m.Unlabelled) (text : String) :
    (m.submit text).2.Unlabelled := by
  unfold Machine.submit
  split
  · exact h.inherit (takeAnswer_inherits m text)
  · unfold parse
    cases Statement.parse text with
    | error e => exact h
    | ok s => exact h.submitStatement s

theorem Reachable.unlabelled {m : Machine} (h : Reachable m) : m.Unlabelled := by
  induction h with
  | fresh => simp [Unlabelled]
  | submit text _ ih => exact ih.submit text
  | load source _ hl =>
    obtain ⟨p, -, hl⟩ := bind_eq_ok hl
    cases hl
    simp [Unlabelled]
  | start => simp [Unlabelled, Machine.start]
  | step _ ih => exact ih.inherit (step_inherits _)
  | untilEvent steps _ ih =>
    exact untilEvent_of_step (fun h => h.inherit (step_inherits _))
      (fun h => h.inherit (fetch?_inherits _)) steps ih
  | breakOff _ ih => exact ih.inherit (breakOff_inherits _)

/-- The next statement carries the label of the place where the machine is. -/
theorem Reachable.label_eq {m : Machine} (h : Reachable m) {s : Statement} (hs : m.upcoming? = some s) :
    s.label = m.upcomingLabel? := by
  unfold upcoming? at hs
  unfold upcomingLabel?
  cases hd : m.direct with
  | some s' =>
    rw [hd] at hs
    cases hs
    exact h.unlabelled s hd
  | none =>
    rw [hd] at hs
    change Option.map _ _ = _ at hs
    obtain ⟨l, hl, rfl⟩ := Option.map_eq_some_iff.1 hs
    rw [hl]
    exact (h.sound.program l (List.mem_of_getElem? hl)).label

/-! ## The errors that may come next -/

/-- The errors that the machine may meet where it is have this label: those of the next statement, of an
answer and of breaking off. -/
structure Names (m : Machine) (label : Option Label) : Prop where
  step : Queues (·.label = label) m m.step
  answer (text : String) : m.isWaiting = true → Queues (·.label = label) m (m.submit text).2
  breakOff : m.breakOff.events =
    m.events ++ if m.isActive then [.error { code := .break, label }] else []

/-- They have the label of the place where the machine is, if there is a statement to execute. -/
theorem Reachable.names {m : Machine} (h : Reachable m) {s : Statement} (hs : m.upcoming? = some s) :
    m.Names m.upcomingLabel? where
  step := by
    cases hr : m.isRunning with
    | false =>
      rw [step_of_not_isRunning hr]
      exact queues_of_eq rfl
    | true =>
      rw [← h.label_eq hs]
      exact (h.sound.step_queues hr hs).mono (fun _ he => he.2)
  answer text hw := by
    rw [submit_of_isWaiting hw]
    exact (takeAnswer_queues m text).mono (fun _ he => he.2)
  breakOff := by
    unfold Machine.breakOff
    split
    · rfl
    · rw [List.append_nil]

/-- In program mode on a stored line the errors name that line. -/
theorem Reachable.names_of_line? {m : Machine} (h : Reachable m) {line : Line} (hd : m.direct = none)
    (hl : m.program.line? m.cursor = some line) : m.Names (some line.label) := by
  have hs : m.upcoming? = some line.statement := by
    rw [upcoming?, hd, hl]
    rfl
  have hlabel : m.upcomingLabel? = some line.label := by
    rw [upcomingLabel?, hd, hl]
    rfl
  exact hlabel ▸ h.names hs

/-- A direct statement is on no line. -/
theorem Reachable.names_of_direct {m : Machine} (h : Reachable m) (hd : m.direct ≠ none) :
    m.Names none := by
  obtain ⟨s, hs⟩ := Option.ne_none_iff_exists'.1 hd
  have hup : m.upcoming? = some s := by
    rw [upcoming?, hs]
    rfl
  have hlabel : m.upcomingLabel? = none := by rw [upcomingLabel?, hs]
  exact hlabel ▸ h.names hup

/-! ## Runs -/

/-- An error that a run hands out was queued before, or by one of its steps. -/
theorem error_of_untilEvent {m : Machine} {steps : Nat} {e : Error}
    (he : (m.untilEvent steps).1 = .error e) :
    Event.error e ∈ m.events ∨
      ∃ k < steps, (Machine.step^[k] m).events = [] ∧ Event.error e ∈ (Machine.step^[k] m).step.events := by
  fun_induction untilEvent steps m with
  | case1 steps m e' n hf =>
    unfold fetch? at hf
    split at hf <;> cases hf
    next es hes =>
    left
    rw [hes, ← he]
    exact .head _
  | case5 m _ hf _ steps ih =>
    have hnone : m.events = [] := by
      unfold fetch? at hf
      split at hf
      · assumption
      · cases hf
    rcases ih he with hmem | ⟨k, hk, hstep⟩
    · exact .inr ⟨0, Nat.succ_pos steps, hnone, hmem⟩
    · exact .inr ⟨k + 1, Nat.succ_lt_succ hk, hstep⟩
  | case2 | case3 | case4 => cases he

theorem Reachable.iterate_step {m : Machine} (h : Reachable m) (k : Nat) :
    Reachable (Machine.step^[k] m) := by
  induction k generalizing m with
  | zero => exact h
  | succ k ih => exact ih h.step

/-- Of what was queued since there were no events, `P` holds. -/
theorem Queues.of_mem {P : Error → Prop} {m n : Machine} (h : Queues P m n) (hm : m.events = [])
    {e : Error} (he : Event.error e ∈ n.events) : P e := by
  obtain ⟨es, hes, hP⟩ := h
  rw [hes, hm, List.nil_append] at he
  exact hP e he

/-- While the program is on a stored line, an error of the next statement, of an answer or of breaking off
names that line, and an error of a direct statement names none. In a run, an error that was not queued
before is that of the statement at one of its steps, and named in the same way. -/
theorem names_line {m : Machine} (h : Reachable m) :
    (∀ line, m.direct = none → m.program.line? m.cursor = some line → m.Names (some line.label)) ∧
      (m.direct ≠ none → m.Names none) ∧
      ∀ steps e, (m.untilEvent steps).1 = .error e → Event.error e ∉ m.events →
        ∃ k < steps, (Machine.step^[k] m).events = [] ∧
          Event.error e ∈ (Machine.step^[k] m).step.events ∧
          (∀ line, (Machine.step^[k] m).direct = none →
            (Machine.step^[k] m).program.line? (Machine.step^[k] m).cursor = some line →
            e.label = some line.label) ∧
          ((Machine.step^[k] m).direct ≠ none → e.label = none) := by
  refine ⟨fun line => h.names_of_line?, h.names_of_direct, fun steps e he hnew => ?_⟩
  rcases error_of_untilEvent he with hmem | ⟨k, hk, hnone, hmem⟩
  · exact absurd hmem hnew
  · have hk' := h.iterate_step k
    refine ⟨k, hk, hnone, hmem, fun line hd hl => ?_, fun hd => ?_⟩
    · exact (hk'.names_of_line? hd hl).step.of_mem hnone hmem
    · exact (hk'.names_of_direct hd).step.of_mem hnone hmem

/-- About to return from a call on the last line. -/
def leaving : Machine :=
  ((((ofSeed 1).submit "10 GOTO 30").2.submit "20 IF 1 = 1 THEN RETURN").2.submit "30 GOSUB 20").2.start.step.step

/-- A direct `INPUT` waits. -/
def askedDirectly : Machine :=
  ((ofSeed 1).submit "INPUT A").2.step

theorem names_line_leaving :
    (leaving.Reachable ∧ leaving.direct = none ∧ leaving.program.line? leaving.cursor ≠ none ∧
      leaving.Names (some 20) ∧ leaving.step.events = [.error ⟨.missingEnd, some 20, ""⟩]) ∧
    askedDirectly.Reachable ∧ askedDirectly.isWaiting = true ∧ askedDirectly.direct ≠ none ∧
      askedDirectly.Names none ∧
      (askedDirectly.submit "1 / 0").2.events = [.error ⟨.divisionByZero, none, ""⟩] := by
  refine ⟨?returns, ?answers⟩
  case returns =>
    have h : leaving.Reachable := (((((Reachable.fresh (.ofSeed 1)).submit _).submit _).submit _).start.step).step
    have hd : leaving.direct = none := by decide +kernel
    have hlabel : (leaving.program.line? leaving.cursor).map Line.label = some 20 := by decide +kernel
    obtain ⟨line, hl, hline⟩ := Option.map_eq_some_iff.1 hlabel
    refine ⟨h, hd, by rw [hl]; simp, ?_, by decide +kernel⟩
    rw [← hline]
    exact (names_line h).1 line hd hl
  case answers =>
    have h : askedDirectly.Reachable := ((Reachable.fresh (.ofSeed 1)).submit _).step
    have hd : askedDirectly.direct ≠ none := by decide +kernel
    exact ⟨h, by decide +kernel, hd, (names_line h).2.1 hd, by decide +kernel⟩

end LineBasic.Machine
