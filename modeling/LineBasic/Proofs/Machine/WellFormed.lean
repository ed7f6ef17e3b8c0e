import LineBasic.Proofs.Machine.Sound

/-!
# Well-formed machines

In every reachable machine the program is in order, the open calls fit into it, a statement to be
executed by itself means that there is a run, and the cursor of a run is on a line, unless the lines
were erased under it (`wellFormed_of_reachable`).
-/
namespace LineBasic

theorem Stack.size_le_of_push {α : Type} {s t : Stack α} {a : α} (h : s.push a = .ok t) :
    t.size ≤ capacity := by
  unfold push at h
  split at h
  · next hlt =>
    cases h
    exact hlt
  · cases h

namespace Machine

/-! ## Open calls -/

/-- The calls fit into the stack, and their return points into the program. -/
structure CallsFit (m : Machine) : Prop where
  depth : m.depth ≤ Stack.capacity
  slots : ∀ i, ReturnPoint.slot i ∈ m.calls.toList → i ≤ m.program.size

theorem CallsFit.congr {m n : Machine} (h : m.CallsFit) (hc : n.calls = m.calls)
    (hp : n.program = m.program) : n.CallsFit where
  depth := by rw [Machine.depth, hc]; exact h.depth
  slots := by rw [hc, hp]; exact h.slots

theorem callsFit_of_clear {m n : Machine} (h : n.calls = m.calls.clear) : n.CallsFit where
  depth := by rw [Machine.depth, h]; exact Nat.zero_le _
  slots := by
    rw [h]
    rintro i ⟨⟩

theorem CallsFit.step {m : Machine} (h : m.CallsFit) : m.step.CallsFit := by
  cases step_calls m with
  | kept hc hp => exact h.congr hc hp
  | cleared hc => exact callsFit_of_clear hc
  | opened hc hp honLine =>
    refine ⟨Stack.size_le_of_push hc, fun i hi => ?_⟩
    rw [Stack.toList_push hc] at hi
    rw [hp]
    rcases List.mem_append.1 hi with hi | hi
    · exact h.slots i hi
    · have hback := List.mem_singleton.1 hi
      unfold back at hback
      split at hback
      · cases hback
      · next hd =>
        cases hback
        exact honLine (by simpa using hd)
  | closed hc hp =>
    have hsize := Stack.size_of_pop hc
    refine ⟨?_, fun i hi => ?_⟩
    · exact Nat.le_of_succ_le (Nat.le_trans (Nat.le_of_eq hsize.symm) h.depth)
    · rw [hp]
      exact h.slots i (Stack.toList_pop hc ▸ List.mem_append_left _ hi)

theorem CallsFit.revise {m n : Machine} {c : Change} (h : m.CallsFit) (hr : Revised m c n) :
    n.CallsFit where
  depth := by rw [Machine.depth, hr.calls]; exact h.depth
  slots := by
    intro i hi
    rw [hr.calls, Stack.toList_map] at hi
    obtain ⟨back, hback, hi⟩ := List.mem_map.1 hi
    cases back with
    | direct => cases hi
    | slot j =>
      cases hi
      exact hr.program.shiftAfter_le (h.slots j hback)

/-! ## The place in the program -/

/-- The machine can be reached, and the flag says whether a change that was made in the current run has
left the program without lines, with no statement executed since. -/
inductive Driven : Bool → Machine → Prop
  | fresh (generator : Random.Generator) : Driven false { generator }
  | submit {b : Bool} {m : Machine} (text : String) : Driven b m →
      Driven (m.isActive && (b || !m.program.isEmpty && (m.submit text).2.program.isEmpty))
        (m.submit text).2
  | load {b : Bool} {m n : Machine} (source : String) :
      Driven b m → m.replaceProgram source = .ok n → Driven false n
  | start {b : Bool} {m : Machine} : Driven b m → Driven false m.start
  | step {b : Bool} {m : Machine} : Driven b m → Driven (b && !m.isRunning) m.step
  | fetch {b : Bool} {m : Machine} : Driven b m → Driven b m.fetch?.2
  | breakOff {b : Bool} {m : Machine} : Driven b m → Driven b m.breakOff

/-- A statement by itself is part of a run. Without one, the cursor of a run is on a line of the
program, or behind the last one if `emptied`. -/
structure Placed (emptied : Bool) (m : Machine) : Prop where
  direct : m.direct ≠ none → m.isActive = true
  cursor : m.isActive = true → m.direct = none →
    if emptied then m.cursor = m.program.size else m.cursor < m.program.size

theorem placed_of_stopped {b : Bool} {m : Machine} (hs : m.status = .stopped) (hd : m.direct = none) :
    Placed b m where
  direct := fun h => absurd hd h
  cursor := fun ha => by simp [isActive, hs] at ha

theorem Placed.congr {b : Bool} {m n : Machine} (h : Placed b m) (hs : n.status = m.status)
    (hd : n.direct = m.direct) (hc : n.cursor = m.cursor) (hp : n.program = m.program) : Placed b n where
  direct := by
    rw [hd, isActive, hs]
    exact h.direct
  cursor := by
    rw [hd, isActive, hs, hc, hp]
    exact h.cursor

theorem placed_start (m : Machine) : Placed false m.start where
  direct := fun h => absurd rfl h
  cursor := by
    intro ha _
    cases he : m.program.isEmpty with
    | true => simp [isActive, Machine.start, he] at ha
    | false =>
      show 0 < m.program.lines.length
      simpa [Program.isEmpty, List.length_pos_iff] using he

theorem upcoming?_of_isWaiting_step {m : Machine} (hr : m.isRunning = true)
    (hw : m.step.status = .waiting) : ∃ s, m.upcoming? = some s := by
  cases hs : m.upcoming? with
  | some s => exact ⟨s, rfl⟩
  | none =>
    rw [step, if_pos hr, hs] at hw
    cases hw

theorem Placed.step {b : Bool} {m : Machine} (h : Placed b m) : Placed (b && !m.isRunning) m.step := by
  cases hr : m.isRunning with
  | false =>
    rw [step_of_not_isRunning hr, Bool.not_false, Bool.and_true]
    exact h
  | true =>
    rw [Bool.not_true, Bool.and_false]
    cases step_lands (status_of_isRunning hr) with
    | stopped hs hd => exact placed_of_stopped hs hd
    | running hs hd _ hc => exact ⟨fun hn => absurd hd hn, fun _ _ => hc⟩
    | waiting hs hd hp hc =>
      -- only a statement waits, so there was one at the cursor
      refine ⟨fun _ => by simp [isActive, hs], fun _ hdirect => ?_⟩
      obtain ⟨s, hup⟩ := upcoming?_of_isWaiting_step hr hs
      rw [hc, hp]
      exact cursor_lt_of_upcoming? hup (hd ▸ hdirect)

/-- Changes keep the cursor on a line as long as there are lines, and then at the end. -/
theorem shift_placed {p q : Program} {c : Change} (h : Program.Alters p c q) {b : Bool} {i : Nat}
    (hi : if b then i = p.size else i < p.size) :
    if b || !p.isEmpty && q.isEmpty then c.shift i = q.size else c.shift i < q.size := by
  have hempty (r : Program) : r.isEmpty = true ↔ r.size = 0 := by
    rw [Program.isEmpty, List.isEmpty_iff_length_eq_zero, Program.size]
  cases b with
  | true => exact (h.shift_eq_size (Nat.le_of_eq hi)).2 (.inl hi)
  | false =>
    have hlt : i < p.size := hi
    have hp : p.isEmpty = false := by
      rw [← Bool.not_eq_true, hempty]
      omega
    have hle := h.shift_le (Nat.le_of_lt hlt)
    have heq := h.shift_eq_size (Nat.le_of_lt hlt)
    rw [← hempty] at heq
    rw [hp]
    cases hq : q.isEmpty with
    | true => exact heq.2 (.inr hq)
    | false =>
      refine Nat.lt_of_le_of_ne hle (fun hend => ?_)
      rcases heq.1 hend with hi | hnil
      · exact Nat.ne_of_lt hlt hi
      · exact absurd hnil (by simp [hq])

/-- What becomes of a run when the machine is given a line. -/
inductive Entered (m n : Machine) : Prop
  | kept (direct : n.direct = m.direct) (active : n.isActive = m.isActive)
  | began (direct : n.direct ≠ none) (active : n.isActive = true)
  | failed (direct : n.direct = none) (stopped : n.status = .stopped)

theorem submitStatement_entered (m : Machine) (s : Statement) : Entered m (m.submitStatement s).2 := by
  unfold submitStatement
  split
  · exact .kept rfl rfl
  · split
    · exact .kept rfl rfl
    · split
      · exact .kept rfl rfl
      · exact .began (by simp) rfl

theorem submit_entered (m : Machine) (text : String) : Entered m (m.submit text).2 := by
  unfold submit
  split
  · next hw =>
    rcases takeAnswer_eq m text with ⟨n, vs, quiet, h⟩ | ⟨n, e, -, -, h⟩ <;> rw [h]
    · have hs : m.status = .waiting := by simpa [isWaiting] using hw
      exact .kept quiet.direct (by simp [isActive, hs])
    · exact .failed rfl rfl
  · unfold parse
    cases Statement.parse text with
    | error e => exact .kept rfl rfl
    | ok s => exact submitStatement_entered m s

theorem Placed.submit {b : Bool} {m : Machine} (h : Placed b m) (text : String) :
    Placed (m.isActive && (b || !m.program.isEmpty && (m.submit text).2.program.isEmpty))
      (m.submit text).2 := by
  obtain ⟨c, hc⟩ := submit_revised m text
  have hentered := submit_entered m text
  generalize (m.submit text).2 = n at hc hentered
  cases hentered with
  | failed hd hs => exact placed_of_stopped hs hd
  | began hd ha => exact ⟨fun _ => ha, fun _ hnone => absurd hnone hd⟩
  | kept hd ha =>
    -- the run goes on as before, at the place to which the change has moved the cursor
    refine ⟨fun hn => ?_, fun hactive hnone => ?_⟩
    · rw [ha]
      exact h.direct (hd ▸ hn)
    · rw [ha] at hactive
      rw [hactive, Bool.true_and, hc.cursor]
      exact shift_placed hc.program (h.cursor hactive (hd ▸ hnone))

/-! ## Reachable machines -/

theorem Driven.placed {b : Bool} {m : Machine} (h : Driven b m) : Placed b m := by
  induction h with
  | fresh => exact placed_of_stopped rfl rfl
  | submit text _ ih => exact ih.submit text
  | load source _ hl =>
    obtain ⟨p, -, hl⟩ := bind_eq_ok hl
    cases hl
    exact placed_of_stopped rfl rfl
  | @start _ m => exact placed_start m
  | step _ ih => exact ih.step
  | @fetch _ m _ ih =>
    obtain ⟨es, hes⟩ := m.fetch?_snd
    rw [hes]
    exact ih.congr rfl rfl rfl rfl
  | @breakOff _ m _ ih =>
    rcases m.breakOff_eq with he | ⟨e, he⟩ <;> rw [he]
    · exact ih
    · exact placed_of_stopped rfl rfl

theorem Reachable.callsFit {m : Machine} (h : Reachable m) : m.CallsFit := by
  induction h with
  | fresh generator => exact callsFit_of_clear (m := { generator }) rfl
  | @submit m text _ ih =>
    obtain ⟨c, hc⟩ := submit_revised m text
    exact ih.revise hc
  | @load m n source _ hl =>
    obtain ⟨p, -, hl⟩ := bind_eq_ok hl
    cases hl
    exact callsFit_of_clear (m := m) rfl
  | @start m => exact callsFit_of_clear (m := m) rfl
  | step _ ih => exact ih.step
  | untilEvent steps _ ih =>
    refine untilEvent_of_step (P := CallsFit) CallsFit.step (fun {m} h => ?_) steps ih
    obtain ⟨es, hes⟩ := m.fetch?_snd
    rw [hes]
    exact h.congr rfl rfl
  | @breakOff m _ ih =>
    rcases m.breakOff_eq with he | ⟨e, he⟩ <;> rw [he]
    · exact ih
    · exact ih.congr rfl rfl

theorem Reachable.driven {m : Machine} (h : Reachable m) : ∃ b, Driven b m := by
  induction h with
  | fresh generator => exact ⟨_, .fresh generator⟩
  | submit text _ ih => exact ih.elim (fun b h => ⟨_, h.submit text⟩)
  | load source _ hl ih => exact ih.elim (fun b h => ⟨_, h.load source hl⟩)
  | start _ ih => exact ih.elim (fun b h => ⟨_, h.start⟩)
  | step _ ih => exact ih.elim (fun b h => ⟨_, h.step⟩)
  | untilEvent steps _ ih =>
    exact untilEvent_of_step (P := fun m => ∃ b, Driven b m) (fun h => h.elim (fun b h => ⟨_, h.step⟩))
      (fun h => h.elim (fun b h => ⟨_, h.fetch⟩)) steps ih
  | breakOff _ ih => exact ih.elim (fun b h => ⟨_, h.breakOff⟩)

/-- Every reachable machine is well-formed. -/
theorem wellFormed_of_reachable {m : Machine} (h : Reachable m) :
    (m.program.Ascending ∧ ∀ l ∈ m.program.lines, 1 ≤ l.label ∧ l.label ≤ 32767 ∧
        l.statement.label = some l.label ∧ l.statement.keyword ≠ .blank) ∧
      (m.depth ≤ 65535 ∧ ∀ i, ReturnPoint.slot i ∈ m.calls.toList → i ≤ m.program.size) ∧
      (m.direct ≠ none → m.isActive = true) ∧
      (∃ emptied, Driven emptied m) ∧
      ∀ emptied, Driven emptied m → m.isActive = true → m.direct = none →
        if emptied then m.cursor = m.program.size else m.cursor < m.program.size := by
  have hsound := h.sound.program
  have hcalls := h.callsFit
  obtain ⟨b, hb⟩ := h.driven
  refine ⟨⟨h.ascending, fun l hl => ?_⟩, ⟨hcalls.depth, hcalls.slots⟩, hb.placed.direct, ⟨b, hb⟩, ?_⟩
  · have := hsound l hl
    exact ⟨this.range.1, this.range.2, this.label, this.spelled⟩
  · exact fun b' hb' => hb'.placed.cursor

/-- All lines are erased while a call is open. -/
def stripped : Machine :=
  ((((ofSeed 1).submit "10 GOSUB 20").2.submit "20 END").2.start.step.submit "10").2.submit "20" |>.2

theorem wellFormed_of_reachable_stripped :
    stripped.Reachable ∧ stripped.depth = 1 ∧ stripped.isActive = true ∧ stripped.direct = none ∧
      Driven true stripped ∧
      (∀ i, ReturnPoint.slot i ∈ stripped.calls.toList → i ≤ stripped.program.size) ∧
      stripped.cursor = stripped.program.size := by
  have h : stripped.Reachable :=
    (((((Reachable.fresh (.ofSeed 1)).submit _).submit _).start.step.submit _).submit _)
  obtain ⟨_, rfl, hd⟩ : ∃ b, b = true ∧ Driven b stripped :=
    ⟨_, by decide +kernel, (((((Driven.fresh (.ofSeed 1)).submit _).submit _).start.step.submit _).submit _)⟩
  have ha : stripped.isActive = true := by decide +kernel
  have hdirect : stripped.direct = none := by decide +kernel
  obtain ⟨-, ⟨-, hslots⟩, -, -, hcursor⟩ := wellFormed_of_reachable h
  exact ⟨h, by decide +kernel, ha, hdirect, hd, hslots, hcursor true hd ha hdirect⟩

end Machine

end LineBasic
