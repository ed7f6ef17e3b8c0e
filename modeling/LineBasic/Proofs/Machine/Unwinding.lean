import LineBasic.Proofs.Machine.Return
import LineBasic.Proofs.Machine.Strides

/-!
# Calls return in order

The open calls of a run are a stack: unless the program is started again, a step leaves them alone, opens
one on top of them or returns from the topmost (`GoesOn`). So as long as some calls stay open they stay
as they are, and when the innermost of them is gone, the run is where that call returns to (`unwinds`).
-/
namespace LineBasic.Machine

variable {α β : Type}

/-! ## Statements that ask -/

theorem ok_of_bind {x : ExecM α} {f : α → ExecM β} {m n : Machine} {b : β}
    (h : (x >>= f) m = .ok b n) : ∃ a o, f a o = .ok b n := by
  cases hx : x m with
  | ok a o => exact ⟨a, o, (bind_of_ok hx).symm.trans h⟩
  | error e o => cases (bind_of_error hx).symm.trans h

/-- A step that does not end the run executes a statement. -/
theorem exec_of_step {m : Machine} (hr : m.isRunning = true) (h : m.step.status ≠ .stopped) :
    ∃ s q n, m.upcoming? = some s ∧ exec s m = .ok q n ∧ m.step = n.follow s.label q := by
  cases hs : m.upcoming? with
  | none =>
    rw [step, if_pos hr, hs] at h
    exact absurd rfl h
  | some s =>
    have hstep := step_eq_of_exec hr hs
    cases hx : exec s m with
    | error e n =>
      rw [hstep, hx] at h
      exact absurd rfl h
    | ok q n =>
      rw [hx] at hstep
      exact ⟨s, q, n, rfl, hx, hstep⟩

/-- Only a statement that asks for variables waits. -/
theorem asked?_of_wait {s : Statement} {m n : Machine} (h : exec s m = .ok .wait n) :
    ∃ vs, s.asked? = some vs := by
  fun_induction exec s generalizing m with
  | case3 args => exact ⟨args, rfl⟩
  | case4 a o b s _ ih =>
    obtain ⟨x, m, h⟩ := ok_of_bind h
    obtain ⟨y, m, h⟩ := ok_of_bind h
    cases ho : o.holds x y with
    | false =>
      rw [ho] at h
      cases h
    | true =>
      rw [ho] at h
      exact ih h
  | case1 | case2 | case6 =>
    obtain ⟨_, m, h⟩ := ok_of_bind h
    obtain ⟨_, m, h⟩ := ok_of_bind h
    cases h
  | case5 | case8 | case9 =>
    obtain ⟨_, m, h⟩ := ok_of_bind h
    cases h
  | case7 =>
    obtain ⟨back, m, h⟩ := ok_of_bind h
    cases back <;> cases h
  | case10 | case11 | case12 | case13 | case14 => cases h

/-- A statement that asks for variables leaves the open calls alone. -/
theorem Asks.step_calls {m : Machine} {s : Statement} {vs : List Token} (h : m.Asks s vs) :
    m.step.calls = m.calls := by
  have hcond : (final (conditions s m)).calls = m.calls := by
    obtain ⟨g, hg⟩ := draws_conditions s m
    rw [hg]
  rw [step_eq_of_exec h.running h.upcoming]
  cases hc : conditions s m with
  | error e n =>
    rw [hc] at hcond
    rw [exec_of_conditions_error h.asked hc]
    exact hcond
  | ok b n =>
    rw [hc] at hcond
    rw [exec_of_conditions h.asked hc]
    cases b with
    | false => exact (follow_calls n s.label (q := .next) (by simp)).1.trans hcond
    | true =>
      have hquiet := tacit_basic.fill (vs.drop n.filled) n
      have hfills := fill_fills (vs.drop n.filled) n
      show (conclude s.label (fill (vs.drop n.filled) n)).calls = m.calls
      generalize fill (vs.drop n.filled) n = r at hquiet hfills ⊢
      have hcalls : (final r).calls = m.calls := hquiet.calls.trans hcond
      cases hfills with
      | error => exact hcalls
      | wait => exact hcalls
      | done => exact (follow_calls _ s.label (q := .next) (by simp)).1.trans hcalls

theorem wait_of_follow {m : Machine} (hs : m.status = .running) {label : Option Label} {q : Sequel}
    (h : (m.follow label q).status = .waiting) : q = .wait := by
  have hmove (m : Machine) (hs : m.status = .running) (slot : Nat) :
      (m.moveTo slot label).status ≠ .waiting := by
    unfold moveTo
    dsimp only
    split
    · simp [hs]
    · simp [abort]
  cases q with
  | wait => rfl
  | next =>
    rw [follow] at h
    split at h
    · cases h
    · exact absurd h (hmove m hs _)
  | jump slot => exact absurd h (hmove { m with direct := none } hs slot)
  | halt => cases h
  | restart =>
    change (if m.program.isEmpty then Status.stopped else .running) = .waiting at h
    split at h <;> cases h

/-- A step after which a machine waits is one of a statement that asks, and stays on it. -/
theorem asks_of_wait {m : Machine} (hr : m.isRunning = true) (hw : m.step.status = .waiting) :
    ∃ s vs, m.step.upcoming? = some s ∧ s.asked? = some vs := by
  have hup : m.step.upcoming? = m.upcoming? := by
    cases step_lands (status_of_isRunning hr) with
    | stopped hs => cases hs.symm.trans hw
    | waiting _ hd hp hc => rw [upcoming?, upcoming?, hd, hp, hc]
    | running hs => cases hs.symm.trans hw
  obtain ⟨s, q, n, hs, hx, hstep⟩ := exec_of_step hr (by simp [hw])
  have hstatus := status_of_isRunning hr
  have hq : q = .wait := by
    have hout := exec_outcome s m
    rw [hx] at hout
    rw [hstep] at hw
    cases hout with
    | went quiet => exact wait_of_follow (quiet.status.trans hstatus) hw
    | @called slot n calls quiet =>
      exact wait_of_follow (m := { n with calls }) (quiet.status.trans hstatus) hw
    | @returned back n calls quiet =>
      exact wait_of_follow (m := { n with calls }) (quiet.status.trans hstatus) hw
    | cleared => cases hw
  subst hq
  obtain ⟨vs, hvs⟩ := asked?_of_wait hx
  exact ⟨s, vs, hup.trans hs, hvs⟩

theorem takeAnswer_calls (m : Machine) (text : String) : (m.takeAnswer text).calls = m.calls := by
  rcases takeAnswer_eq m text with ⟨n, vs, quiet, h⟩ | ⟨n, e, quiet, -, h⟩ <;> rw [h] <;>
    exact quiet.calls

/-- The step that an answer leads to leaves the open calls alone. -/
theorem step_takeAnswer_calls {m : Machine} (hr : m.isRunning = true) (hw : m.step.status = .waiting)
    {text : String} (h : (m.step.takeAnswer text).isRunning = true) :
    (m.step.takeAnswer text).step.calls = m.step.calls := by
  obtain ⟨s, vs, hs, hvs⟩ := asks_of_wait hr hw
  have hup : (m.step.takeAnswer text).upcoming? = some s := by
    rcases takeAnswer_eq m.step text with ⟨n, values, quiet, ht⟩ | ⟨n, e, -, -, ht⟩ <;> rw [ht] at h ⊢
    · rw [← hs]
      show n.upcoming? = _
      rw [upcoming?, upcoming?, quiet.direct, quiet.program, quiet.cursor]
    · cases h
  have hasks : Asks (m.step.takeAnswer text) s vs := ⟨h, hup, hvs⟩
  rw [hasks.step_calls, takeAnswer_calls]

/-- The statement about to be executed starts the program again. -/
def restarts (m : Machine) : Bool :=
  match m.upcoming? with
  | none => false
  | some s =>
    match exec s m with
    | .ok .restart _ => true
    | _ => false

theorem restarts_of_exec {m n : Machine} {s : Statement} (hs : m.upcoming? = some s)
    (h : exec s m = .ok .restart n) : m.restarts = true := by
  rw [restarts, hs]
  dsimp only
  rw [h]

/-! ## Steps -/

/-- What a step of a run that goes on does to the open calls. -/
inductive GoesOn (m n : Machine) : Prop
  | kept (calls : n.calls = m.calls)
  | opened (calls : m.calls.push m.back = .ok n.calls)
  | closed {slot : Nat} (calls : m.calls.pop = .ok (.slot slot, n.calls)) (cursor : n.cursor = slot)
      (running : n.isRunning = true)
  | restarted (restarts : m.restarts = true)

/-- A move that does not end the run leads to its target. -/
theorem moveTo_goesOn {m : Machine} {slot : Nat} {label : Option Label}
    (h : (m.moveTo slot label).status ≠ .stopped) : m.moveTo slot label = { m with cursor := slot } := by
  unfold moveTo at h ⊢
  dsimp only at h ⊢
  split at h
  · next hlt => exact if_pos hlt
  · exact absurd rfl h

theorem step_goesOn {m : Machine} (hr : m.isRunning = true) (h : m.step.status ≠ .stopped) :
    GoesOn m m.step := by
  obtain ⟨s, q, n, hs, hx, hstep⟩ := exec_of_step hr h
  have hout := exec_outcome s m
  rw [hx] at hout
  rw [hstep] at h ⊢
  cases hout with
  | went quiet =>
    by_cases hq : q = .restart
    · subst hq
      exact .restarted (restarts_of_exec hs hx)
    · exact .kept ((follow_calls n s.label hq).1.trans quiet.calls)
  | @called slot n calls quiet _ push =>
    have hcalls := (follow_calls { n with calls } s.label (q := .jump slot) (by simp)).1
    exact .opened (push.trans (congrArg _ hcalls.symm))
  | @returned back n calls quiet pop =>
    cases back with
    | direct => exact absurd rfl h
    | slot slot =>
      have hmove : follow { n with calls } s.label (ReturnPoint.slot slot).sequel =
          { n with calls, direct := none, cursor := slot } :=
        moveTo_goesOn (m := { n with calls, direct := none }) h
      rw [hmove]
      refine .closed pop rfl ?_
      simp [isRunning, quiet.status, status_of_isRunning hr]
  | cleared => exact absurd rfl h

/-- A call that is executed is on top of the others. -/
theorem exec_gosub {s : Statement} (hs : s.keyword = .gosub) {m n : Machine} {q : Sequel}
    (h : exec s m = .ok q n) : q ≠ .restart ∧ m.calls.push m.back = .ok n.calls := by
  obtain ⟨k, args, l⟩ := s
  cases hs
  rw [exec] at h
  have hquiet := tacit_basic.destination .gosub args m
  cases hd : destination .gosub args m with
  | error e o => cases (bind_of_error hd).symm.trans h
  | ok slot o =>
    rw [hd] at hquiet
    have hcalls : o.calls = m.calls := hquiet.calls
    have hback : o.back = m.back := hquiet.back_eq
    rw [bind_of_ok hd] at h
    cases hp : o.calls.push o.back with
    | error e => cases (bind_of_error (openCall_of_error hp)).symm.trans h
    | ok calls =>
      cases (bind_of_ok (openCall_of_push hp)).symm.trans h
      rw [hcalls, hback] at hp
      exact ⟨by simp, hp⟩

/-- A step that executes a `GOSUB` opens a call, or ends the run. -/
theorem step_gosub {m : Machine} {s : Statement} (hr : m.isRunning = true) (hs : m.upcoming? = some s)
    (hgosub : s.core.keyword = .gosub) (hp : m.passes s = true) (h : m.step.status ≠ .stopped) :
    m.calls.push m.back = .ok m.step.calls := by
  obtain ⟨s', q, n, hs', hx, hstep⟩ := exec_of_step hr h
  cases hs.symm.trans hs'
  obtain ⟨g, hg⟩ := exec_of_passes hp
  obtain ⟨hq, hpush⟩ := exec_gosub hgosub (hg.symm.trans hx)
  rw [hstep, (follow_calls n s.label hq).1]
  exact hpush

/-- As long as some calls stay open, they stay as they are. When the innermost of them closes, the run
goes on where it returns to. -/
theorem GoesOn.unwinds {m n : Machine} (h : GoesOn m n) (hm : m.restarts = false)
    {base : List ReturnPoint} {back : ReturnPoint} (hcalls : base ++ [back] <+: m.calls.toList) :
    base ++ [back] <+: n.calls.toList ∨
      n.isRunning = true ∧ n.calls.toList = base ∧ back = .slot n.cursor := by
  cases h with
  | kept calls =>
    left
    rwa [calls]
  | opened calls =>
    left
    rw [Stack.toList_push calls]
    exact hcalls.trans (List.prefix_append _ _)
  | @closed slot calls hcursor hrun =>
    rw [Stack.toList_pop calls] at hcalls
    rcases List.prefix_concat_iff.1 hcalls with heq | hcalls
    · obtain ⟨hbase, hback⟩ := List.append_inj' heq rfl
      right
      refine ⟨hrun, hbase.symm, ?_⟩
      rw [hcursor]
      exact List.singleton_inj.1 hback
    · exact .inl hcalls
  | restarted hr => cases hm.symm.trans hr

/-! ## Runs -/

/-- The machine that makes the next step: this one, or what the next answer makes of it. -/
def poised (m : Machine) (answers : List String) : Machine :=
  match m.status, answers with
  | .waiting, text :: _ => m.takeAnswer text
  | _, _ => m

/-- One of the first `k` steps of the run starts the program again. -/
def Reruns (m : Machine) (answers : List String) (k : Nat) : Prop :=
  ∃ j n rest, j < k ∧ m.strides answers j = some (n, rest) ∧ (n.poised rest).restarts = true

section

variable {m n o : Machine} {answers rest : List String} {k : Nat}

theorem stride_eq_poised (h : m.stride answers = some (n, rest)) :
    (m.poised answers).isRunning = true ∧ n = (m.poised answers).step ∧
      (m.poised answers).calls = m.calls ∧ (m.poised answers).program = m.program := by
  rcases stride_eq_some h with ⟨hs, hn, -⟩ | ⟨text, hs, rfl, hr, hn⟩
  · have hp : m.poised answers = m := by
      unfold poised
      rw [hs]
    rw [hp]
    exact ⟨by simp [isRunning, hs], hn, rfl, rfl⟩
  · have hp : m.poised (text :: rest) = m.takeAnswer text := by
      unfold poised
      rw [hs]
    rw [hp]
    exact ⟨hr, hn, takeAnswer_calls m text, takeAnswer_program m text⟩

/-- A run that goes on has not stopped. -/
theorem status_of_stride (h : m.stride answers = some (n, rest)) : m.status ≠ .stopped := by
  intro hs
  rw [stride_of_stopped hs] at h
  cases h

/-- Only the end of a run can take the program away. -/
theorem strides_program (h : m.strides answers k = some (n, rest)) (hs : n.status ≠ .stopped) :
    n.program = m.program := by
  induction k generalizing n rest with
  | zero =>
    cases h
    rfl
  | succ k ih =>
    obtain ⟨⟨o, rest'⟩, ho, h⟩ := Option.bind_eq_some_iff.1 h
    obtain ⟨hr, rfl, -, hprogram⟩ := stride_eq_poised h
    have hstep : (o.poised rest').step.program = (o.poised rest').program := by
      cases step_lands (status_of_isRunning hr) with
      | stopped hs' => exact absurd hs' hs
      | waiting _ _ hp => exact hp
      | running _ _ hp => exact hp
    exact hstep.trans (hprogram.trans (ih ho (status_of_stride h)))

/-- A step of a run that goes on leaves the calls open, or returns from the innermost. -/
theorem unwinds_stride {j : Nat} {rest' : List String} (ho : m.strides answers j = some (o, rest))
    (hn : o.stride rest = some (n, rest')) (hs : n.status ≠ .stopped) (hcalm : ¬ m.Reruns answers k)
    (hj : j < k) {base : List ReturnPoint} {back : ReturnPoint}
    (hcalls : base ++ [back] <+: o.calls.toList) :
    base ++ [back] <+: n.calls.toList ∨
      n.isRunning = true ∧ n.calls.toList = base ∧ back = .slot n.cursor := by
  obtain ⟨hr, rfl, hsame, -⟩ := stride_eq_poised hn
  have hrestarts : (o.poised rest).restarts = false := by
    rw [← Bool.not_eq_true]
    exact fun h => hcalm ⟨j, o, rest, hj, ho, h⟩
  exact (step_goesOn hr hs).unwinds hrestarts (hsame ▸ hcalls)

/-! ## The return -/

/-- The run goes on, and no more than `depth` calls are open. -/
def Surfaced (depth : Nat) (n : Machine) : Prop :=
  n.isRunning = true ∧ n.depth ≤ depth

theorem lt_depth_of_calls {base : List ReturnPoint} {back : ReturnPoint}
    (h : base ++ [back] <+: n.calls.toList) : base.length < n.depth := by
  have hle := h.length_le
  rw [List.length_append, List.length_singleton, ← Stack.size_eq_length] at hle
  exact hle

theorem surfaced_of_calls {base : List ReturnPoint} (hr : n.isRunning = true)
    (h : n.calls.toList = base) : Surfaced base.length n := by
  refine ⟨hr, Nat.le_of_eq ?_⟩
  rw [depth, Stack.size_eq_length, h]

/-- The places of a run come one after the other. -/
theorem stride_of_after? (h : m.after? answers (k + 1) = some n) :
    ∃ o rest rest', m.strides answers k = some (o, rest) ∧ o.stride rest = some (n, rest') := by
  obtain ⟨rest', h⟩ := strides_of_after? h
  obtain ⟨⟨o, rest⟩, ho, h⟩ := Option.bind_eq_some_iff.1 h
  exact ⟨o, rest, rest', ho, h⟩

/-- On the way to the surface the run goes on. -/
theorem FirstAt.status_ne {depth j : Nat} (h : m.FirstAt answers (Surfaced depth) k n) (hj : j ≤ k)
    (ho : m.after? answers j = some o) : o.status ≠ .stopped := by
  rcases Nat.lt_or_eq_of_le hj with hj | rfl
  · obtain ⟨x, hx⟩ := after?_of_le h.after hj
    obtain ⟨o', rest, rest', ho', hstride⟩ := stride_of_after? hx
    cases (after?_of_strides ho').symm.trans ho
    exact status_of_stride hstride
  · cases h.after.symm.trans ho
    simp [status_of_isRunning h.holds.1]

/-- The first step is that of the machine itself, unless it waits. -/
theorem FirstAt.running {depth : Nat} (h : m.FirstAt answers (Surfaced depth) k n)
    (hw : m.status ≠ .waiting) : m.isRunning = true ∧ m.after? answers 1 = some m.step := by
  have hr : m.status = .running := by
    cases hs : m.status with
    | stopped => exact absurd hs (h.status_ne (Nat.zero_le k) rfl)
    | waiting => exact absurd hs hw
    | running => rfl
  have hfirst : m.strides answers 1 = some (m.step, answers) := stride_of_running hr answers
  exact ⟨by simp [isRunning, hr], after?_of_strides hfirst⟩

section Return

variable {base : List ReturnPoint} {back : ReturnPoint} {i : Nat}

/-- Until a run surfaces, the calls stay open. -/
theorem FirstAt.calls_of_lt (h : m.FirstAt answers (Surfaced base.length) k n)
    (hcalm : ¬ m.Reruns answers k) (ho : m.after? answers i = some o)
    (hcalls : base ++ [back] <+: o.calls.toList) {j : Nat} (hij : i ≤ j) (hj : j < k) {x : Machine}
    (hx : m.after? answers j = some x) : base ++ [back] <+: x.calls.toList := by
  induction j, hij using Nat.le_induction generalizing x with
  | base =>
    cases ho.symm.trans hx
    exact hcalls
  | succ j hij ih =>
    obtain ⟨y, rest, rest', hy, hstride⟩ := stride_of_after? hx
    have hopen := ih (Nat.lt_of_succ_lt hj) (after?_of_strides hy)
    have hs := h.status_ne (Nat.le_of_lt hj) hx
    rcases unwinds_stride hy hstride hs hcalm (Nat.lt_of_succ_lt hj) hopen with hx' | ⟨hr, hx', -⟩
    · exact hx'
    · exact absurd (surfaced_of_calls hr hx') (h.before _ x (Nat.succ_pos j) hj hx)

/-- A run surfaces where the innermost of the calls that were open all the time returns to. -/
theorem FirstAt.unwinds (h : m.FirstAt answers (Surfaced base.length) k n)
    (hcalm : ¬ m.Reruns answers k) (ho : m.after? answers i = some o)
    (hcalls : base ++ [back] <+: o.calls.toList) (hi : i < k) :
    n.calls.toList = base ∧ back = .slot n.cursor := by
  obtain ⟨j, rfl⟩ := Nat.exists_eq_succ_of_ne_zero (Nat.ne_of_gt h.pos)
  obtain ⟨x, rest, rest', hx, hstride⟩ := stride_of_after? h.after
  have hopen := h.calls_of_lt hcalm ho hcalls (Nat.le_of_lt_succ hi) (Nat.lt_succ_self j)
    (after?_of_strides hx)
  have hs := h.status_ne (Nat.le_refl _) h.after
  rcases unwinds_stride hx hstride hs hcalm (Nat.lt_succ_self j) hopen with hn | ⟨-, hn⟩
  · exact absurd h.holds.2 (Nat.not_le.2 (lt_depth_of_calls hn))
  · exact hn

end Return

end

end LineBasic.Machine
