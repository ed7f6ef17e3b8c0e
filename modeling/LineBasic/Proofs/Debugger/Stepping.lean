import LineBasic.Proofs.Debugger.Pursuit
import LineBasic.Proofs.Machine.Unwinding

/-!
# Stepping over and out of calls

The debugger only counts the open calls, but calls return in order. So a step over a call, or out of
one, that is not diverted by breakpoints pauses behind the call, and deeper calls alone are executed
meanwhile. A step over anything that opens no call is a step (`steps_return`).
-/
namespace LineBasic

/-! ## Returns -/

namespace Machine

/-- With the `k`-th step of the run from `m`, and those over the remarks that follow, `n` has returned to
`back` from all but `depth` calls. -/
structure Returned (m : Machine) (answers : List String) (depth : Nat) (back : ReturnPoint) (k : Nat)
    (n : Machine) : Prop where
  depth_eq : n.depth = depth
  cursor_eq : ∃ slot, back = .slot slot ∧ n.cursor = m.program.pastRemarks slot
  above (j : Nat) (o : Machine) : 0 < j → j < k → m.after? answers j = some o → depth < o.depth

variable {m n o x : Machine} {answers : List String} {base : List ReturnPoint} {back : ReturnPoint}
  {i k : Nat}

/-- A run surfaces where the innermost of the open calls returns to. -/
theorem FirstAt.returned (h : m.FirstAt answers (Surfaced base.length) k n)
    (hcalm : ¬ m.Reruns answers k) (hi : i ≤ 1) (hik : i < k) (ho : m.after? answers i = some o)
    (hcalls : base ++ [back] <+: o.calls.toList) (hx : x.muted = n.skipRemarks.muted) :
    m.Returned answers base.length back k x := by
  obtain ⟨hbase, hback⟩ := h.unwinds hcalm ho hcalls hik
  have hrunning := status_of_isRunning h.holds.1
  obtain ⟨rest, hn⟩ := strides_of_after? h.after
  have hprogram : n.program = m.program := strides_program hn (by simp [hrunning])
  have hdirect : n.direct = none := by
    obtain ⟨j, rfl⟩ := Nat.exists_eq_succ_of_ne_zero (Nat.ne_of_gt h.pos)
    obtain ⟨y, rest, rest', -, hstride⟩ := stride_of_after? h.after
    obtain ⟨hr, rfl, -, -⟩ := stride_eq_poised hstride
    exact direct_of_isRunning (status_of_isRunning hr) h.holds.1
  obtain ⟨hcursor, hdepth⟩ := skipRemarks_place hrunning hdirect
  refine ⟨?_, ⟨n.cursor, hback, ?_⟩, fun j y hpos hj hy => ?_⟩
  · have hx' : x.depth = n.skipRemarks.depth := congrArg (·.depth) hx
    rw [hx', hdepth, depth, Stack.size_eq_length, hbase]
  · have hx' : x.cursor = n.skipRemarks.cursor := congrArg (·.cursor) hx
    rw [hx', hcursor, hprogram]
  · exact lt_depth_of_calls (h.calls_of_lt hcalm ho hcalls (by omega) hj hy)

/-- A call that is executed now returns to the next line. -/
theorem FirstAt.returned_of_call (h : m.FirstAt answers (Surfaced m.depth) k n)
    (hw : m.status ≠ .waiting) {s : Statement} (hs : m.upcoming? = some s)
    (hgosub : s.core.keyword = .gosub) (hpasses : m.passes s = true) (hcalm : ¬ m.Reruns answers k)
    (hx : x.muted = n.skipRemarks.muted) :
    m.Returned answers m.depth (.slot (m.cursor + 1)) k x := by
  have hdepth : m.calls.toList.length = m.depth := (Stack.size_eq_length _).symm
  obtain ⟨hr, hfirst⟩ := h.running hw
  have hpush := step_gosub hr hs hgosub hpasses (h.status_ne h.pos hfirst)
  have hopen : m.calls.toList ++ [m.back] <+: m.step.calls.toList := by
    rewrite [Stack.toList_push hpush]
    exact List.prefix_rfl
  have hk : 1 < k := by
    refine Nat.lt_of_le_of_ne h.pos ?_
    rintro rfl
    -- right after the call there is one more open
    cases hfirst.symm.trans h.after
    have hlt := lt_depth_of_calls hopen
    rw [hdepth] at hlt
    exact absurd h.holds.2 (Nat.not_le.2 hlt)
  rw [← hdepth] at h ⊢
  have hslot : m.back = .slot (m.cursor + 1) := by
    have hback := (h.unwinds hcalm hfirst hopen hk).2
    unfold back at hback ⊢
    split at hback
    · cases hback
    · next hd => exact if_neg hd
  rw [hslot] at hopen
  exact h.returned hcalm (Nat.le_refl 1) hk hfirst hopen hx

/-- The innermost call returns to where it was opened. -/
theorem FirstAt.returned_of_open (h : m.FirstAt answers (Surfaced base.length) k n)
    (hcalls : m.calls.toList = base ++ [back]) (hcalm : ¬ m.Reruns answers k)
    (hx : x.muted = n.skipRemarks.muted) : m.Returned answers base.length back k x := by
  have hopen : base ++ [back] <+: m.calls.toList := by
    rewrite [hcalls]
    exact List.prefix_rfl
  exact h.returned hcalm (Nat.zero_le 1) h.pos rfl hopen hx

end Machine

namespace Debugger

variable {V : Type}

theorem status_of_isPaused {d : Debugger V} (h : d.isPaused = true) :
    d.machine.status ≠ .waiting := by
  simpa [Machine.isWaiting] using (isPaused_iff.1 h).2.2

variable [Viewer V]

/-- Whatever is asked of `e` that neither edits the program nor begins a session, a pause comes when no
more than `depth` calls are open for the first time. Unless the program was started again, `back` is
where the last call has returned to. -/
def Returns (e : Debugger V) (m : Machine) (depth : Nat) (back : ReturnPoint) : Prop :=
  ∀ (answers : List String) (d : Debugger V), EnRoute (fun d r => r.Spares d) e answers d →
    d.isPaused = true → ∃ k n, m.FirstAt answers (Machine.Surfaced depth) k n ∧
      d.machine.muted = n.skipRemarks.muted ∧
      (¬ m.Reruns answers k → m.Returned answers depth back k d.machine)

theorem returns_of_first {d : Debugger V} (hp : d.isPaused = true) {depth : Nat} {back : ReturnPoint}
    (h : ∀ {answers k n x}, d.machine.FirstAt answers (Machine.Surfaced depth) k n →
      ¬ d.machine.Reruns answers k → x.muted = n.skipRemarks.muted →
      d.machine.Returned answers depth back k x) :
    (d.pursue (.depth depth) true).Returns d.machine depth back := by
  intro answers e henRoute hpaused
  have hadmits (e : Debugger V) (r : Request) (hr : r.Spares e) :
      (d.errand (.depth depth) true).Admits true e r :=
    ⟨hr, fun _ => rfl, fun _ _ => rfl⟩
  obtain ⟨k, n, hfirst, hn⟩ :=
    ((Pursuit.stage_of_onWay (Pursuit.onWay_pursue hp _ _) hadmits henRoute).arrived_of_isPaused
      hpaused).first
  have hstop : (d.errand (.depth depth) true).Stop = Machine.Surfaced depth := by
    funext n
    simp [Pursuit.Stop, errand, PausePoint.ReachedBy, Machine.Surfaced]
  rw [Pursuit.FirstStop, hstop] at hfirst
  exact ⟨k, n, hfirst, hn, fun hcalm => h hfirst hcalm hn⟩

end Debugger

/-! ## Steps that open no call -/

namespace Machine

/-- Whatever is answered, the next step leaves no more than `depth` calls open. -/
def Shallow (depth : Nat) (m : Machine) : Prop :=
  ∀ answers n rest, m.stride answers = some (n, rest) → n.depth ≤ depth

variable {m n : Machine} {depth : Nat}

theorem shallow_of_step (hw : m.status ≠ .waiting) (h : m.step.depth ≤ depth) : m.Shallow depth := by
  intro answers n rest hn
  rcases stride_eq_some hn with ⟨-, rfl, -⟩ | ⟨text, hs, -⟩
  · exact h
  · exact absurd hs hw

theorem shallow_of_stopped (h : m.status = .stopped) : m.Shallow depth := by
  intro answers n rest hn
  rw [stride_of_stopped h] at hn
  cases hn

theorem Shallow.of_muted (h : m.Shallow depth) (hn : n.muted = m.muted) : n.Shallow depth := by
  have hs := status_of_muted hn
  intro answers o rest ho
  rcases stride_eq_some ho with ⟨hr, rfl, -⟩ | ⟨text, hw, -, hr, rfl⟩
  · have hdepth : n.step.depth = m.step.depth := congrArg (·.depth) (step_muted hn)
    rw [hdepth]
    exact h [] _ _ (stride_of_running (hs.symm.trans hr) [])
  · have ht := takeAnswer_muted hn text
    have hdepth : (n.takeAnswer text).step.depth = (m.takeAnswer text).step.depth :=
      congrArg (·.depth) (step_muted ht)
    have hr' : (m.takeAnswer text).isRunning = true := by
      rw [← hr, isRunning, isRunning, status_of_muted ht]
    rw [hdepth]
    exact h [text] _ _ (stride_of_answer (hs.symm.trans hw) hr' [])

theorem Shallow.takeAnswer (h : m.Shallow depth) (hw : m.status = .waiting) (text : String) :
    (m.takeAnswer text).Shallow depth := by
  intro answers n rest hn
  rcases stride_eq_some hn with ⟨hr, rfl, -⟩ | ⟨_, hw', -⟩
  · exact h [text] _ _ (stride_of_answer hw (by simp [isRunning, hr]) [])
  · exact absurd hw' (takeAnswer_status m text)

/-- A step that does not go on leads to a wait or an end, and no call is opened after either. -/
theorem Shallow.step (h : m.Shallow depth) (hr : m.isRunning = true) (hs : ¬ m.step.isRunning = true) :
    m.step.Shallow depth := by
  have hdepth := h [] _ _ (stride_of_running (status_of_isRunning hr) [])
  cases hstatus : m.step.status with
  | stopped => exact shallow_of_stopped hstatus
  | running => exact absurd (by simp [isRunning, hstatus]) hs
  | waiting =>
    intro answers n rest hn
    rcases stride_eq_some hn with ⟨hs', -⟩ | ⟨text, -, -, hrun, rfl⟩
    · cases hs'.symm.trans hstatus
    · rw [Machine.depth, step_takeAnswer_calls hr hstatus hrun]
      exact hdepth

end Machine

namespace Debugger

section Pace

variable {V : Type}

def withPace (d : Debugger V) (p : Pace) : Debugger V :=
  { d with pace := p }

variable [Viewer V]

theorem inform_withPace (d : Debugger V) (p : Pace) (msgs : List Message) :
    (d.withPace p).inform msgs = (d.inform msgs).withPace p := by
  unfold inform
  rw [show (d.withPace p).viewer = d.viewer from rfl]
  split <;> rfl

theorem toggle_withPace (d : Debugger V) (p : Pace) (label : Label) :
    (d.withPace p).toggle label = ((d.toggle label).1, (d.toggle label).2.withPace p) :=
  Prod.ext rfl (inform_withPace { d with breakpoints := toggled d.breakpoints label } p _)

theorem submit_withPace {d : Debugger V} (ha : d.active = true) {text : String}
    (h : (Request.submit text).Spares d) (p : Pace) :
    (d.withPace p).submit text = ((d.submit text).1, (d.submit text).2.withPace p) := by
  have ha' : (d.withPace p).active = true := ha
  unfold submit
  rw [show (d.withPace p).machine = d.machine from rfl]
  split
  · rfl
  · next hw =>
    have hlabel := h.resolve_left hw
    unfold Machine.parse
    cases hparse : Statement.parse text with
    | error e => rfl
    | ok s =>
      have hs : ¬ s.label.isSome = true := by simp [hlabel s hparse]
      dsimp only
      rw [if_neg hs, if_neg hs, if_pos ha, if_pos ha']
      rfl

end Pace

variable {V : Type}

/-- On the way: the session has neither paused nor ended. -/
def Moving (d : Debugger V) : Prop :=
  d.active = true ∧ d.isPaused = false

/-- The two are the same, or both are about to make the same step. -/
inductive Twins (depth : Nat) (force : Bool) (d e : Debugger V) : Prop
  | same (eq : e = d)
  | apart (active : d.active = true) (pace : d.pace = .toward .nextStatement true)
      (shallow : d.machine.Shallow depth) (eq : e = d.withPace (.toward (.depth depth) force))

variable {depth : Nat} {force : Bool} {d e : Debugger V}

theorem Twins.eq_or_moving (h : Twins depth force d e) : e = d ∨ d.Moving ∧ e.Moving := by
  cases h with
  | same h => exact .inl h
  | apart ha hp _ h =>
    subst h
    exact .inr ⟨⟨ha, by simp [isPaused, hp]⟩, ha, by simp [isPaused, withPace]⟩

theorem twins_setMachine (ha : d.active = true) (hp : d.pace = .toward .nextStatement true) {m : Machine}
    (h : m.Shallow depth) :
    Twins depth force { d with machine := m }
      (withPace { d with machine := m } (.toward (.depth depth) force)) :=
  .apart ha hp h rfl

theorem Twins.spares (h : Twins depth force d e) {r : Request} (hr : r.Spares d) : r.Spares e := by
  have hm : e.machine = d.machine := by
    cases h with
    | same h => rw [h]
    | apart _ _ _ h => rw [h]; rfl
  cases r with
  | submit text =>
    rw [Request.Spares, hm]
    exact hr
  | begin => exact hr
  | _ => trivial

variable [Viewer V]

/-- A step that goes on is followed by a pause in both. -/
theorem twins_step (ha : d.active = true) (hp : d.pace = .toward .nextStatement true)
    (hs : d.machine.Shallow depth) (hr : d.machine.isRunning = true) :
    Twins depth force (d.step .nextStatement true)
      ((d.withPace (.toward (.depth depth) force)).step (.depth depth) force) := by
  have hdepth := hs [] _ _ (Machine.stride_of_running (Machine.status_of_isRunning hr) [])
  unfold step
  dsimp only
  by_cases hrun : d.machine.step.isRunning = true
  · rw [if_pos (by simp [hrun, reached]), if_pos (by simp [withPace, hrun, reached, hdepth])]
    exact .same rfl
  · rw [if_neg (by simp [hrun]), if_neg (by simp [withPace, hrun])]
    exact twins_setMachine ha hp (hs.step hr hrun)

theorem Twins.turn (h : Twins depth force d e) : Turn.Both (Twins depth force) d.turn e.turn := by
  cases h with
  | same h =>
    subst h
    cases e.turn with
    | event ev e' => exact .event ev (.same rfl)
    | step e' => exact .step (.same rfl)
  | apart ha hp hs h =>
    subst h
    have ha' : (d.withPace (.toward (.depth depth) force)).active = true := ha
    cases hev : d.machine.events with
    | cons ev es =>
      rw [turn_of_cons ha hev, turn_of_cons ha' hev]
      exact .event ev (twins_setMachine ha hp (hs.of_muted rfl))
    | nil =>
      cases hst : d.machine.status with
      | stopped =>
        rw [turn_of_stopped ha hev hst, turn_of_stopped ha' hev hst]
        exact .event _ (.same rfl)
      | waiting =>
        rw [turn_of_waiting ha hev hst, turn_of_waiting ha' hev hst]
        exact .event _ (.apart ha hp hs rfl)
      | running =>
        rw [turn_of_toward ha hev hst hp, turn_of_toward ha' hev hst rfl]
        exact .step (twins_step ha hp hs (by simp [Machine.isRunning, hst]))

theorem Twins.serve (h : Twins depth force d e) {r : Request} (hr : r.Spares d) :
    (e.serve r).1 = (d.serve r).1 ∧ Twins depth force (d.serve r).2 (e.serve r).2 := by
  cases h with
  | same h =>
    subst h
    exact ⟨rfl, .same rfl⟩
  | apart ha hp hs h =>
    subst h
    cases r with
    | begin => exact hr.elim
    | breakOff =>
      refine ⟨rfl, twins_setMachine ha hp ?_⟩
      rcases d.machine.breakOff_eq with he | ⟨e, he⟩ <;> rw [he]
      · exact hs
      · exact Machine.shallow_of_stopped rfl
    | toggle label =>
      rw [Debugger.serve, toggle_withPace]
      refine ⟨rfl, ?_⟩
      obtain ⟨v, hv⟩ := inform_eq { d with breakpoints := toggled d.breakpoints label } [.breakpoint label]
      refine .apart ?_ ?_ ?_ rfl <;> rw [Debugger.serve, toggle_snd, hv]
      · exact ha
      · exact hp
      · exact hs
    | submit text =>
      rw [Debugger.serve, submit_withPace ha hr]
      refine ⟨rfl, ?_⟩
      rcases submit_of_spares ha hr with ⟨hw, hsub⟩ | ⟨-, err, hsub⟩ <;> rw [Debugger.serve, hsub]
      · exact twins_setMachine ha hp (hs.takeAnswer hw text)
      · exact twins_setMachine ha hp (hs.of_muted rfl)
    | proceed steps =>
      have htwins : Twins depth force d (d.withPace (.toward (.depth depth) force)) := .apart ha hp hs rfl
      obtain ⟨hevent, hafter⟩ := Turn.run_both (fun _ _ => Twins.turn) steps htwins
      rw [Debugger.serve, Debugger.serve, untilEvent_eq_run, untilEvent_eq_run]
      exact ⟨congrArg Reply.event hevent.symm, hafter⟩
    | stepIn | stepOver | stepOut | runToBreakpoint | runToSlot =>
      refine ⟨rfl, ?_⟩
      rw [serve_of_isCommand (by simp [isPaused, hp]) rfl,
        serve_of_isCommand (by simp [isPaused, withPace]) rfl]
      exact .apart ha hp hs rfl

/-- From `d₀` on these requests have been made, with these replies. None of them has edited the program
or begun a session. -/
inductive Unedited (d₀ : Debugger V) : List Request → List Reply → Debugger V → Prop
  | refl : Unedited d₀ [] [] d₀
  | serve {rs : List Request} {ps : List Reply} {d : Debugger V} (r : Request) : Unedited d₀ rs ps d →
      r.Spares d → Unedited d₀ (rs ++ [r]) (ps ++ [(d.serve r).1]) (d.serve r).2

/-- Whatever is asked of both, the replies are the same. So are the debuggers, unless both are still on
the way. -/
def Interchangeable (d e : Debugger V) : Prop :=
  ∀ (rs : List Request) (ps : List Reply) (d' : Debugger V), Unedited d rs ps d' →
    ∃ e', Unedited e rs ps e' ∧ (e' = d' ∨ d'.Moving ∧ e'.Moving)

theorem Twins.interchangeable (h : Twins depth force d e) : Interchangeable d e := by
  intro rs ps d' hd
  suffices ∃ e', Unedited e rs ps e' ∧ Twins depth force d' e' by
    obtain ⟨e', he, htwins⟩ := this
    exact ⟨e', he, htwins.eq_or_moving⟩
  induction hd with
  | refl => exact ⟨e, .refl, h⟩
  | serve r _ hr ih =>
    obtain ⟨e', he, htwins⟩ := ih
    obtain ⟨hreply, hafter⟩ := htwins.serve hr
    rw [← hreply]
    exact ⟨_, he.serve r (htwins.spares hr), hafter⟩

/-- A step over something that opens no call is a step. -/
theorem stepIn_interchangeable (hp : d.isPaused = true) (h : d.machine.step.depth ≤ d.machine.depth)
    (force : Bool) : Interchangeable d.stepIn (d.stepOver force) := by
  have ha : d.active = true := by
    simp only [isPaused, Bool.and_eq_true] at hp
    exact hp.1.1
  rw [stepIn, stepOver, pursue, pursue, if_pos hp, if_pos hp]
  have hshallow := Machine.shallow_of_step (status_of_isPaused hp) h
  exact Twins.interchangeable (d := d.withPace _) (.apart ha rfl hshallow rfl)

/-- A step over a call and a step out of one pause where the call returns to, and a step over anything
else is a step. -/
theorem steps_return (hp : d.isPaused = true) :
    (∀ s, d.machine.upcoming? = some s → s.core.keyword = .gosub → d.machine.passes s = true →
        (d.stepOver true).Returns d.machine d.machine.depth (.slot (d.machine.cursor + 1))) ∧
      (∀ depth, d.machine.depth = depth + 1 →
        ∃ back, d.machine.calls.toList.getLast? = some back ∧
          (d.stepOut true).Returns d.machine depth back) ∧
      (d.machine.step.depth ≤ d.machine.depth → ∀ force, Interchangeable d.stepIn (d.stepOver force)) := by
  refine ⟨fun s hs hgosub hpasses => ?_, fun depth hdepth => ?_, stepIn_interchangeable hp⟩
  · exact returns_of_first hp (fun hfirst hcalm hx =>
      hfirst.returned_of_call (status_of_isPaused hp) hs hgosub hpasses hcalm hx)
  · rw [Machine.depth, Stack.size_eq_length] at hdepth
    rcases List.eq_nil_or_concat d.machine.calls.toList with hnil | ⟨base, back, hcalls⟩
    · rw [hnil] at hdepth
      cases hdepth
    · rw [List.concat_eq_append] at hcalls
      have hbase : base.length = depth := by
        rw [hcalls, List.length_append] at hdepth
        exact Nat.succ.inj hdepth
      refine ⟨back, by rw [hcalls, List.getLast?_concat], ?_⟩
      have hstepOut : d.stepOut true = d.pursue (.depth depth) true := by
        rw [stepOut, Machine.depth, Stack.size_eq_length, hdepth]
      rw [hstepOut]
      subst hbase
      exact returns_of_first hp (fun hfirst hcalm hx => hfirst.returned_of_open hcalls hcalm hx)

/-- A debugger that is paused at a call behind a condition. The call asks for a number and makes another
call, and a remark follows. -/
def nested : Debugger Silent :=
  let m := ((((((Machine.ofSeed 1).submit "10 IF 1 = 1 THEN GOSUB 40").2.submit "20 REM").2.submit
    "30 END").2.submit "40 INPUT A").2.submit "50 GOSUB 60").2.submit "60 RETURN"
  (serve { machine := m.2, viewer := ⟨⟩ } .begin).2

theorem reachable_nested : Reachable nested :=
  (Reachable.fresh _ (((((((Machine.Reachable.fresh (.ofSeed 1)).submit _).submit _).submit _).submit _).submit
    _).submit _)).serve .begin

/-- No step of it starts the program again. -/
theorem not_reruns_nested (k : Nat) : ¬ nested.machine.Reruns ["7"] k := by
  rintro ⟨j, n, rest, -, hn, hrestarts⟩
  have hend : (nested.machine.strides ["7"] 9).isNone = true := by decide +kernel
  have hcalm : ∀ j < 9, (nested.machine.strides ["7"] j).all
      (fun r => !(r.1.poised r.2).restarts) = true := by decide +kernel
  have hj : j < 9 := by
    by_contra hj
    obtain ⟨r, hr⟩ := Machine.strides_of_le hn (Nat.le_of_not_lt hj)
    rw [hr] at hend
    cases hend
  have hall := hcalm j hj
  rw [hn] at hall
  simp [hrestarts] at hall

theorem stepOver_nested :
    Reachable nested ∧ ∃ d, EnRoute (fun d r => r.Spares d) (nested.stepOver true) ["7"] d ∧
      d.isPaused = true ∧ d.machine.cursor = 2 ∧ ∃ k n,
        nested.machine.FirstAt ["7"] (Machine.Surfaced 0) k n ∧
        d.machine.muted = n.skipRemarks.muted ∧
        nested.machine.Returned ["7"] 0 (.slot 1) k d.machine := by
  have h0 : EnRoute (fun d r => r.Spares d) (nested.stepOver true) [] _ := .refl
  have h1 := h0.serve (.proceed 9) (by decide +kernel) (by decide +kernel) trivial
  have h2 := h1.serve (.submit "7") (by decide +kernel) (by decide +kernel) (.inl (by decide +kernel))
  have h3 := h2.serve (.proceed 9) (by decide +kernel) (by decide +kernel) trivial
  generalize hanswers : _ ++ Request.given _ (.proceed 9) = answers at h3
  have hseven : answers = ["7"] := by
    rw [← hanswers]
    decide +kernel
  subst hseven
  have hcall : nested.machine.upcoming? = some ⟨.cond, [.expression [.number "1"], .op .equal,
      .expression [.number "1"], .statement ⟨.gosub, [.expression [.number "40"]], none⟩], some 10⟩ := by
    decide +kernel
  have hdepth : nested.machine.depth = 0 := by decide +kernel
  have hcursor : nested.machine.cursor = 0 := by decide +kernel
  have hsteps := (steps_return (d := nested) (by decide +kernel)).1 _ hcall rfl (by decide +kernel)
  rw [hdepth, hcursor] at hsteps
  obtain ⟨k, n, hfirst, hn, hreturned⟩ := hsteps _ _ h3 (by decide +kernel)
  exact ⟨reachable_nested, _, h3, by decide +kernel, by decide +kernel, k, n, hfirst, hn,
    hreturned (not_reruns_nested k)⟩

end Debugger

end LineBasic
