import LineBasic.Proofs.Debugger.Queue

/-!
# Budgets do not matter

Calls with any budgets deliver the same events in the same order and leave the same state behind, as far as
they go. The measure is a run in one piece, which executes its statements and fetches no event on the way
(`Process.said`): the calls deliver nothing that it does not say, deliver all that it says if they go on, and
leave nothing in the queue when it rests (`untilEvent_unsliced`).
-/
namespace LineBasic

theorem Event.not_isRest_of_isOutput {e : Event} (he : e.isOutput = true) : ¬ e.isRest = true := by
  cases e with
  | print | list | error => exact Bool.false_ne_true
  | stopped | running | input => cases he

/-- An event of the output is heard, and what follows it after it. -/
theorem hear_of_isOutput {σ : Type} {e : Event} (he : e.isOutput = true) (t : σ) (rest : List Event × σ) :
    hear (e, t) rest = (e :: rest.1, rest.2) := by
  rw [hear_of_not_isRest (Event.not_isRest_of_isOutput he)]
  cases e with
  | print | list | error => rfl
  | stopped | running | input => cases he

/-! ## Runs in one piece -/

/-- What runs by executing statements and may be asked for its events at any time. -/
structure Process (σ : Type) where
  machine : σ → Machine
  /-- Puts events in front of the queue. -/
  behind : List Event → σ → σ
  /-- Executes a statement, unless it rests. -/
  next : σ → σ
  /-- The event that says how it rests. -/
  rest? : σ → Option Event
  machine_behind : ∀ es s, machine (behind es s) = (machine s).behind es
  next_behind : ∀ es s, next (behind es s) = behind es (next s)
  rest?_behind : ∀ es s, rest? (behind es s) = rest? s
  next_of_rest? : ∀ {s e}, rest? s = some e → next s = s
  isRest_of_rest? : ∀ {s e}, rest? s = some e → e.isRest = true
  holdsOutput_next : ∀ {s}, (machine s).HoldsOutput → (machine (next s)).HoldsOutput

namespace Process

variable {σ : Type} (p : Process σ)

/-- What a run has to say after so many statements if no event is fetched before: what is queued then, and how
it rests if it does. -/
def said : (statements : Nat) → σ → List Event
  | 0, s => (p.machine s).events ++ (p.rest? s).toList
  | k + 1, s => said k (p.next s)

theorem said_behind (es : List Event) (k : Nat) (s : σ) : p.said k (p.behind es s) = es ++ p.said k s := by
  induction k generalizing s with
  | zero => rw [said, said, p.machine_behind, p.rest?_behind, Machine.behind, List.append_assoc]
  | succ k ih => rw [said, said, p.next_behind, ih]

theorem said_of_rest? {s : σ} {e : Event} (hq : (p.machine s).events = []) (hr : p.rest? s = some e) (k : Nat) :
    p.said k s = [e] := by
  induction k with
  | zero => rw [said, hq, hr]; rfl
  | succ k ih => rw [said, p.next_of_rest? hr, ih]

/-- A turn of the run: the oldest event is fetched, and if there is none, it rests or executes a statement. -/
inductive Turned (s : σ) : Turn σ → Prop
  | fetch {e : Event} {t : σ} (queued : s = p.behind [e] t) : Turned s (.event e t)
  | rest {e : Event} {t : σ} (quiet : (p.machine s).events = []) (rests : p.rest? s = some e)
      (still : (p.machine t).events = []) : Turned s (.event e t)
  | next (quiet : (p.machine s).events = []) (busy : p.rest? s = none) : Turned s (.step (p.next s))

/-! ## What turns deliver -/

variable {p} {turn : σ → Turn σ}

theorem holdsOutput_of_behind {e : Event} {t : σ} (h : (p.machine (p.behind [e] t)).HoldsOutput) :
    e.isOutput = true ∧ (p.machine t).HoldsOutput := by
  rw [p.machine_behind] at h
  exact List.forall_mem_cons.1 h

theorem watch_of_rest? {s t : σ} {e : Event} (ht : turn s = .event e t) (hr : p.rest? s = some e) (j : Nat) :
    Turn.watch turn (j + 1) s = ([e], t) := by
  rw [Turn.watch_of_event ht, hear_of_isRest (p.isRest_of_rest? hr)]

theorem said_watch_of_rest? {s t : σ} {e : Event} (hq : (p.machine s).events = []) (ht : turn s = .event e t)
    (hr : p.rest? s = some e) (k : Nat) : ∃ j, p.said k s <+: (Turn.watch turn j s).1 := by
  refine ⟨1, ?_⟩
  rewrite [p.said_of_rest? hq hr, watch_of_rest? ht hr]
  exact List.prefix_rfl

section

variable (hturn : ∀ s, p.Turned s (turn s))
include hturn

/-- Nothing is heard in turns that the run in one piece does not say. -/
theorem watch_said (j : Nat) {s : σ} (h : (p.machine s).HoldsOutput) :
    ∃ k, (Turn.watch turn j s).1 <+: p.said k s := by
  induction j generalizing s with
  | zero => exact ⟨0, List.nil_prefix⟩
  | succ j ih =>
    have hs := hturn s
    generalize ht : turn s = next at hs
    cases hs with
    | @fetch e t queued =>
      subst queued
      obtain ⟨he, hrest⟩ := holdsOutput_of_behind h
      obtain ⟨k, hk⟩ := ih hrest
      refine ⟨k, ?_⟩
      rw [Turn.watch_of_event ht, hear_of_isOutput he, said_behind]
      exact List.cons_prefix_cons.2 ⟨rfl, hk⟩
    | rest quiet rests =>
      refine ⟨0, ?_⟩
      rewrite [watch_of_rest? ht rests, p.said_of_rest? quiet rests]
      exact List.prefix_rfl
    | next =>
      obtain ⟨k, hk⟩ := ih (p.holdsOutput_next h)
      refine ⟨k + 1, ?_⟩
      rw [Turn.watch_of_step ht]
      exact hk

/-- What is queued is heard first, so that it may be left out of account. -/
theorem said_watch_of_quiet {k : Nat}
    (hquiet : ∀ {t}, (p.machine t).HoldsOutput → (p.machine t).events = [] →
      ∃ j, p.said k t <+: (Turn.watch turn j t).1)
    {s : σ} (h : (p.machine s).HoldsOutput) : ∃ j, p.said k s <+: (Turn.watch turn j s).1 := by
  generalize hq : (p.machine s).events = es
  induction es generalizing s with
  | nil => exact hquiet h hq
  | cons e es ih =>
    have hs := hturn s
    generalize ht : turn s = next at hs
    cases hs with
    | @fetch e' t queued =>
      subst queued
      obtain ⟨he, hout⟩ := holdsOutput_of_behind h
      rw [p.machine_behind] at hq
      obtain ⟨j, hj⟩ := ih hout (List.cons.inj hq).2
      refine ⟨j + 1, ?_⟩
      rw [Turn.watch_of_event ht, hear_of_isOutput he, said_behind]
      exact List.cons_prefix_cons.2 ⟨rfl, hj⟩
    | rest quiet | next quiet => cases hq.symm.trans quiet

theorem turned_of_quiet {s : σ} (hq : (p.machine s).events = []) :
    (∃ e t, turn s = .event e t ∧ p.rest? s = some e) ∨ turn s = .step (p.next s) ∧ p.rest? s = none := by
  have hs := hturn s
  generalize turn s = next at hs
  cases hs with
  | fetch queued =>
    rw [queued, p.machine_behind] at hq
    cases hq
  | rest _ rests => exact .inl ⟨_, _, rfl, rests⟩
  | next _ busy => exact .inr ⟨rfl, busy⟩

/-- All that the run in one piece says is heard in turns. -/
theorem said_watch (k : Nat) {s : σ} (h : (p.machine s).HoldsOutput) :
    ∃ j, p.said k s <+: (Turn.watch turn j s).1 := by
  induction k generalizing s with
  | zero =>
    refine said_watch_of_quiet hturn (fun {t} _ hq => ?_) h
    rcases turned_of_quiet hturn hq with ⟨e, t', ht, hr⟩ | ⟨-, hr⟩
    · exact said_watch_of_rest? hq ht hr 0
    · refine ⟨0, ?_⟩
      rw [said, hq, hr]
      exact List.nil_prefix
  | succ k ih =>
    refine said_watch_of_quiet hturn (fun {t} hout hq => ?_) h
    rcases turned_of_quiet hturn hq with ⟨e, t', ht, hr⟩ | ⟨ht, -⟩
    · exact said_watch_of_rest? hq ht hr (k + 1)
    · obtain ⟨j, hj⟩ := ih (p.holdsOutput_next hout)
      refine ⟨j + 1, ?_⟩
      rw [said, Turn.watch_of_step ht]
      exact hj

/-- A run that is heard to rest has nothing left in its queue. -/
theorem events_of_watch {j : Nat} {s : σ} (h : (p.machine s).HoldsOutput)
    (hrest : HasRest (Turn.watch turn j s).1) : (p.machine (Turn.watch turn j s).2).events = [] := by
  induction j generalizing s with
  | zero =>
    obtain ⟨e, he, -⟩ := hrest
    cases he
  | succ j ih =>
    have hs := hturn s
    generalize ht : turn s = next at hs
    cases hs with
    | @fetch e t queued =>
      subst queued
      obtain ⟨he, hout⟩ := holdsOutput_of_behind h
      rw [Turn.watch_of_event ht, hear_of_isOutput he] at hrest ⊢
      refine ih hout ?_
      obtain ⟨e', hmem, hrest⟩ := hrest
      rcases List.mem_cons.1 hmem with rfl | hmem
      · exact absurd hrest (Event.not_isRest_of_isOutput he)
      · exact ⟨e', hmem, hrest⟩
    | rest _ rests still =>
      rw [watch_of_rest? ht rests]
      exact still
    | next =>
      rw [Turn.watch_of_step ht] at hrest ⊢
      exact ih (p.holdsOutput_next h) hrest

end

end Process

/-! ## The order of the events -/

/-- The first machine, left to itself for some steps, has queued the output among these events and then
the events of the second. -/
def Machine.Hands (m : Machine) (es : List Event) (n : Machine) : Prop :=
  ∃ taken, Advances m (n.behind taken) ∧ outputs taken = outputs es

theorem Machine.Hands.trans {m n o : Machine} {es fs : List Event} (h : Hands m es n)
    (h' : Hands n fs o) : Hands m (es ++ fs) o := by
  obtain ⟨taken, ha, ht⟩ := h
  obtain ⟨taken', ha', ht'⟩ := h'
  refine ⟨taken ++ taken', ?_, ?_⟩
  · rw [behind_append]
    exact ha.trans (ha'.behind taken)
  · rw [outputs_append, outputs_append, ht, ht']

theorem outputs_filter_running (es : List Event) : outputs (es.filter (· ≠ .running)) = outputs es := by
  rw [outputs, outputs, List.filter_filter]
  refine List.filter_congr (fun e _ => ?_)
  cases e <;> rfl

section

variable {σ : Type}

/-- Calls that deliver events one by one deliver all that is heard. -/
theorem heard_hands {call : Nat → σ → Event × σ} {machine : σ → Machine}
    (hcall : ∀ n s, Machine.Delivers (machine s) (call n s).1 (machine (call n s).2)) (ns : List Nat)
    (s : σ) : Machine.Hands (machine s) (heard call ns s).1 (machine (heard call ns s).2) := by
  induction ns generalizing s with
  | nil => exact ⟨[], .refl _, rfl⟩
  | cons n ns ih =>
    have hfirst : Machine.Hands (machine s) [(call n s).1] (machine (call n s).2) := hcall n s
    rw [heard]
    by_cases he : (call n s).1.isRest = true
    · rw [hear_of_isRest he]
      exact hfirst
    · rw [hear_of_not_isRest he]
      obtain ⟨taken, ha, ht⟩ := hfirst.trans (ih (call n s).2)
      refine ⟨taken, ha, ?_⟩
      rw [ht, outputs_append, outputs_append, outputs_filter_running]

/-- How calls slice a run from the state `s` does not matter. -/
structure Unsliced (p : Process σ) (call : Nat → σ → Event × σ) (s : σ) : Prop where
  consistent (ns ns' : List Nat) : Turn.Consistent (heard call ns s) (heard call ns' s)
  /-- What is heard of some calls is heard of all that are many enough and have a budget. -/
  heard_extends (ns : List Nat) : ∃ k, ∀ ns' : List Nat, k ≤ ns'.length → (∀ n ∈ ns', 0 < n) →
    (heard call ns s).1 <+: (heard call ns' s).1
  /-- The output heard and the events still queued are those that the run has queued, in this order. -/
  hands (ns : List Nat) : Machine.Hands (p.machine s) (heard call ns s).1 (p.machine (heard call ns s).2)
  /-- Nothing is heard that the run in one piece does not say. -/
  heard_said (output : (p.machine s).HoldsOutput) (ns : List Nat) : ∃ k, (heard call ns s).1 <+: p.said k s
  /-- All that the run in one piece says is heard of calls that are many enough and have a budget. -/
  said_heard (output : (p.machine s).HoldsOutput) (k : Nat) : ∃ j, ∀ ns : List Nat, j ≤ ns.length →
    (∀ n ∈ ns, 0 < n) → p.said k s <+: (heard call ns s).1
  /-- A run that is heard to rest has nothing left in its queue. -/
  settled (output : (p.machine s).HoldsOutput) (ns : List Nat) : HasRest (heard call ns s).1 →
    (p.machine (heard call ns s).2).events = []

theorem unsliced_run {p : Process σ} {turn : σ → Turn σ} (hturn : ∀ s, p.Turned s (turn s))
    (h : ∀ n s, Machine.Delivers (p.machine s) (Turn.run turn n s).1 (p.machine (Turn.run turn n s).2))
    (s : σ) : Unsliced p (Turn.run turn) s where
  consistent ns ns' := Turn.heard_consistent turn ns ns' s
  heard_extends ns := Turn.exists_heard_extends turn ns s
  hands ns := heard_hands h ns s
  heard_said output ns := by
    obtain ⟨j, -, hj⟩ := Turn.exists_watch_eq turn ns s
    rw [hj]
    exact Process.watch_said hturn j output
  said_heard output k := by
    obtain ⟨j, hj⟩ := Process.said_watch hturn k output
    refine ⟨j, fun ns hlen hpos => ?_⟩
    obtain ⟨i, hi, heq⟩ := Turn.exists_watch_eq turn ns s
    obtain ⟨l, rfl⟩ := Nat.exists_eq_add_of_le (Nat.le_trans hlen (hi hpos))
    rw [heq]
    exact hj.trans (Turn.watch_extends turn j l s)
  settled output ns := by
    obtain ⟨j, -, hj⟩ := Turn.exists_watch_eq turn ns s
    rw [hj]
    exact Process.events_of_watch hturn output

end

/-! ## Machines and debuggers -/

namespace Machine

/-- What a machine says when it rests. -/
def rest? (m : Machine) : Option Event :=
  match m.status with
  | .stopped => some .stopped
  | .waiting => some (.input inputPrompt)
  | .running => none

theorem rest?_of_stopped {m : Machine} (h : m.status = .stopped) : m.rest? = some .stopped := by
  rw [rest?, h]

theorem rest?_of_waiting {m : Machine} (h : m.status = .waiting) : m.rest? = some (.input inputPrompt) := by
  rw [rest?, h]

theorem rest?_of_running {m : Machine} (h : m.status = .running) : m.rest? = none := by
  rw [rest?, h]

theorem isRunning_of_rest? {m : Machine} {e : Event} (h : m.rest? = some e) : m.isRunning = false := by
  unfold rest? at h
  cases hs : m.status with
  | running =>
    rw [hs] at h
    cases h
  | stopped | waiting => rw [isRunning, hs]; rfl

theorem step_of_rest? {m : Machine} {e : Event} (h : m.rest? = some e) : m.step = m :=
  step_of_not_isRunning (isRunning_of_rest? h)

theorem isRest_of_rest? {m : Machine} {e : Event} (h : m.rest? = some e) : e.isRest = true := by
  unfold rest? at h
  split at h <;> cases h <;> rfl

/-- A machine executes one statement after the other. -/
def process : Process Machine where
  machine := id
  behind := behind
  next := step
  rest? := rest?
  machine_behind _ _ := rfl
  next_behind := step_behind
  rest?_behind _ _ := rfl
  next_of_rest? := step_of_rest?
  isRest_of_rest? := isRest_of_rest?
  holdsOutput_next := HoldsOutput.step

theorem turned (m : Machine) : process.Turned m m.turn := by
  cases hev : m.events with
  | cons e es =>
    rw [turn_of_cons hev]
    exact .fetch (behind_of_events hev).symm
  | nil =>
    cases hs : m.status with
    | stopped =>
      rw [turn_of_stopped hev hs]
      exact .rest hev (rest?_of_stopped hs) hev
    | waiting =>
      rw [turn_of_waiting hev hs]
      exact .rest hev (rest?_of_waiting hs) hev
    | running =>
      rw [turn_of_running hev hs]
      exact .next hev (rest?_of_running hs)

theorem skipRemarks_behind (es : List Event) (m : Machine) :
    (m.behind es).skipRemarks = m.skipRemarks.behind es :=
  repeat_step_behind es m.remarksAhead m

end Machine

namespace Debugger

variable {V : Type}

/-- The debugger with events put in front of its queue. -/
def behind (es : List Event) (d : Debugger V) : Debugger V :=
  { d with machine := d.machine.behind es }

/-- What a debugger says when it rests. A pause is a stop. -/
def rest? (d : Debugger V) : Option Event :=
  if d.isPaused then some .stopped else d.machine.rest?

theorem rest?_of_isPaused {d : Debugger V} (h : d.isPaused = true) : d.rest? = some .stopped :=
  if_pos h

theorem rest?_of_not_isPaused {d : Debugger V} (h : ¬ d.isPaused = true) : d.rest? = d.machine.rest? :=
  if_neg h

theorem rest?_of_stopped {d : Debugger V} (h : d.machine.status = .stopped) : d.rest? = some .stopped := by
  unfold rest?
  split
  · rfl
  · exact Machine.rest?_of_stopped h

theorem isRest_of_rest? {d : Debugger V} {e : Event} (h : d.rest? = some e) : e.isRest = true := by
  unfold rest? at h
  split at h
  · cases h
    rfl
  · exact Machine.isRest_of_rest? h

theorem reached_behind (es : List Event) (d : Debugger V) (goal : PausePoint) :
    (d.behind es).reached goal = d.reached goal := by
  cases goal <;> rfl

variable [Viewer V]

/-- Executes a statement, on the way to a pause or outside of a session. -/
def advance (d : Debugger V) : Debugger V :=
  if d.active then
    match d.pace with
    | .paused => d
    | .toward goal force => d.step goal force
  else { d with machine := d.machine.step }

/-! ### Queued events do not matter to a debugger -/

theorem inform_behind (es : List Event) (d : Debugger V) (changes : List Message) :
    (d.behind es).inform changes = (d.inform changes).behind es := by
  unfold inform
  rw [show (d.behind es).viewer = d.viewer from rfl]
  split <;> rfl

theorem pause_behind (es : List Event) (d : Debugger V) : (d.behind es).pause = d.pause.behind es := by
  unfold pause
  dsimp only
  rw [← inform_behind, behind, Machine.skipRemarks_behind]
  rfl

theorem step_behind (es : List Event) (d : Debugger V) (goal : PausePoint) (force : Bool) :
    (d.behind es).step goal force = (d.step goal force).behind es := by
  -- the statement first, then the pause
  have hpause (d : Debugger V) :
      (if (d.behind es).machine.isRunning && ((d.behind es).reached goal || (!force && (d.behind es).onBreakpoint))
        then (d.behind es).pause else d.behind es) =
      behind es (if d.machine.isRunning && (d.reached goal || (!force && d.onBreakpoint)) then d.pause else d) := by
    rw [pause_behind, reached_behind]
    exact (apply_ite (behind es) _ _ _).symm
  unfold step
  dsimp only
  rw [show (d.behind es).machine.step = d.machine.step.behind es from Machine.step_behind es d.machine]
  exact hpause { d with machine := d.machine.step }

theorem advance_behind (es : List Event) (d : Debugger V) : (d.behind es).advance = d.advance.behind es := by
  unfold advance
  rw [show (d.behind es).active = d.active from rfl, show (d.behind es).pace = d.pace from rfl]
  split
  · split
    · rfl
    · exact step_behind es d _ _
  · exact congrArg (fun machine => { d with machine }) (Machine.step_behind es d.machine)

/-! ### A debugger is a process -/

theorem step_of_rest? {d : Debugger V} {e : Event} (h : d.machine.rest? = some e) (goal : PausePoint)
    (force : Bool) : d.step goal force = d := by
  unfold step
  dsimp only
  rw [Machine.step_of_rest? h, Machine.isRunning_of_rest? h]
  rfl

theorem advance_of_rest? {d : Debugger V} {e : Event} (h : d.rest? = some e) : d.advance = d := by
  unfold advance
  split
  · split
    · rfl
    · next hp =>
      have hpace : ¬ d.isPaused = true := by simp [isPaused, hp]
      rw [rest?_of_not_isPaused hpace] at h
      exact step_of_rest? h _ _
  · next ha =>
    have hpace : ¬ d.isPaused = true := by simp [isPaused, ha]
    rw [rest?_of_not_isPaused hpace] at h
    rw [Machine.step_of_rest? h]

theorem holdsOutput_advance {d : Debugger V} (h : d.machine.HoldsOutput) : d.advance.machine.HoldsOutput := by
  unfold advance
  split
  · split
    · exact h
    · exact h.advances (d.step_advances _ _)
  · exact h.step

/-- A debugger executes one statement after the other, from one pause to the next. -/
def process : Process (Debugger V) where
  machine := machine
  behind := behind
  next := advance
  rest? := rest?
  machine_behind _ _ := rfl
  next_behind := advance_behind
  rest?_behind _ _ := rfl
  next_of_rest? := advance_of_rest?
  isRest_of_rest? := isRest_of_rest?
  holdsOutput_next := holdsOutput_advance

/-- Outside of a session a debugger is its machine. -/
theorem turned_of_machine {d : Debugger V} (ha : ¬ d.active = true) : process.Turned d d.turn := by
  have hpace : ¬ d.isPaused = true := by simp [isPaused, ha]
  have hrest : d.rest? = d.machine.rest? := rest?_of_not_isPaused hpace
  have hm := d.machine.turned
  rw [turn, if_neg ha]
  generalize d.machine.turn = next at hm
  cases hm with
  | @fetch e m queued => exact .fetch (congrArg (fun machine => { d with machine }) queued)
  | rest quiet rests still => exact .rest quiet (hrest.trans rests) still
  | next quiet busy =>
    have hnext : d.advance = { d with machine := d.machine.step } := if_neg ha
    show process.Turned d (.step { d with machine := d.machine.step })
    rw [← hnext]
    exact .next quiet (hrest.trans busy)

theorem turned (d : Debugger V) : process.Turned d d.turn := by
  by_cases ha : d.active = true
  · cases hev : d.machine.events with
    | cons e es =>
      rw [turn_of_cons ha hev]
      exact .fetch (congrArg (fun machine => { d with machine }) (Machine.behind_of_events hev).symm)
    | nil =>
      cases hs : d.machine.status with
      | stopped =>
        rw [turn_of_stopped ha hev hs]
        refine .rest hev (rest?_of_stopped hs) ?_
        show d.endSession.machine.events = []
        rw [endSession_machine, hev]
      | waiting =>
        rw [turn_of_waiting ha hev hs]
        have hpace : ¬ d.isPaused = true := by simp [isPaused, Machine.isWaiting, hs]
        exact .rest hev ((rest?_of_not_isPaused hpace).trans (Machine.rest?_of_waiting hs)) hev
      | running =>
        cases hp : d.pace with
        | paused =>
          rw [turn_of_paused ha hev hs hp]
          exact .rest hev (rest?_of_isPaused (by simp [isPaused, ha, hp, Machine.isWaiting, hs])) hev
        | toward goal force =>
          have hpace : ¬ d.isPaused = true := by simp [isPaused, hp]
          have hnext : d.advance = d.step goal force := by rw [advance, if_pos ha, hp]
          rw [turn_of_toward ha hev hs hp, ← hnext]
          exact .next hev ((rest?_of_not_isPaused hpace).trans (Machine.rest?_of_running hs))
  · exact turned_of_machine ha

end Debugger

/-- Whatever the budgets of the calls, a machine and a debugger deliver the same events and come to the
same state. Every event comes once and in its turn, and none is lost: what is delivered is what a run in one piece
says, and a run that rests has delivered all of it. -/
theorem untilEvent_unsliced {V : Type} [Viewer V] :
    (∀ m : Machine, Unsliced Machine.process Machine.untilEvent m) ∧
      (∀ d : Debugger V, Unsliced Debugger.process Debugger.untilEvent d) ∧
      (∀ m : Machine, m.Reachable → m.HoldsOutput) ∧
      ∀ d : Debugger V, d.Reachable → d.machine.HoldsOutput := by
  refine ⟨fun m => ?_, fun d => ?_, fun _ h => h.holdsOutput, fun _ h => h.holdsOutput⟩
  · rw [show Machine.untilEvent = Turn.run Machine.turn from funext₂ Machine.untilEvent_eq_run]
    refine unsliced_run Machine.turned (fun n m => ?_) m
    rw [← Machine.untilEvent_eq_run]
    exact Machine.untilEvent_delivers n m
  · rw [show Debugger.untilEvent = Turn.run (Debugger.turn (V := V)) from
      funext₂ Debugger.untilEvent_eq_run]
    refine unsliced_run Debugger.turned (fun n d => ?_) d
    rw [← Debugger.untilEvent_eq_run]
    exact Debugger.untilEvent_delivers n d

/-- A session that is about to print twice. -/
def Debugger.counting : Debugger Silent :=
  let m := ((((Machine.ofSeed 1).submit "10 PRINT 1").2.submit "20 PRINT 2").2.submit "30 END").2
  ((serve { machine := m, viewer := ⟨⟩ } .begin).2.serve .runToBreakpoint).2

theorem Debugger.reachable_counting : counting.Reachable :=
  ((Reachable.fresh _ ((((Machine.Reachable.fresh (.ofSeed 1)).submit _).submit _).submit _)).serve .begin).serve
    .runToBreakpoint

/-- Calls that may execute the whole run and calls that execute no more than a statement hear the same. -/
theorem untilEvent_unsliced_counting :
    let d := Debugger.counting
    let whole := heard Debugger.untilEvent [9, 9, 9] d
    let sliced := heard Debugger.untilEvent [0, 1, 0, 1, 1, 1, 0] d
    d.Reachable ∧ whole.1 = [.print "1\n", .print "2\n", .stopped] ∧ Debugger.process.said 3 d = whole.1 ∧
      sliced = whole ∧ whole.2.machine.events = [] := by
  intro d whole sliced
  have hwhole : whole.1 = [.print "1\n", .print "2\n", .stopped] := by decide +kernel
  have hsliced : sliced.1 = [.print "1\n", .print "2\n", .stopped] := by decide +kernel
  have hsaid : Debugger.process.said 3 d = [.print "1\n", .print "2\n", .stopped] := by decide +kernel
  have hrest : HasRest [.print "1\n", .print "2\n", .stopped] := ⟨.stopped, by decide, rfl⟩
  obtain ⟨-, hdebugger, -, hreachable⟩ := untilEvent_unsliced (V := Silent)
  have hunsliced := hdebugger d
  have houtput := hreachable d Debugger.reachable_counting
  refine ⟨Debugger.reachable_counting, hwhole, hsaid.trans hwhole.symm, ?_, ?_⟩
  · exact (hunsliced.consistent _ _).atRest (hsliced ▸ hrest) (hwhole ▸ hrest)
  · exact hunsliced.settled houtput _ (hwhole ▸ hrest)

end LineBasic
