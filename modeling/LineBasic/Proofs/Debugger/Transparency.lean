import LineBasic.Proofs.Debugger.Request
import LineBasic.Proofs.Machine.Events

/-!
# A session is a plain run

A debugger shows a run without taking part in it. Whatever is asked of it in a session that is
neither edited, broken off nor begun again, its machine is that of a plain run with the same answers,
and what it has delivered and still holds is the output of that run (`transparent`).
-/
namespace LineBasic

/-- What a program has to say, as opposed to the state of its run. -/
def Event.isOutput : Event → Bool
  | .print _ | .list _ | .error _ => true
  | .stopped | .running | .input _ => false

def outputs (es : List Event) : List Event :=
  es.filter Event.isOutput

theorem outputs_append (es fs : List Event) : outputs (es ++ fs) = outputs es ++ outputs fs :=
  List.filter_append ..

namespace Machine

/-! ## Plain runs -/

/-- `PlainRun m answers k n` says that `m`, started and left to itself, has become `n` after `k`
steps, in the course of which it was given these answers. -/
inductive PlainRun (m : Machine) : List String → Nat → Machine → Prop
  | start : PlainRun m [] 0 m.start
  | step {answers : List String} {k : Nat} {n : Machine} :
      PlainRun m answers k n → PlainRun m answers (k + 1) n.step
  | answer {answers : List String} {k : Nat} {n : Machine} (text : String) :
      PlainRun m answers k n → n.isWaiting = true →
      PlainRun m (answers ++ [text]) k (n.submit text).2

theorem PlainRun.advances {m n o : Machine} {answers : List String} {k : Nat}
    (h : PlainRun m answers k n) (ha : Advances n o) : ∃ k, PlainRun m answers k o := by
  obtain ⟨j, rfl⟩ := ha
  induction j with
  | zero => exact ⟨k, h⟩
  | succ j ih =>
    obtain ⟨i, hi⟩ := ih
    exact ⟨i + 1, hi.step⟩

/-- A run appends to the events that were queued before it. -/
theorem PlainRun.events {m n : Machine} {answers : List String} {k : Nat}
    (h : PlainRun m answers k n) : ∃ produced, n.events = m.events ++ produced := by
  suffices ∃ o : Machine, n = o.behind m.events by
    obtain ⟨o, rfl⟩ := this
    exact ⟨o.events, rfl⟩
  induction h with
  | start => exact ⟨{ m.start with events := [] }, by simp [behind, Machine.start, forget]⟩
  | step _ ih =>
    obtain ⟨o, rfl⟩ := ih
    exact ⟨o.step, step_behind _ _⟩
  | answer text _ hw ih =>
    obtain ⟨o, rfl⟩ := ih
    rw [submit_of_isWaiting hw]
    exact ⟨o.takeAnswer text, takeAnswer_behind _ _ _⟩

theorem Advances.behind {m n : Machine} (h : Advances m n) (es : List Event) :
    Advances (m.behind es) (n.behind es) := by
  obtain ⟨k, rfl⟩ := h
  exact ⟨k, (repeat_step_behind es k m).symm⟩

/-! ## Delivery of events -/

/-- The first machine advances to the second, and `e` is delivered: it is the event fetched, or no
output and none is fetched. -/
def Delivers (m : Machine) (e : Event) (n : Machine) : Prop :=
  ∃ taken, Advances m (n.behind taken) ∧ outputs taken = outputs [e]

theorem behind_of_events {m : Machine} {e : Event} {es : List Event} (h : m.events = e :: es) :
    behind [e] { m with events := es } = m := by
  rw [behind, List.singleton_append, ← h]

theorem delivers_fetched {m : Machine} {e : Event} {es : List Event} (h : m.events = e :: es) :
    Delivers m e { m with events := es } := by
  refine ⟨[e], ?_, rfl⟩
  rw [behind_of_events h]
  exact .refl m

theorem Advances.delivers {m n : Machine} (h : Advances m n) {e : Event} (he : e.isOutput = false) :
    Delivers m e n :=
  ⟨[], h, by simp [outputs, he]⟩

theorem Delivers.of_advances {m n o : Machine} {e : Event} (h : Advances m n) (hd : Delivers n e o) :
    Delivers m e o := by
  obtain ⟨taken, ha, ht⟩ := hd
  exact ⟨taken, h.trans ha, ht⟩

theorem fetch?_eq_some {m n : Machine} {e : Event} (h : m.fetch? = (some e, n)) : Delivers m e n := by
  unfold fetch? at h
  split at h
  · cases h
  · next hev =>
    cases h
    exact delivers_fetched hev

theorem untilEvent_delivers (steps : Nat) (m : Machine) :
    Delivers m (m.untilEvent steps).1 (m.untilEvent steps).2 := by
  fun_induction untilEvent steps m with
  | case1 steps m e n h => exact fetch?_eq_some h
  | case2 | case3 | case4 => exact (Advances.refl _).delivers rfl
  | case5 m _ _ _ steps ih => exact ih.of_advances (Advances.refl m).step

/-! ## Shadows -/

/-- The second machine, with all events that it has delivered put back, is that of a plain run of the
first. -/
def Shadows (m : Machine) (answers : List String) (delivered : List Event) (n : Machine) : Prop :=
  ∃ k taken, PlainRun m answers k (n.behind taken) ∧ outputs taken = outputs delivered

theorem shadows_start (m : Machine) : Shadows m [] [] m.start :=
  ⟨0, [], .start, rfl⟩

variable {m n o : Machine} {answers : List String} {delivered : List Event}

theorem Shadows.advances (h : Shadows m answers delivered n) (ha : Advances n o) :
    Shadows m answers delivered o := by
  obtain ⟨k, taken, hrun, hout⟩ := h
  obtain ⟨k', hrun'⟩ := hrun.advances (ha.behind taken)
  exact ⟨k', taken, hrun', hout⟩

theorem Shadows.delivers (h : Shadows m answers delivered n) {e : Event} (hd : Delivers n e o) :
    Shadows m answers (delivered ++ [e]) o := by
  obtain ⟨taken, ha, htaken⟩ := hd
  obtain ⟨k, before, hrun, hout⟩ := h.advances ha
  rw [← behind_append] at hrun
  refine ⟨k, before ++ taken, hrun, ?_⟩
  rw [outputs_append, outputs_append, hout, htaken]

theorem Shadows.takeAnswer (h : Shadows m answers delivered n) (hw : n.isWaiting = true)
    (text : String) : Shadows m (answers ++ [text]) delivered (n.takeAnswer text) := by
  obtain ⟨k, taken, hrun, hout⟩ := h
  have hw' : (n.behind taken).isWaiting = true := hw
  have hrun' := hrun.answer text hw'
  rw [submit_of_isWaiting hw', takeAnswer_behind] at hrun'
  exact ⟨k, taken, hrun', hout⟩

end Machine

namespace Debugger

variable {V : Type} [Viewer V]

theorem untilEvent_delivers (steps : Nat) (d : Debugger V) :
    Machine.Delivers d.machine (d.untilEvent steps).1 (d.untilEvent steps).2.machine := by
  fun_induction untilEvent steps d with
  | case1 steps d _ e n h => exact Machine.fetch?_eq_some h
  | case2 steps d =>
    have : Machine.Delivers d.endSession.machine (d.endSession.runFreely steps).1
        (d.endSession.runFreely steps).2.machine := Machine.untilEvent_delivers steps _
    rwa [endSession_machine] at this
  | case3 | case4 | case5 => exact (Machine.Advances.refl _).delivers rfl
  | case6 d _ _ _ goal force _ _ steps ih => exact ih.of_advances (step_advances d goal force)
  | case7 steps d => exact Machine.untilEvent_delivers steps d.machine

end Debugger

/-! ## Sessions -/

variable {V : Type} [Viewer V]

/-- A request that neither edits the program nor begins or ends the run. A line is only submitted to
answer. -/
def Request.Watches (d : Debugger V) : Request → Prop
  | .begin | .breakOff => False
  | .submit _ => d.machine.isWaiting = true
  | _ => True

def Request.answer? : Request → Option String
  | .submit text => some text
  | _ => none

def Reply.event? : Reply → Option Event
  | .event e => some e
  | _ => none

namespace Debugger

/-- `Session d requests replies d'` says that `d` has begun a session and become `d'` after these
requests. -/
inductive Session (d : Debugger V) : List Request → List Reply → Debugger V → Prop
  | begin : d.beginSession.1 = true → Session d [] [] d.beginSession.2
  | serve {rs : List Request} {ps : List Reply} {d' : Debugger V} (r : Request) :
      Session d rs ps d' → r.Watches d' → Session d (rs ++ [r]) (ps ++ [(d'.serve r).1]) (d'.serve r).2

theorem submit_of_isWaiting {d : Debugger V} (h : d.machine.isWaiting = true) (text : String) :
    d.submit text = (true, { d with machine := d.machine.takeAnswer text }) := by
  rw [submit, if_pos h, Machine.submit_of_isWaiting h]

/-- A request answers, delivers an event, or leaves the machine alone. -/
theorem serve_shadows {m : Machine} {answers : List String} {delivered : List Event} {d : Debugger V}
    (h : Machine.Shadows m answers delivered d.machine) {r : Request} (hr : r.Watches d) :
    Machine.Shadows m (answers ++ r.answer?.toList) (delivered ++ (d.serve r).1.event?.toList)
      (d.serve r).2.machine := by
  cases r with
  | begin | breakOff => exact hr.elim
  | submit text =>
    have := h.takeAnswer hr text
    simpa [Request.answer?, serve, Reply.event?, submit_of_isWaiting hr] using this
  | proceed steps =>
    have := h.delivers (untilEvent_delivers steps d)
    simpa [Request.answer?, serve, Reply.event?] using this
  | stepIn | stepOver | stepOut | runToBreakpoint | runToSlot | toggle =>
    simpa [Request.answer?, serve, Reply.event?, stepIn, stepOver, runToBreakpoint, runToSlot] using h

theorem filterMap_concat {α β : Type} (f : α → Option β) (l : List α) (a : α) :
    (l ++ [a]).filterMap f = l.filterMap f ++ (f a).toList := by
  cases h : f a <;> simp [h]

theorem Session.shadows {d d' : Debugger V} {rs : List Request} {ps : List Reply}
    (h : Session d rs ps d') :
    Machine.Shadows d.machine (rs.filterMap Request.answer?) (ps.filterMap Reply.event?) d'.machine := by
  induction h with
  | begin hb => exact (Machine.shadows_start _).advances (beginSession_advances hb)
  | serve r _ hr ih =>
    rw [filterMap_concat, filterMap_concat]
    exact serve_shadows ih hr

/-- Whatever is asked in a session, apart from its events the machine is that of a plain run with the
same answers, and the output delivered and still queued is what was queued before and what the run
has produced. -/
theorem transparent {d d' : Debugger V} {rs : List Request} {ps : List Reply}
    (h : Session d rs ps d') :
    ∃ k m produced, Machine.PlainRun d.machine (rs.filterMap Request.answer?) k m ∧
      d'.machine = { m with events := d'.machine.events } ∧
      m.events = d.machine.events ++ produced ∧
      outputs (ps.filterMap Reply.event? ++ d'.machine.events) =
        outputs d.machine.events ++ outputs produced := by
  obtain ⟨k, taken, hrun, hout⟩ := h.shadows
  obtain ⟨produced, hev⟩ := hrun.events
  refine ⟨k, _, produced, hrun, rfl, hev, ?_⟩
  calc outputs (ps.filterMap Reply.event? ++ d'.machine.events)
      = outputs (taken ++ d'.machine.events) := by rw [outputs_append, ← hout, ← outputs_append]
    _ = outputs (d.machine.events ++ produced) := congrArg outputs hev
    _ = outputs d.machine.events ++ outputs produced := outputs_append _ _

/-- A debugger of a program that asks for a number and prints it. -/
def echo : Debugger Silent :=
  let m := ((((Machine.ofSeed 1).submit "10 INPUT A").2.submit "20 PRINT A").2.submit "30 END").2
  { machine := m, viewer := ⟨⟩ }

theorem transparent_echo :
    ∃ (d : Debugger Silent) (ps : List Reply),
      Session echo [.runToBreakpoint, .proceed 9, .submit "7", .proceed 9] ps d ∧
      ps.filterMap Reply.event? = [.input "? ", .print "7\n"] ∧
      ∃ k m produced, Machine.PlainRun echo.machine ["7"] k m ∧
        d.machine = { m with events := d.machine.events } ∧
        m.events = echo.machine.events ++ produced ∧
        outputs (ps.filterMap Reply.event? ++ d.machine.events) =
          outputs echo.machine.events ++ outputs produced := by
  have h0 : Session echo [] [] _ := .begin (by decide +kernel)
  have h1 := (h0.serve .runToBreakpoint trivial).serve (.proceed 9) trivial
  have h2 := (h1.serve (.submit "7")
    (show Machine.isWaiting _ = true by decide +kernel)).serve (.proceed 9) trivial
  exact ⟨_, _, h2, by decide +kernel, transparent h2⟩

end Debugger

end LineBasic
