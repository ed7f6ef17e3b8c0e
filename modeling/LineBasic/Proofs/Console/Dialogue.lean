import LineBasic.Console.Script
import LineBasic.Proofs.Debugger.Queue

/-!
# Leaving a debugging session

A dialogue is what a console asks of its terminal and what the terminal replies. When the console of a debugger
reads a line, a session is under way with nothing in its queue (`Attends.talk?`). So if the user leaves the prompt,
what is left to do no longer depends on the terminal: the session reports the break and ends (`finishes_breakOff`).
-/
namespace LineBasic.Console

/-- A request and the terminal's reply. -/
abbrev Exchange := (r : Request) × r.Reply

/-- The user leaves the prompt of a channel. At an `INPUT`, the interrupt key only breaks the run off. -/
def Typed.leaves (channel : Channel) : Typed → Bool
  | .line _ => false
  | .interrupt => channel = .command
  | .quit | .eof => true

/-! ## Scripts -/

/-- The script after these requests, if it replies to all of them. -/
def Script.replyAll? (s : Script) (rs : List Request) : Option Script :=
  rs.foldlM (fun s r => (s.reply r).map Prod.snd) s

theorem Script.exists_replyAll? (s : Script) (h : s.written < s.capacity) (text : String) :
    ∃ s', s.replyAll? [.poll, .write text, .poll] = some s' ∧ s'.log = .write text :: s.log := by
  simp [replyAll?, reply, h]

variable {V : Type}

/-! ## Consoles of a debugger -/

/-- How the debugger of a console stands, by what the console does next. -/
inductive Attends : Console V → Prop
  | rests {host : Host V} {outbox : List Output} : Attends ⟨host, .finished, outbox⟩
  | runs {d : Debugger V} {outbox : List Output} (session : d.InSession) : Attends ⟨.debug d, .run, outbox⟩
  | asks {d : Debugger V} {outbox : List Output} {prompt : String} (session : d.InSession)
      (events : d.machine.events = []) (waiting : d.machine.status = .waiting) :
      Attends ⟨.debug d, .answer prompt, outbox⟩
  | prompts {d : Debugger V} {outbox : List Output} (session : d.InSession)
      (events : d.machine.events = []) (running : d.machine.status = .running) :
      Attends ⟨.debug d, .command, outbox⟩

theorem Attends.withOutbox {c : Console V} (h : Attends c) (outbox : List Output) :
    Attends { c with outbox } := by
  cases h with
  | rests => exact .rests
  | runs session => exact .runs session
  | asks session events waiting => exact .asks session events waiting
  | prompts session events running => exact .prompts session events running

theorem attends_settle {d : Debugger V} (h : Debugger.Comes .stopped d) : Attends (settle (.debug d)) := by
  unfold settle
  dsimp only
  split
  · next ha =>
    cases h with
    | ended idle =>
      rw [idle] at ha
      cases ha
    | paused session events running => exact .prompts session events running
    -- An event that was queued does not say that the run has stopped.
    | speaks _ output => cases output
  · exact .rests

variable [Viewer V]

/-- The interrupt key breaks the run off before it goes on. -/
theorem proceed_debug (d : Debugger V) (interrupted : Bool) :
    proceed (.debug d) interrupted = proceed (.debug (if interrupted then d.breakOff else d)) false := by
  cases interrupted <;> rfl

theorem attends_proceed {d : Debugger V} (h : d.InSession) (interrupted : Bool) :
    Attends (proceed (.debug d) interrupted) := by
  have hd : (if interrupted then d.breakOff else d).InSession := by
    split
    · exact h.breakOff
    · exact h
  rw [proceed_debug]
  generalize (if interrupted then d.breakOff else d) = d at hd ⊢
  have hcomes := hd.comes stride
  unfold proceed
  simp only [Host.untilEvent, Bool.false_eq_true, if_false, Prod.map]
  generalize d.untilEvent stride = r at hcomes ⊢
  obtain ⟨e, d'⟩ := r
  dsimp only [id] at hcomes ⊢
  cases e with
  | stopped => exact attends_settle hcomes
  | input prompt =>
    cases hcomes with
    | asks session events waiting => exact .asks session events waiting
    | speaks _ output => cases output
  | running =>
    cases hcomes with
    | goesOn session => exact .runs session
    | speaks _ output => cases output
  | print text | list text | error e =>
    cases hcomes with
    | speaks session _ => exact .runs session

theorem inSession_perform {d : Debugger V} (h : d.InSession) (command : Command) :
    (command.perform d).2.InSession := by
  cases command with
  | nothing | listing | values | help => exact h
  | stepIn | stepOver | runToBreakpoint | runToSlot => exact h.pursue _ _
  | stepOut force => exact h.stepOut force
  | toggle label => exact h.toggle label
  | breakOff => exact h.breakOff
  | edit line => exact h.submit line

theorem attends_answered {d : Debugger V} (h : d.InSession) (typed : Typed) :
    Attends (answered (.debug d) typed) := by
  cases typed with
  | line text => exact .runs (h.submit text)
  | interrupt | quit | eof => exact .runs h.breakOff

theorem attends_commanded {d : Debugger V} (h : d.InSession) (typed : Typed) :
    Attends (commanded (.debug d) typed) := by
  cases typed with
  | line text => exact .runs (inSession_perform h _)
  | interrupt | quit | eof => exact .runs h.breakOff

theorem Attends.step {c : Console V} (h : Attends c) {r : Request} {next : r.Reply → Console V}
    (hs : c.step = some ⟨r, next⟩) (a : r.Reply) : Attends (next a) := by
  obtain ⟨host, phase, outbox⟩ := c
  cases outbox with
  | cons o outbox =>
    -- What is still to be written or remembered is no matter of the debugger.
    cases o <;> cases hs <;> exact h.withOutbox outbox
  | nil =>
    cases h with
    | rests => cases hs
    | runs session =>
      cases hs
      exact attends_proceed session a
    | asks session =>
      cases hs
      exact attends_answered session a
    | prompts session =>
      cases hs
      exact attends_commanded session a

theorem attends_debugSource (generator : Random.Generator) (viewer : V) (source : String) :
    Attends (debugSource { generator } viewer source) := by
  unfold debugSource
  cases hload : ({ generator } : Machine).replaceProgram source with
  | error e => exact .rests
  | ok m =>
    have hout := (Machine.holdsOutput_fresh generator).replaceProgram hload
    dsimp only
    cases hb : ({ machine := m, viewer } : Debugger V).beginSession with
    | mk began d =>
      cases began with
      | false => exact .rests
      | true =>
        have hd := Debugger.InSession.begin (d := { machine := m, viewer }) hout (by rw [hb])
        rw [hb] at hd
        exact .runs hd

/-! ## Dialogues -/

/-- The console after an exchange, if it makes this request. -/
def exchange? (c : Console V) (x : Exchange) : Option (Console V) :=
  match c.step with
  | none => none
  | some ⟨r, next⟩ => if h : x.1 = r then some (next (h ▸ x.2)) else none

/-- The console after a dialogue, if it makes these requests on these replies. -/
def talk? (c : Console V) (xs : List Exchange) : Option (Console V) :=
  xs.foldlM exchange? c

theorem exchange?_eq_some {c c' : Console V} {r : Request} {a : r.Reply} :
    c.exchange? ⟨r, a⟩ = some c' ↔ ∃ next, c.step = some ⟨r, next⟩ ∧ next a = c' := by
  unfold exchange?
  constructor
  · intro h
    split at h
    · cases h
    · next r' next hs =>
      split at h
      · next heq =>
        cases heq
        exact ⟨next, hs, Option.some.inj h⟩
      · cases h
  · rintro ⟨next, hs, rfl⟩
    rw [hs]
    exact dif_pos rfl

theorem talk?_append_singleton {c c' : Console V} {xs : List Exchange} {x : Exchange} :
    c.talk? (xs ++ [x]) = some c' ↔ ∃ c₁, c.talk? xs = some c₁ ∧ c₁.exchange? x = some c' := by
  simp [talk?, List.foldlM_append, Option.bind_eq_some_iff]

theorem Attends.talk? {c c' : Console V} (h : Attends c) {xs : List Exchange} (ht : c.talk? xs = some c') :
    Attends c' := by
  induction xs generalizing c with
  | nil =>
    cases ht
    exact h
  | cons x xs ih =>
    obtain ⟨c₁, hx, hxs⟩ := Option.bind_eq_some_iff.1 ht
    obtain ⟨next, hs, rfl⟩ := exchange?_eq_some.1 hx
    exact ih (h.step hs x.2) hxs

/-! ## The end of a session -/

/-- Whatever the terminal replies, the console makes these requests and no others, and is left in this state. -/
inductive Finishes : Console V → List Request → Console V → Prop
  | done {c : Console V} (rests : c.step = none) : Finishes c [] c
  | ask {c c₁ c' : Console V} {r : Request} {rs : List Request} {next : r.Reply → Console V}
      (request : c.step = some ⟨r, next⟩) (reply : ∀ a, next a = c₁) (rest : Finishes c₁ rs c') :
      Finishes c (r :: rs) c'

theorem Finishes.play {c c' : Console V} {rs : List Request} (h : Finishes c rs c') {s s' : Script}
    (hs : s.replyAll? rs = some s') (requests : Nat) :
    Console.play (requests + rs.length) c s = (.finished, c', s') := by
  induction h generalizing s with
  | done rests =>
    cases hs
    rw [Console.play, rests]
  | @ask c c₁ c' r rs next request reply rest ih =>
    obtain ⟨_, hreply, hrs⟩ := Option.bind_eq_some_iff.1 hs
    obtain ⟨⟨a, s₁⟩, hr, rfl⟩ := Option.map_eq_some_iff.1 hreply
    rw [List.length_cons, ← Nat.add_assoc, Console.play, request]
    dsimp only
    rw [hr]
    dsimp only
    rw [reply]
    exact ih hrs

section

variable {d : Debugger V}

/-- There is nothing left for the interrupt key to break off. -/
theorem proceed_of_stopped (hs : d.machine.status = .stopped) (interrupted : Bool) :
    proceed (.debug d) interrupted = proceed (.debug d) false := by
  have hb : d.breakOff = d := by
    rw [Debugger.breakOff, Machine.breakOff, if_neg (by simp [Machine.isActive, hs])]
  rw [proceed_debug, hb, ite_self]

theorem proceed_of_error (ha : d.active = true) (hs : d.machine.status = .stopped) {e : Error} {es : List Event}
    (hev : d.machine.events = .error e :: es) (interrupted : Bool) :
    proceed (.debug d) interrupted =
      { host := .debug { d with machine := { d.machine with events := es } }
        outbox := [.write (errorText e)] } := by
  have hrun := Turn.run_of_event (Debugger.turn_of_cons ha hev) stride
  rw [← Debugger.untilEvent_eq_run] at hrun
  rw [proceed_of_stopped hs, proceed, if_neg Bool.false_ne_true, Host.untilEvent, hrun]
  rfl

theorem proceed_of_ended (ha : d.active = true) (hs : d.machine.status = .stopped)
    (hev : d.machine.events = []) (interrupted : Bool) :
    proceed (.debug d) interrupted = { host := .debug d.endSession, phase := .finished } := by
  have hrun := Turn.run_of_event (Debugger.turn_of_stopped ha hev hs) stride
  rw [← Debugger.untilEvent_eq_run] at hrun
  rw [proceed_of_stopped hs, proceed, if_neg Bool.false_ne_true, Host.untilEvent, hrun]
  exact if_neg (by simp [d.endSession_active])

/-- A session that is broken off with nothing in its queue reports the break and ends. -/
theorem finishes_breakOff (ha : d.active = true) (hev : d.machine.events = []) (hs : d.machine.status ≠ .stopped) :
    ∃ (label : Option Label) (d' : Debugger V), d'.active = false ∧
      Finishes { host := .debug d.breakOff }
        [.poll, .write (errorText (Error.Cause.interrupted.error.onLine label)), .poll]
        { host := .debug d', phase := .finished } := by
  have hm : d.breakOff.machine = d.machine.abort (Error.Cause.interrupted.error.onLine d.machine.upcomingLabel?) :=
    if_pos (decide_eq_true hs)
  have hstopped : d.breakOff.machine.status = .stopped := by
    rw [hm]
    rfl
  have hevents : d.breakOff.machine.events =
      [.error (Error.Cause.interrupted.error.onLine d.machine.upcomingLabel?)] := by
    rw [hm, Machine.abort, Machine.emit, hev]
    rfl
  -- The machine has stopped, so that no poll can bring a second error into the queue.
  let reported : Debugger V := { d.breakOff with machine := { d.breakOff.machine with events := [] } }
  refine ⟨d.machine.upcomingLabel?, reported.endSession, reported.endSession_active, ?_⟩
  refine .ask rfl (proceed_of_error (d := d.breakOff) ha hstopped hevents) ?_
  refine .ask rfl (fun _ => rfl) ?_
  refine .ask rfl (proceed_of_ended (d := reported) ha hstopped rfl) ?_
  exact .done rfl

end

theorem Attends.breaksOff {c c' : Console V} (h : Attends c) {channel : Channel} {prompt : String} {typed : Typed}
    (hx : c.exchange? ⟨.read channel prompt, typed⟩ = some c') (hleaves : typed.leaves channel = true) :
    ∃ d : Debugger V, d.active = true ∧ d.machine.events = [] ∧ d.machine.status ≠ .stopped ∧
      c' = { host := .debug d.breakOff } := by
  obtain ⟨next, hs, rfl⟩ := exchange?_eq_some.1 hx
  obtain ⟨host, phase, outbox⟩ := c
  cases outbox with
  | cons o outbox => cases o <;> cases hs
  | nil =>
    cases h with
    | rests | runs => cases hs
    | @asks d _ _ session events waiting =>
      cases hs
      refine ⟨d, session.active, events, by simp [waiting], ?_⟩
      cases typed with
      | line | interrupt => cases hleaves
      | quit | eof => rfl
    | @prompts d _ session events running =>
      cases hs
      refine ⟨d, session.active, events, by simp [running], ?_⟩
      cases typed with
      | line => cases hleaves
      | interrupt | quit | eof => rfl

/-- A user who leaves a prompt of a debugging session is asked for nothing more: whatever the terminal replies, the
console reports the break, ends the session and finishes. -/
theorem finishes_of_leaves (generator : Random.Generator) (viewer : V) (source : String) {xs : List Exchange}
    {channel : Channel} {prompt : String} {typed : Typed} {c : Console V}
    (h : (debugSource { generator } viewer source).talk? (xs ++ [⟨.read channel prompt, typed⟩]) = some c)
    (hleaves : typed.leaves channel = true) :
    ∃ (label : Option Label) (d : Debugger V), d.active = false ∧
      Finishes c [.poll, .write (errorText (Error.Cause.interrupted.error.onLine label)), .poll]
        { host := .debug d, phase := .finished } ∧
      ∀ (s : Script) (requests : Nat), s.written < s.capacity → ∃ s',
        play (requests + 3) c s = (.finished, { host := .debug d, phase := .finished }, s') ∧
        s'.log = .write (errorText (Error.Cause.interrupted.error.onLine label)) :: s.log := by
  obtain ⟨c₁, hxs, hx⟩ := talk?_append_singleton.1 h
  obtain ⟨d₁, ha, hev, hs, rfl⟩ := ((attends_debugSource generator viewer source).talk? hxs).breaksOff hx hleaves
  obtain ⟨label, d, hd, hfin⟩ := finishes_breakOff ha hev hs
  refine ⟨label, d, hd, hfin, fun s requests hroom => ?_⟩
  obtain ⟨s', hs', hlog⟩ := s.exists_replyAll? hroom (errorText (Error.Cause.interrupted.error.onLine label))
  exact ⟨s', hfin.play hs' requests, hlog⟩

/-- The dialogue of a step to the `INPUT` of the first line. -/
def stepToInput : List Exchange :=
  [⟨.poll, false⟩, ⟨.write (bold ">   0    10 INPUT A" ++ "\n"), ()⟩, ⟨.read .command "(debug) ", .line "s"⟩,
    ⟨.remember .command "s", ()⟩, ⟨.poll, false⟩]

theorem finishes_at_input : ∃ (c : Console Silent) (label : Option Label) (d : Debugger Silent) (s : Script),
    (debugSource (.ofSeed 1) ⟨⟩ "10 INPUT A\n20 END").talk? (stepToInput ++ [⟨.read .input "? ", .eof⟩]) = some c ∧
    d.active = false ∧
    Finishes c [.poll, .write (errorText (Error.Cause.interrupted.error.onLine label)), .poll]
      { host := .debug d, phase := .finished } ∧
    play 3 c { capacity := 1 } = (.finished, { host := .debug d, phase := .finished }, s) ∧
    s.log = [.write (errorText (Error.Cause.interrupted.error.onLine label))] := by
  have hsome : ((debugSource (.ofSeed 1) (⟨⟩ : Silent) "10 INPUT A\n20 END").talk?
      (stepToInput ++ [⟨.read .input "? ", .eof⟩])).isSome = true := by
    decide +kernel
  obtain ⟨c, hc⟩ := Option.isSome_iff_exists.1 hsome
  obtain ⟨label, d, hd, hfin, hplay⟩ := finishes_of_leaves (.ofSeed 1) _ _ hc rfl
  obtain ⟨s, hs, hlog⟩ := hplay { capacity := 1 } 0 Nat.one_pos
  exact ⟨c, label, d, s, hc, hd, hfin, hs, hlog⟩

end LineBasic.Console
