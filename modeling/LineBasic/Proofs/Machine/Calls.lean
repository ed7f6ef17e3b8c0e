import LineBasic.Proofs.Machine.Frame

/-!
# What a step does to the open calls

A statement leaves the open calls alone, opens one, closes one or forgets them all
(`exec_outcome`), and so does a step (`step_calls`). None of them queues an error: a statement that
fails says so, and it is the step that queues its error.
-/
namespace LineBasic

theorem Stack.toList_pop {α : Type} {s t : Stack α} {a : α} (h : s.pop = .ok (a, t)) :
    s.toList = t.toList ++ [a] := by
  unfold pop at h
  split at h
  · cases h
  · next hitems =>
    cases h
    simp [toList, hitems]

theorem Stack.size_of_pop {α : Type} {s t : Stack α} {a : α} (h : s.pop = .ok (a, t)) :
    s.size = t.size + 1 := by
  rw [size_eq_length, toList_pop h, List.length_append, ← size_eq_length]
  rfl

/-- Where the run goes on when a call returns. -/
def ReturnPoint.sequel : ReturnPoint → Sequel
  | slot i => .jump i
  | direct => .halt

namespace Machine

variable {α : Type}

/-- Where a call that is opened now returns to. -/
def back (m : Machine) : ReturnPoint :=
  if m.direct.isSome then .direct else .slot (m.cursor + 1)

/-! ## Actions that leave the calls alone -/

/-- The machine `n` is where `m` was, with the same open calls and no new error among its events. -/
structure Quiet (m n : Machine) : Prop extends SamePlace m n where
  calls : n.calls = m.calls
  events : ∃ es, n.events = m.events ++ es ∧ ∀ e, Event.error e ∉ es

theorem Quiet.of_events {m n : Machine} (h : SamePlace m n) (hc : n.calls = m.calls)
    (he : n.events = m.events) : Quiet m n :=
  ⟨h, hc, [], by rw [he, List.append_nil], by simp⟩

theorem Quiet.refl (m : Machine) : Quiet m m :=
  .of_events (.refl m) rfl rfl

theorem Quiet.trans {m n o : Machine} (h : Quiet m n) (h' : Quiet n o) : Quiet m o := by
  obtain ⟨es, hes, hno⟩ := h.events
  obtain ⟨es', hes', hno'⟩ := h'.events
  refine ⟨h.toSamePlace.trans h'.toSamePlace, h'.calls.trans h.calls, es ++ es', ?_, fun e he => ?_⟩
  · rw [hes', hes, List.append_assoc]
  · rcases List.mem_append.1 he with he | he
    · exact hno e he
    · exact hno' e he

theorem Quiet.back_eq {m n : Machine} (h : Quiet m n) : n.back = m.back := by
  rw [back, back, h.direct, h.cursor]

def Tacit (x : ExecM α) : Prop :=
  ∀ m, Quiet m (final (x m))

theorem tacit_basic : Basic Tacit where
  pure _ m := .refl m
  throw _ m := .refl m
  bind hx hf := final_bind .trans hx hf
  get {_ f} hf _ := by
    intro m
    exact hf m m
  value e := by
    intro m
    have h := stays_closed.value e m
    unfold value at h ⊢
    cases hx : Expression.evaluate m.memory e m.generator <;> rw [hx] at h <;> exact .of_events h rfl rfl
  setMemory _ m := .of_events (stays_closed.setMemory _ m) rfl rfl
  setInputs _ m := .of_events (stays_closed.setInputs _ m) rfl rfl
  setFilled _ m := .of_events (stays_closed.setFilled _ m) rfl rfl

theorem tacit_queue (f : Machine → List Event) (h : ∀ m e, Event.error e ∉ f m) :
    Tacit (modify fun m => { m with events := m.events ++ f m }) :=
  fun m => ⟨⟨rfl, rfl, rfl, rfl⟩, rfl, f m, rfl, h m⟩

/-! ## Statements -/

/-- What executing a statement does to the open calls. A jump leads to a line of the program, unless
it is that of a `RETURN`. -/
inductive Outcome (m : Machine) : EStateM.Result Error Machine Sequel → Prop
  | went {q : Sequel} {n : Machine} (quiet : Quiet m n)
      (target : ∀ slot, q = .jump slot → slot < m.program.size) : Outcome m (.ok q n)
  | called {slot : Nat} {n : Machine} {calls : Stack ReturnPoint} (quiet : Quiet m n)
      (target : slot < m.program.size) (push : m.calls.push m.back = .ok calls) :
      Outcome m (.ok (.jump slot) { n with calls })
  | returned {back : ReturnPoint} {n : Machine} {calls : Stack ReturnPoint} (quiet : Quiet m n)
      (pop : m.calls.pop = .ok (back, calls)) : Outcome m (.ok back.sequel { n with calls })
  | cleared {n : Machine} (quiet : Quiet m n) :
      Outcome m (.ok .halt { n.forget with program := {} })
  | failed {e : Error} {n : Machine} (quiet : Quiet m n) : Outcome m (.error e n)

theorem Outcome.of_quiet {m n : Machine} {r : EStateM.Result Error Machine Sequel} (h : Outcome n r)
    (hq : Quiet m n) : Outcome m r := by
  cases h with
  | went quiet target => exact .went (hq.trans quiet) (hq.program ▸ target)
  | called quiet target push =>
    exact .called (hq.trans quiet) (hq.program ▸ target) (by rwa [← hq.calls, ← hq.back_eq])
  | returned quiet pop => exact .returned (hq.trans quiet) (by rwa [← hq.calls])
  | cleared quiet => exact .cleared (hq.trans quiet)
  | failed quiet => exact .failed (hq.trans quiet)

theorem Tacit.outcome_bind {x : ExecM α} {f : α → ExecM Sequel} (hx : Tacit x)
    (hf : ∀ a m, Outcome m (f a m)) (m : Machine) : Outcome m ((x >>= f) m) :=
  bind_outcome (fun hq h => h.of_quiet hq) .failed hx hf m

theorem pure_outcome {q : Sequel} (hq : ∀ slot, q ≠ .jump slot) (m : Machine) :
    Outcome m ((pure q : ExecM Sequel) m) :=
  .went (.refl m) (fun slot h => absurd h (hq slot))

theorem get_outcome {f : Machine → ExecM Sequel} (hf : ∀ m, Outcome m (f m m)) (m : Machine) :
    Outcome m ((get >>= f) m) :=
  hf m

theorem fill_outcome (ts : List Token) (m : Machine) : Outcome m (fill ts m) := by
  induction ts generalizing m with
  | nil => exact (tacit_basic.setFilled fun _ => 0).outcome_bind (fun _ => pure_outcome (by simp)) m
  | cons t ts ih =>
    refine get_outcome (fun m => ?_) m
    cases m.inputs with
    | nil => exact pure_outcome (by simp) m
    | cons v inputs =>
      refine (tacit_basic.setInputs inputs).outcome_bind (fun _ => ?_) m
      refine (tacit_basic.assign t v).outcome_bind (fun _ => ?_)
      exact (tacit_basic.setFilled (· + 1)).outcome_bind (fun _ => ih)

theorem lt_size_of_jump? {p : Program} {label : Int16} {slot : Nat} (h : p.jump? label = some slot) :
    slot < p.size := by
  obtain ⟨-, -, h⟩ := Option.bind_eq_some_iff.1 h
  obtain ⟨i, hi, h⟩ := Option.bind_eq_some_iff.1 h
  obtain ⟨line, -, h⟩ := Option.bind_eq_some_iff.1 h
  obtain ⟨-, -, h⟩ := Option.bind_eq_some_iff.1 h
  cases h
  exact Program.lt_size_of_slot? hi

/-- A jump leads to a line of the program. -/
theorem destination_lt {k : Keyword} {ts : List Token} {m n : Machine} {slot : Nat}
    (h : destination k ts m = .ok slot n) : slot < m.program.size := by
  unfold destination at h
  split at h
  · next e =>
    have hplace := stays_closed.value e m
    cases hv : value e m with
    | error err n' =>
      rw [bind_of_error hv] at h
      cases h
    | ok label n' =>
      rw [hv] at hplace
      rw [bind_of_ok hv, get_bind] at h
      cases hj : n'.program.jump? label with
      | none =>
        rw [hj] at h
        cases h
      | some i =>
        rw [hj] at h
        cases h
        rw [← hplace.program]
        exact lt_size_of_jump? hj
  · cases h

theorem destination_outcome {k : Keyword} {ts : List Token} {f : Nat → ExecM Sequel}
    (hf : ∀ slot m, slot < m.program.size → Outcome m (f slot m)) (m : Machine) :
    Outcome m ((destination k ts >>= f) m) := by
  have h := tacit_basic.destination k ts m
  cases hd : destination k ts m with
  | error e n =>
    rw [hd] at h
    rw [bind_of_error hd]
    exact .failed h
  | ok slot n =>
    rw [hd] at h
    rw [bind_of_ok hd]
    exact (hf slot n (h.program ▸ destination_lt hd)).of_quiet h

theorem openCall_of_push {m : Machine} {calls : Stack ReturnPoint} (h : m.calls.push m.back = .ok calls) :
    openCall m = .ok () { m with calls } := by
  change (liftExcept (m.calls.push m.back) >>= fun calls => modify ({ · with calls }) : ExecM Unit) m = _
  rw [h]
  rfl

theorem openCall_of_error {m : Machine} {e : Error} (h : m.calls.push m.back = .error e) :
    openCall m = .error e m := by
  change (liftExcept (m.calls.push m.back) >>= fun calls => modify ({ · with calls }) : ExecM Unit) m = _
  rw [h]
  rfl

theorem closeCall_of_pop {m : Machine} {back : ReturnPoint} {calls : Stack ReturnPoint}
    (h : m.calls.pop = .ok (back, calls)) : closeCall m = .ok back { m with calls } := by
  rw [closeCall, get_bind, h]
  rfl

theorem closeCall_of_error {m : Machine} {e : Error} (h : m.calls.pop = .error e) :
    closeCall m = .error e m := by
  rw [closeCall, get_bind, h]
  rfl

theorem openCall_outcome {slot : Nat} {m : Machine} (h : slot < m.program.size) :
    Outcome m ((openCall >>= fun _ => pure (.jump slot) : ExecM Sequel) m) := by
  cases hp : m.calls.push m.back with
  | error e =>
    rw [bind_of_error (openCall_of_error hp)]
    exact .failed (.refl m)
  | ok calls =>
    rw [bind_of_ok (openCall_of_push hp)]
    exact .called (.refl m) h hp

theorem closeCall_outcome {f : ReturnPoint → ExecM Sequel} (hf : ∀ back, f back = pure back.sequel)
    (m : Machine) : Outcome m ((closeCall >>= f) m) := by
  cases hp : m.calls.pop with
  | error e =>
    rw [bind_of_error (closeCall_of_error hp)]
    exact .failed (.refl m)
  | ok r =>
    rw [bind_of_ok (closeCall_of_pop hp), hf]
    exact .returned (.refl m) hp

theorem exec_outcome (s : Statement) (m : Machine) : Outcome m (exec s m) := by
  fun_induction exec s generalizing m with
  | case1 t e =>
    refine (tacit_basic.value e).outcome_bind (fun v => ?_) m
    exact (tacit_basic.assign t v).outcome_bind (fun _ => pure_outcome (by simp))
  | case2 args =>
    refine (tacit_basic.printed args).outcome_bind (fun text => ?_) m
    exact (tacit_queue (fun _ => [.print (text ++ "\n")]) (by simp)).outcome_bind
      (fun _ => pure_outcome (by simp))
  | case3 args => exact get_outcome (fun m => fill_outcome _ m) m
  | case4 a o b s _ ih =>
    refine (tacit_basic.value a).outcome_bind (fun x => ?_) m
    refine (tacit_basic.value b).outcome_bind (fun y => ?_)
    cases o.holds x y with
    | false => exact pure_outcome (by simp)
    | true => exact ih
  | case5 args =>
    refine destination_outcome (fun slot m h => ?_) m
    exact .went (.refl m) (by simpa using h)
  | case6 args => exact destination_outcome (fun slot m h => openCall_outcome h) m
  | case7 =>
    refine closeCall_outcome (fun back => ?_) m
    cases back <;> rfl
  | case8 => exact .cleared (.refl m)
  | case9 =>
    refine Tacit.outcome_bind (tacit_queue _ (by simp)) (fun _ => ?_) m
    exact pure_outcome (by simp)
  | case14 => exact .failed (.refl m)
  | case10 | case11 | case12 | case13 => exact pure_outcome (by simp) m

/-! ## Steps -/

/-- What a step does to the open calls. -/
inductive CallsAfter (m n : Machine) : Prop
  | kept (calls : n.calls = m.calls) (program : n.program = m.program)
  /-- Unless the call was a direct statement, it was on a line of the program. -/
  | opened (calls : m.calls.push m.back = .ok n.calls) (program : n.program = m.program)
      (onLine : m.direct = none → m.cursor < m.program.size)
  | closed {back : ReturnPoint} (calls : m.calls.pop = .ok (back, n.calls))
      (program : n.program = m.program)
  | cleared (calls : n.calls = m.calls.clear)

theorem moveTo_calls (m : Machine) (slot : Nat) (label : Option Label) :
    (m.moveTo slot label).calls = m.calls ∧ (m.moveTo slot label).program = m.program := by
  unfold moveTo
  dsimp only
  split <;> exact ⟨rfl, rfl⟩

theorem follow_calls (m : Machine) (label : Option Label) {q : Sequel} (hq : q ≠ .restart) :
    (m.follow label q).calls = m.calls ∧ (m.follow label q).program = m.program := by
  cases q with
  | next =>
    unfold follow
    by_cases hd : m.direct.isSome = true
    · rw [if_pos hd]
      exact ⟨rfl, rfl⟩
    · rw [if_neg hd]
      exact moveTo_calls m _ label
  | jump slot => exact moveTo_calls { m with direct := none } slot label
  | restart => exact absurd rfl hq
  | halt | wait => exact ⟨rfl, rfl⟩

theorem sequel_ne_restart (back : ReturnPoint) : back.sequel ≠ .restart := by
  cases back <;> simp [ReturnPoint.sequel]

theorem cursor_lt_of_upcoming? {m : Machine} {s : Statement} (h : m.upcoming? = some s)
    (hd : m.direct = none) : m.cursor < m.program.size := by
  rw [upcoming?, hd] at h
  change Option.map _ _ = _ at h
  obtain ⟨l, hl, -⟩ := Option.map_eq_some_iff.1 h
  exact (List.getElem?_eq_some_iff.1 hl).1

/-- Goes on after a statement on the line `label`, or ends the run with its error. -/
def conclude (label : Option Label) : EStateM.Result Error Machine Sequel → Machine
  | .ok q m => m.follow label q
  | .error e m => m.abort (e.onLine label)

theorem step_eq_of_exec {m : Machine} {s : Statement} (hr : m.isRunning = true)
    (hs : m.upcoming? = some s) : m.step = conclude s.label (exec s m) := by
  rewrite [step, if_pos hr, hs]
  dsimp only
  cases exec s m <;> rfl

/-- A step leaves the open calls alone, opens one, closes one or forgets all. -/
theorem step_calls (m : Machine) : CallsAfter m m.step := by
  cases hr : m.isRunning with
  | false =>
    rw [step_of_not_isRunning hr]
    exact .kept rfl rfl
  | true =>
    cases hs : m.upcoming? with
    | none =>
      rw [step, if_pos hr, hs]
      exact .kept rfl rfl
    | some s =>
      have h := exec_outcome s m
      rw [step_eq_of_exec hr hs]
      generalize exec s m = r at h
      cases h with
      | @went q n quiet =>
        -- of the ways to go on, only starting again forgets the calls
        by_cases hq : q = .restart
        · subst hq
          exact .cleared (congrArg Stack.clear quiet.calls)
        · obtain ⟨hc, hp⟩ := follow_calls n s.label hq
          exact .kept (hc.trans quiet.calls) (hp.trans quiet.program)
      | @called slot n calls quiet _ push =>
        obtain ⟨hc, hp⟩ := follow_calls { n with calls } s.label (q := .jump slot) (by simp)
        exact .opened (push.trans (congrArg _ hc.symm)) (hp.trans quiet.program)
          (cursor_lt_of_upcoming? hs)
      | @returned back n calls quiet pop =>
        obtain ⟨hc, hp⟩ := follow_calls { n with calls } s.label (sequel_ne_restart back)
        refine @CallsAfter.closed _ _ back ?_ (hp.trans quiet.program)
        rw [pop, conclude, hc]
      | cleared quiet => exact .cleared (congrArg Stack.clear quiet.calls)
      | failed quiet => exact .kept quiet.calls quiet.program

/-! ## Lines given to a machine -/

/-- The machine `n` is `m` after the change `c` of its program, as far as places in the program are
concerned. -/
structure Revised (m : Machine) (c : Change) (n : Machine) : Prop where
  program : Program.Alters m.program c n.program
  cursor : n.cursor = c.shift m.cursor
  calls : n.calls = m.calls.map c.shiftReturn

theorem Revised.of_eq {m n : Machine} (hp : n.program = m.program) (hk : n.cursor = m.cursor)
    (hc : n.calls = m.calls) : Revised m .unchanged n where
  program := hp ▸ .unchanged
  cursor := hk
  calls := by
    have hid : Change.unchanged.shiftReturn = id := funext (fun back => by cases back <;> rfl)
    rw [hc, hid]
    simp [Stack.map]

theorem submitStatement_revised (m : Machine) (s : Statement) :
    ∃ c, Revised m c (m.submitStatement s).2 := by
  unfold submitStatement
  split
  · exact ⟨_, Program.apply_alters m.program s, rfl, rfl⟩
  · split
    · exact ⟨_, .of_eq rfl rfl rfl⟩
    · split <;> exact ⟨_, .of_eq rfl rfl rfl⟩

/-- The values of an answer are queued, or its error ends the run. -/
theorem takeAnswer_eq (m : Machine) (text : String) :
    (∃ n vs, Quiet m n ∧
        m.takeAnswer text = { n with inputs := n.inputs ++ vs, status := .running }) ∨
      ∃ n e, Quiet m n ∧ answerValues text m = .error e n ∧
        m.takeAnswer text = n.abort (e.onLine n.upcomingLabel?) := by
  have h := tacit_basic.answerValues text m
  unfold takeAnswer
  cases hx : answerValues text m with
  | ok vs n =>
    rw [hx] at h
    exact .inl ⟨n, vs, h, rfl⟩
  | error e n =>
    rw [hx] at h
    exact .inr ⟨n, e, h, rfl, rfl⟩

theorem takeAnswer_revised (m : Machine) (text : String) : Revised m .unchanged (m.takeAnswer text) := by
  rcases takeAnswer_eq m text with ⟨n, vs, quiet, h⟩ | ⟨n, e, quiet, -, h⟩ <;> rw [h]
  · exact .of_eq quiet.program quiet.cursor quiet.calls
  · exact .of_eq quiet.program quiet.cursor quiet.calls

/-- A line given to the machine changes its program, and with it the places in it. -/
theorem submit_revised (m : Machine) (text : String) : ∃ c, Revised m c (m.submit text).2 := by
  unfold submit
  split
  · exact ⟨_, takeAnswer_revised m text⟩
  · unfold parse
    cases Statement.parse text with
    | error e => exact ⟨_, .of_eq rfl rfl rfl⟩
    | ok s => exact submitStatement_revised m s

/-! ## Other operations -/

theorem fetch?_snd (m : Machine) : ∃ es, m.fetch?.2 = { m with events := es } := by
  unfold fetch?
  split
  · exact ⟨m.events, rfl⟩
  · exact ⟨_, rfl⟩

theorem breakOff_eq (m : Machine) : m.breakOff = m ∨ ∃ e, m.breakOff = m.abort e := by
  unfold breakOff
  split
  · exact .inr ⟨_, rfl⟩
  · exact .inl rfl

end Machine

end LineBasic
