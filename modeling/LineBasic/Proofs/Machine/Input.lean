import LineBasic.Proofs.Equality
import LineBasic.Proofs.Machine.Calls
import LineBasic.Proofs.Machine.Reachable

/-!
# How an `INPUT` is executed

An `INPUT` that lacks answers is taken up again from the start of its statement: the conditions of an
`IF` in front of it are evaluated anew, and the variables that it has filled are skipped. So it gives
a value to each of its variables if and only if none was skipped at first and the conditions still
hold at last (`given_iff`).
-/
namespace LineBasic

/-- The variables of the `INPUT` that a statement is, or that stands behind its conditions. -/
def Statement.asked? : Statement → Option (List Token)
  | ⟨.input, vs, _⟩ => some vs
  | ⟨.cond, [_, .op _, _, .statement s], _⟩ => s.asked?
  | _ => none

/-- The statement itself, or the one that stands behind its conditions. -/
def Statement.core : Statement → Statement
  | ⟨.cond, [_, .op _, _, .statement s], _⟩ => s.core
  | s => s

theorem Statement.core_of_asked? {s : Statement} {vs : List Token} (h : s.asked? = some vs) :
    ∃ l, s.core = ⟨.input, vs, l⟩ := by
  fun_induction Statement.asked? s with
  | case1 vs' l =>
    cases h
    exact ⟨l, rfl⟩
  | case2 a o b s l ih => exact ih h
  | case3 => cases h

/-- Gives a value to the variable that a token names. -/
def Memory.store (memory : Memory) (given : Token × Int16) : Except Error Memory :=
  match given.1.varName? with
  | none => .error (Error.Cause.notVariable given.1.render).error
  | some name => memory.write name given.2

namespace Machine

variable {α β : Type}

/-! ## Actions that only draw -/

/-- The action changes no more than the generator. -/
def Draws (x : ExecM α) : Prop :=
  ∀ m, ∃ g, final (x m) = { m with generator := g }

theorem draws_pure (a : α) : Draws (pure a : ExecM α) :=
  fun m => ⟨m.generator, rfl⟩

theorem draws_throw (e : Error) : Draws (throw e : ExecM α) :=
  fun m => ⟨m.generator, rfl⟩

theorem draws_value (e : Token) : Draws (value e) := by
  intro m
  unfold value
  cases Expression.evaluate m.memory e m.generator with
  | ok v g => exact ⟨g, rfl⟩
  | error e g => exact ⟨g, rfl⟩

theorem Draws.bind {x : ExecM α} {f : α → ExecM β} (hx : Draws x) (hf : ∀ a, Draws (f a)) :
    Draws (x >>= f) := by
  refine final_bind (R := fun m n => ∃ g, n = { m with generator := g }) ?_ hx hf
  rintro m n o ⟨g, rfl⟩ ⟨g', rfl⟩
  exact ⟨g', rfl⟩

theorem draws_answerValues (text : String) : Draws (answerValues text) := by
  have hvalues : ∀ es, Draws (values es) := by
    intro es
    induction es with
    | nil => exact draws_pure _
    | cons e es ih => exact (draws_value e).bind (fun _ => ih.bind (fun _ => draws_pure _))
  unfold answerValues
  cases (lex text.toList).bind Expression.parseList with
  | ok es => exact hvalues es
  | error e => exact draws_throw _

/-! ## Conditions -/

/-- Evaluates the conditions in front of a statement, up to the first that does not hold, and says
whether all do. -/
def conditions : Statement → ExecM Bool
  | ⟨.cond, [a, .op o, b, .statement s], _⟩ => do
    let x ← value a
    let y ← value b
    if o.holds x y then conditions s else return false
  | _ => return true

theorem draws_conditions (s : Statement) : Draws (conditions s) := by
  fun_induction conditions s with
  | case1 a o b s _ ih =>
    refine (draws_value a).bind (fun x => (draws_value b).bind (fun y => ?_))
    cases o.holds x y with
    | false => exact draws_pure _
    | true => exact ih
  | case2 => exact draws_pure _

/-- Fills those of the variables that are not filled yet. -/
def fillRest (vs : List Token) : ExecM Sequel := do
  fill (vs.drop (← get).filled)

/-- A statement evaluates its conditions, and executes what stands behind them if they hold. -/
theorem exec_core (s : Statement) :
    exec s = do if ← conditions s then exec s.core else return .next := by
  fun_induction conditions s with
  | case1 a o b s l ih =>
    rw [exec, Statement.core, ih]
    simp only [bind_assoc]
    refine congrArg _ (funext fun x => congrArg _ (funext fun y => ?_))
    cases o.holds x y <;> rfl
  | case2 s hs =>
    rw [Statement.core]
    · rfl
    · exact hs

/-- A statement that asks for variables evaluates its conditions, and fills the variables if they
hold. -/
theorem exec_of_asked? {s : Statement} {vs : List Token} (h : s.asked? = some vs) :
    exec s = do if ← conditions s then fillRest vs else return .next := by
  obtain ⟨l, hl⟩ := Statement.core_of_asked? h
  rw [exec_core, hl]
  rfl

/-! ## Filling -/

/-- The values of `log` have gone from the front of the answers of `m` to variables. -/
structure Stores (m : Machine) (log : List (Token × Int16)) (n : Machine) : Prop where
  memory : log.foldlM Memory.store m.memory = .ok n.memory
  inputs : m.inputs = log.map Prod.snd ++ n.inputs

theorem Stores.nil (m : Machine) : Stores m [] m :=
  ⟨rfl, rfl⟩

theorem Stores.congr {m n o : Machine} {log : List (Token × Int16)} (h : Stores m log n)
    (hmem : o.memory = n.memory) (hin : o.inputs = n.inputs) : Stores m log o where
  memory := h.memory.trans (congrArg _ hmem.symm)
  inputs := h.inputs.trans (congrArg _ hin.symm)

theorem Stores.of_draw {m n : Machine} {g : Random.Generator} {log : List (Token × Int16)}
    (h : Stores { m with generator := g } log n) : Stores m log n :=
  ⟨h.memory, h.inputs⟩

/-- The outcome of filling variables: all have got a value, the answers have run out, or a value could
not be stored. -/
inductive Fills (ts : List Token) (m : Machine) : EStateM.Result Error Machine Sequel → Prop
  | done {log : List (Token × Int16)} {n : Machine} : Stores m log n → log.map Prod.fst = ts →
      n.filled = 0 → n.events = m.events → Fills ts m (.ok .next n)
  | wait {log : List (Token × Int16)} {n : Machine} : Stores m log n → log.map Prod.fst <+: ts →
      log.length < ts.length → n.filled = m.filled + log.length → n.events = m.events →
      Fills ts m (.ok .wait n)
  | error {e : Error} {n : Machine} : n.events = m.events → Fills ts m (.error e n)

theorem assign_eq (t : Token) (v : Int16) (m : Machine) :
    assign t v m =
      match m.memory.store (t, v) with
      | .ok memory => .ok () { m with memory }
      | .error e => .error e m := by
  unfold assign Memory.store
  cases t.varName? with
  | none => rfl
  | some name =>
    show (liftExcept (m.memory.write name v) >>= fun memory =>
      modify ({ · with memory }) : ExecM Unit) m = _
    dsimp only
    cases m.memory.write name v <;> rfl

/-- The first answer goes to the first variable. -/
theorem Stores.cons {m n : Machine} {t : Token} {v : Int16} {inputs : List Int16} {memory : Memory}
    {log : List (Token × Int16)} (hin : m.inputs = v :: inputs)
    (hst : m.memory.store (t, v) = .ok memory)
    (h : Stores { m with inputs, memory, filled := m.filled + 1 } log n) : Stores m ((t, v) :: log) n := by
  refine ⟨?_, ?_⟩
  · rw [List.foldlM_cons, hst]
    exact h.memory
  · rw [hin, List.map_cons, List.cons_append]
    exact congrArg _ h.inputs

theorem fill_of_nil {m : Machine} (h : m.inputs = []) (t : Token) (ts : List Token) :
    fill (t :: ts) m = .ok .wait m := by
  rw [fill, get_bind]
  simp only [h]
  rfl

theorem fill_of_cons {m : Machine} {v : Int16} {inputs : List Int16} (h : m.inputs = v :: inputs)
    (t : Token) (ts : List Token) :
    fill (t :: ts) m =
      match m.memory.store (t, v) with
      | .ok memory => fill ts { m with inputs, memory, filled := m.filled + 1 }
      | .error e => .error e { m with inputs } := by
  rw [fill, get_bind]
  simp only [h]
  show EStateM.bind (assign t v) _ { m with inputs } = _
  rw [EStateM.bind, assign_eq]
  dsimp only
  cases m.memory.store (t, v) <;> rfl

theorem fill_fills (ts : List Token) (m : Machine) : Fills ts m (fill ts m) := by
  induction ts generalizing m with
  | nil =>
    have h : Stores m [] { m with filled := 0 } := ⟨rfl, rfl⟩
    exact .done h rfl rfl rfl
  | cons t ts ih =>
    cases hin : m.inputs with
    | nil =>
      rw [fill_of_nil hin]
      exact .wait (.nil m) (List.nil_prefix) (Nat.succ_pos _) rfl rfl
    | cons v inputs =>
      rw [fill_of_cons hin]
      cases hst : m.memory.store (t, v) with
      | error e => exact .error rfl
      | ok memory =>
        dsimp only
        have hmore := ih { m with inputs, memory, filled := m.filled + 1 }
        generalize fill ts { m with inputs, memory, filled := m.filled + 1 } = r at hmore ⊢
        cases hmore with
        | done ht hts hf he => exact .done (ht.cons hin hst) (congrArg (t :: ·) hts) hf he
        | wait ht hts hlt hf he =>
          refine .wait (ht.cons hin hst) ?_ (Nat.succ_lt_succ hlt) ?_ he
          · exact List.cons_prefix_cons.2 ⟨rfl, hts⟩
          · rw [hf, List.length_cons]
            dsimp only
            omega
        | error he => exact .error he

/-! ## Visits -/

/-- The machine is about to execute a statement that asks for `vs`. -/
structure Asks (m : Machine) (s : Statement) (vs : List Token) : Prop where
  running : m.isRunning = true
  upcoming : m.upcoming? = some s
  asked : s.asked? = some vs

/-- The conditions in front of a statement hold when it is executed now. -/
def passes (m : Machine) (s : Statement) : Bool :=
  match conditions s m with
  | .ok b _ => b
  | .error _ _ => false

/-- What a step makes of a machine that is about to execute `s`, which asks for `vs`. -/
inductive Visit (s : Statement) (vs : List Token) (m n : Machine) : Prop
  /-- All variables not filled yet have got a value. -/
  | filled (waiting : n.isWaiting = false) (passes : m.passes s = true)
      {log : List (Token × Int16)} (stores : Stores m log n)
      (names : log.map Prod.fst = vs.drop m.filled) (filled : n.filled = 0)
  | suspended (waiting : n.isWaiting = true) {log : List (Token × Int16)} (stores : Stores m log n)
      (names : log.map Prod.fst <+: vs.drop m.filled)
      (pending : log.length < (vs.drop m.filled).length) (filled : n.filled = m.filled + log.length)
  /-- A condition does not hold. -/
  | skipped (waiting : n.isWaiting = false) (passes : m.passes s = false) (stores : Stores m [] n)
      (filled : n.filled = m.filled)
  | failed (waiting : n.isWaiting = false) (events : n.events ≠ m.events)

theorem abort_events_ne {m n : Machine} (h : n.events = m.events) (e : Error) :
    (n.abort e).events ≠ m.events := by
  show n.events ++ [_] ≠ m.events
  simp [h]

/-- Going on to the next line fails, or touches neither variables nor answers. -/
theorem follow_next {m n : Machine} (hs : n.status = .running) (he : n.events = m.events)
    (label : Option Label) :
    (n.follow label .next).isWaiting = false ∧
      ((n.follow label .next).events ≠ m.events ∨
        (n.follow label .next).memory = n.memory ∧ (n.follow label .next).inputs = n.inputs ∧
          (n.follow label .next).filled = n.filled) := by
  unfold follow moveTo
  dsimp only
  split
  · exact ⟨rfl, .inr ⟨rfl, rfl, rfl⟩⟩
  · split
    · exact ⟨by simp [isWaiting, hs], .inr ⟨rfl, rfl, rfl⟩⟩
    · refine ⟨rfl, .inl ?_⟩
      exact abort_events_ne (n := { n with cursor := n.cursor + 1 }) he _

theorem exec_of_conditions {m n : Machine} {s : Statement} {vs : List Token} {b : Bool}
    (h : s.asked? = some vs) (hc : conditions s m = .ok b n) :
    exec s m = if b then fill (vs.drop n.filled) n else .ok .next n := by
  rw [exec_of_asked? h, bind_of_ok hc]
  cases b <;> rfl

theorem exec_of_conditions_error {m n : Machine} {s : Statement} {vs : List Token} {e : Error}
    (h : s.asked? = some vs) (hc : conditions s m = .error e n) : exec s m = .error e n := by
  rw [exec_of_asked? h, bind_of_error hc]

/-- A step fills variables, waits, skips the statement or fails. -/
theorem Asks.visit {m : Machine} {s : Statement} {vs : List Token} (h : m.Asks s vs) :
    Visit s vs m m.step := by
  have hr := status_of_isRunning h.running
  obtain ⟨g, hg⟩ := draws_conditions s m
  rw [step_eq_of_exec h.running h.upcoming]
  cases hc : conditions s m with
  | error e n =>
    rw [hc] at hg
    rw [exec_of_conditions_error h.asked hc]
    exact .failed rfl (abort_events_ne (congrArg events hg) _)
  | ok b n =>
    rw [hc] at hg
    -- the conditions have only drawn random numbers
    have hn : n = { m with generator := g } := hg
    have hpasses : m.passes s = b := by rw [passes, hc]
    rw [exec_of_conditions h.asked hc]
    subst hn
    cases b with
    | false =>
      obtain ⟨hw, he | ⟨hmem, hin, hf⟩⟩ :=
        follow_next (m := m) (n := { m with generator := g }) hr rfl s.label
      · exact .failed hw he
      · exact .skipped hw hpasses ((Stores.nil m).congr hmem hin) hf
    | true =>
      have hplace := stays_closed.fill (vs.drop m.filled) { m with generator := g }
      have hfills := fill_fills (vs.drop m.filled) { m with generator := g }
      show Visit s vs m (conclude s.label (fill (vs.drop m.filled) { m with generator := g }))
      generalize fill (vs.drop m.filled) { m with generator := g } = r at hplace hfills ⊢
      cases hfills with
      | error he => exact .failed rfl (abort_events_ne he _)
      | @wait log n ht hvs hlt hf he =>
        exact .suspended rfl ((Stores.of_draw ht).congr rfl rfl) hvs hlt hf
      | @done log n ht hvs hf he =>
        obtain ⟨hw, hne | ⟨hmem, hin, hf'⟩⟩ := follow_next (hplace.status.trans hr) he s.label
        · exact .failed hw hne
        · exact .filled hw hpasses ((Stores.of_draw ht).congr hmem hin) hvs (hf'.trans hf)

/-! ## Executions of an `INPUT` -/

/-- From `m₀` on, the machine has been executing statements that ask for `vs`. It had to wait each
time, was given these answers and has become `m`. Lines may be entered and events fetched
meanwhile. -/
inductive MidInput (vs : List Token) (m₀ : Machine) : List Int16 → Machine → Prop
  | begin : MidInput vs m₀ [] m₀
  | wait {answers : List Int16} {m : Machine} {s : Statement} : MidInput vs m₀ answers m →
      m.Asks s vs → m.step.isWaiting = true → MidInput vs m₀ answers m.step
  | answer {answers : List Int16} {m : Machine} (text : String) (values : List Int16) :
      MidInput vs m₀ answers m → m.isWaiting = true → (m.submit text).2.isRunning = true →
      (m.submit text).2.inputs = m.inputs ++ values →
      MidInput vs m₀ (answers ++ values) (m.submit text).2
  | enter {answers : List Int16} {m : Machine} (text : String) : MidInput vs m₀ answers m →
      m.isRunning = true → MidInput vs m₀ answers (m.submit text).2
  | fetch {answers : List Int16} {m : Machine} :
      MidInput vs m₀ answers m → MidInput vs m₀ answers m.fetch?.2

/-- The values of `log` have gone from the answers to the first of the variables. -/
structure Progress (vs : List Token) (m₀ : Machine) (answers : List Int16)
    (log : List (Token × Int16)) (m : Machine) : Prop where
  memory : log.foldlM Memory.store m₀.memory = .ok m.memory
  inputs : m₀.inputs ++ answers = log.map Prod.snd ++ m.inputs
  filled : m.filled = m₀.filled + log.length
  names : log.map Prod.fst <+: vs.drop m₀.filled
  pending : log = [] ∨ log.length < (vs.drop m₀.filled).length

section Progress

variable {vs : List Token} {m₀ m n : Machine} {answers : List Int16}
  {log more : List (Token × Int16)}

theorem Progress.congr (h : Progress vs m₀ answers log m) (hmem : n.memory = m.memory)
    (hin : n.inputs = m.inputs) (hf : n.filled = m.filled) : Progress vs m₀ answers log n where
  memory := h.memory.trans (congrArg _ hmem.symm)
  inputs := h.inputs.trans (congrArg _ hin.symm)
  filled := hf.trans h.filled
  names := h.names
  pending := h.pending

theorem Progress.memory_append (h : Progress vs m₀ answers log m) (ht : Stores m more n) :
    (log ++ more).foldlM Memory.store m₀.memory = .ok n.memory := by
  rw [List.foldlM_append, h.memory]
  exact ht.memory

theorem Progress.inputs_append (h : Progress vs m₀ answers log m) (ht : Stores m more n) :
    m₀.inputs ++ answers = (log ++ more).map Prod.snd ++ n.inputs := by
  rw [h.inputs, ht.inputs, List.map_append, List.append_assoc]

/-- The variables still to be filled follow those that are. -/
theorem Progress.append_drop (h : Progress vs m₀ answers log m) :
    log.map Prod.fst ++ vs.drop m.filled = vs.drop m₀.filled := by
  obtain ⟨rest, hrest⟩ := h.names
  rw [h.filled, ← List.drop_drop, ← hrest]
  congr 1
  exact List.drop_left' (List.length_map _)

/-- While there is more to fill, not all variables have got a value. -/
theorem Progress.map_fst_eq (h : Progress vs m₀ answers log m) : log.map Prod.fst = vs ↔ vs = [] := by
  constructor
  · intro heq
    rcases h.pending with rfl | hlt
    · exact heq.symm
    · have hlength := congrArg List.length heq
      rw [List.length_map] at hlength
      rw [List.length_drop] at hlt
      omega
  · rintro rfl
    simpa using h.names

/-- Waiting once more makes progress. -/
theorem Progress.suspended (h : Progress vs m₀ answers log m) (ht : Stores m more n)
    (hvs : more.map Prod.fst <+: vs.drop m.filled) (hlt : more.length < (vs.drop m.filled).length)
    (hf : n.filled = m.filled + more.length) : Progress vs m₀ answers (log ++ more) n := by
  refine ⟨h.memory_append ht, h.inputs_append ht, ?_, ?_, .inr ?_⟩
  · rw [hf, h.filled, List.length_append, Nat.add_assoc]
  · rw [← h.append_drop, List.map_append]
    exact (List.prefix_append_right_inj _).2 hvs
  · rw [← h.append_drop, List.length_append, List.length_append, List.length_map]
    omega

end Progress

/-- A line entered into a run leaves its variables and answers alone. -/
theorem submit_of_isRunning {m : Machine} (h : m.isRunning = true) (text : String) :
    (m.submit text).2.memory = m.memory ∧ (m.submit text).2.inputs = m.inputs ∧
      (m.submit text).2.filled = m.filled := by
  have hr := status_of_isRunning h
  have hw : ¬ m.isWaiting = true := by simp [isWaiting, hr]
  have ha : m.isActive = true := by simp [isActive, hr]
  rw [submit, if_neg hw, parse]
  cases Statement.parse text with
  | error e => exact ⟨rfl, rfl, rfl⟩
  | ok s =>
    dsimp only
    rw [submitStatement, if_pos ha]
    split
    · exact ⟨rfl, rfl, rfl⟩
    · split <;> exact ⟨rfl, rfl, rfl⟩

/-- An answer that does not end the run leaves the variables alone. -/
theorem takeAnswer_of_isRunning {m : Machine} {text : String}
    (h : (m.takeAnswer text).isRunning = true) :
    (m.takeAnswer text).memory = m.memory ∧ (m.takeAnswer text).filled = m.filled := by
  obtain ⟨g, hg⟩ := draws_answerValues text m
  unfold takeAnswer at h ⊢
  cases hx : answerValues text m with
  | error e n =>
    rw [hx] at h
    cases h
  | ok vs n =>
    rw [hx] at hg
    have hn : n = { m with generator := g } := hg
    subst hn
    exact ⟨rfl, rfl⟩

/-- The invariant of an execution. -/
theorem MidInput.progress {vs : List Token} {m₀ m : Machine} {answers : List Int16}
    (h : MidInput vs m₀ answers m) : ∃ log, Progress vs m₀ answers log m := by
  induction h with
  | begin => exact ⟨[], rfl, by simp, rfl, List.nil_prefix, .inl rfl⟩
  | wait _ ha hw ih =>
    obtain ⟨log, hlog⟩ := ih
    cases ha.visit with
    | suspended _ ht hvs hlt hf => exact ⟨_, hlog.suspended ht hvs hlt hf⟩
    | filled hn => cases hn.symm.trans hw
    | skipped hn => cases hn.symm.trans hw
    | failed hn => cases hn.symm.trans hw
  | @answer answers m text values _ hw hr hin ih =>
    obtain ⟨log, hlog⟩ := ih
    have hsubmit : (m.submit text).2 = m.takeAnswer text := by rw [submit_of_isWaiting hw]
    rw [hsubmit] at hr hin ⊢
    obtain ⟨hmem, hf⟩ := takeAnswer_of_isRunning hr
    refine ⟨log, hlog.memory.trans (congrArg _ hmem.symm), ?_, hf.trans hlog.filled, hlog.names,
      hlog.pending⟩
    rw [← List.append_assoc, hlog.inputs, hin, List.append_assoc]
  | enter text _ hr ih =>
    obtain ⟨log, hlog⟩ := ih
    obtain ⟨hmem, hin, hf⟩ := submit_of_isRunning hr text
    exact ⟨log, hlog.congr hmem hin hf⟩
  | @fetch answers m _ ih =>
    obtain ⟨log, hlog⟩ := ih
    refine ⟨log, ?_⟩
    unfold fetch?
    split
    · exact hlog
    · exact hlog.congr rfl rfl rfl

theorem drop_eq_self {vs : List Token} {k : Nat} : vs.drop k = vs ↔ vs = [] ∨ k = 0 := by
  constructor
  · intro h
    have hlength := congrArg List.length h
    rw [List.length_drop] at hlength
    rw [← List.length_eq_zero_iff]
    omega
  · rintro (rfl | rfl)
    · exact List.drop_nil
    · rfl

/-- When the machine moves on from an `INPUT` without an error, values have gone in turn from the
front of the answers to the variables that were not filled at first, up to the last one if the
conditions still held. So all variables have got one if and only if that is so and none was filled
at first. -/
theorem given_iff {vs : List Token} {m₀ m : Machine} {answers : List Int16} {s : Statement}
    (h : MidInput vs m₀ answers m) (ha : m.Asks s vs) (hw : m.step.isWaiting = false)
    (he : m.step.events = m.events) :
    ∃ log : List (Token × Int16),
      log.foldlM Memory.store m₀.memory = .ok m.step.memory ∧
      m₀.inputs ++ answers = log.map Prod.snd ++ m.step.inputs ∧
      log.map Prod.fst <+: vs.drop m₀.filled ∧
      m.step.filled = (if m.passes s then 0 else m₀.filled + log.length) ∧
      (log.map Prod.fst = vs ↔ vs = [] ∨ m₀.filled = 0 ∧ m.passes s = true) := by
  obtain ⟨log, hlog⟩ := h.progress
  cases ha.visit with
  | suspended hn => cases hn.symm.trans hw
  | failed _ hne => exact absurd he hne
  | @filled _ hp more ht hvs hf =>
    -- the last visit fills all that the earlier ones have left
    have hall : (log ++ more).map Prod.fst = vs.drop m₀.filled := by
      rw [List.map_append, hvs, hlog.append_drop]
    refine ⟨log ++ more, hlog.memory_append ht, hlog.inputs_append ht, hall ▸ List.prefix_rfl, ?_, ?_⟩
    · rw [hf, if_pos hp]
    · rw [hall, hp, drop_eq_self]
      simp
  | skipped _ hp ht hf =>
    -- the last visit fills nothing, and before it there was always something left
    refine ⟨log, ?_, ?_, hlog.names, ?_, ?_⟩
    · simpa using hlog.memory_append ht
    · simpa using hlog.inputs_append ht
    · rw [hp, hf, hlog.filled]
      rfl
    · rw [hlog.map_fst_eq, hp]
      simp

/-- Waits for an answer, tries again, and waits for another. -/
def answeredTwice (m : Machine) : Machine :=
  ((m.step.submit "5").2.step.submit "7").2

def askBoth : Statement := ⟨.input, [.word "A", .word "B"], some 10⟩

/-- About to execute `askBoth`. -/
def unset : Machine :=
  { ofSeed 1 with
    program := ⟨[⟨10, true, askBoth⟩, ⟨20, true, ⟨.stop, [], some 20⟩⟩]⟩
    status := .running }

theorem given_iff_askBoth :
    MidInput [.word "A", .word "B"] unset [5, 7] unset.answeredTwice ∧
      unset.answeredTwice.Asks askBoth [.word "A", .word "B"] ∧
      unset.answeredTwice.step.isWaiting = false ∧
      unset.answeredTwice.step.events = unset.answeredTwice.events ∧
      ∃ log : List (Token × Int16),
        log.foldlM Memory.store unset.memory = .ok unset.answeredTwice.step.memory ∧
        [5, 7] = log.map Prod.snd ++ unset.answeredTwice.step.inputs ∧
        log.map Prod.fst = [.word "A", .word "B"] := by
  have h0 : MidInput [.word "A", .word "B"] unset [] unset := .begin
  have h1 := h0.wait (s := askBoth) ⟨by decide +kernel, by decide +kernel, rfl⟩ (by decide +kernel)
  have h2 := h1.answer "5" [5] (by decide +kernel) (by decide +kernel) (by decide +kernel)
  have h3 := h2.wait (s := askBoth) ⟨by decide +kernel, by decide +kernel, rfl⟩ (by decide +kernel)
  have h4 := h3.answer "7" [7] (by decide +kernel) (by decide +kernel) (by decide +kernel)
  have hasks : unset.answeredTwice.Asks askBoth [.word "A", .word "B"] :=
    ⟨by decide +kernel, by decide +kernel, rfl⟩
  have hw : unset.answeredTwice.step.isWaiting = false := by decide +kernel
  have he : unset.answeredTwice.step.events = unset.answeredTwice.events := by decide +kernel
  obtain ⟨log, hmem, hin, -, -, hall⟩ := given_iff h4 hasks hw he
  exact ⟨h4, hasks, hw, he, log, hmem, hin, hall.2 (.inr ⟨rfl, by decide +kernel⟩)⟩

/-- Asks for `A` and `B` if `A` is 0. -/
def askIfZero : Statement :=
  ⟨.cond, [.expression [.word "A"], .op .equal, .expression [.number "0"],
    .statement ⟨.input, [.word "A", .word "B"], none⟩], some 20⟩

/-- About to execute `askIfZero`, with `A` set to 0. -/
def zeroed : Machine :=
  ((((ofSeed 1).submit "10 LET A = 0").2.submit "20 IF A = 0 THEN INPUT A, B").2.submit
    "30 END").2.start.step

theorem reachable_zeroed : zeroed.Reachable :=
  ((((Reachable.fresh (.ofSeed 1)).submit _).submit _).submit _).start.step

/-- An `INPUT` can undo its own condition: its first answer does, and `B` is left without a value. -/
theorem given_half :
    zeroed.Reachable ∧ zeroed.Asks askIfZero [.word "A", .word "B"] ∧ zeroed.filled = 0 ∧
      zeroed.passes askIfZero = true ∧
      MidInput [.word "A", .word "B"] zeroed [5, 7] zeroed.answeredTwice ∧
      zeroed.answeredTwice.Asks askIfZero [.word "A", .word "B"] ∧
      zeroed.answeredTwice.step.isWaiting = false ∧
      zeroed.answeredTwice.step.events = zeroed.answeredTwice.events ∧
      zeroed.answeredTwice.step.memory.toList = [('A', 5)] ∧
      zeroed.answeredTwice.step.inputs = [7] ∧ zeroed.answeredTwice.step.filled = 1 := by
  have hasks : zeroed.Asks askIfZero [.word "A", .word "B"] := ⟨by decide +kernel, by decide +kernel, rfl⟩
  have h0 : MidInput [.word "A", .word "B"] zeroed [] zeroed := .begin
  have h1 := h0.wait hasks (by decide +kernel)
  have h2 := h1.answer "5" [5] (by decide +kernel) (by decide +kernel) (by decide +kernel)
  have h3 := h2.wait (s := askIfZero) ⟨by decide +kernel, by decide +kernel, rfl⟩ (by decide +kernel)
  have h4 := h3.answer "7" [7] (by decide +kernel) (by decide +kernel) (by decide +kernel)
  refine ⟨reachable_zeroed, hasks, by decide +kernel, by decide +kernel, h4,
    ⟨by decide +kernel, by decide +kernel, rfl⟩, ?_⟩
  decide +kernel

end Machine

end LineBasic
