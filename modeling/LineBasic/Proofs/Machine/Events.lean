import LineBasic.Proofs.Machine.Action

/-!
# The queue of events

A machine only ever appends to its events and never looks at them: it does the same whatever is
queued already (`step_behind`, `takeAnswer_behind`). So it does not matter to a run when, or whether,
its events are fetched.
-/
namespace LineBasic.Machine

variable {α β : Type}

theorem behind_append (es fs : List Event) (m : Machine) :
    m.behind (es ++ fs) = (m.behind fs).behind es := by
  simp [behind]

/-! ## Actions -/

/-- The outcome of an action, with events queued in front. -/
def resultBehind (es : List Event) : EStateM.Result Error Machine α → EStateM.Result Error Machine α
  | .ok a m => .ok a (m.behind es)
  | .error e m => .error e (m.behind es)

/-- The action does the same whatever events are queued in front. -/
def Oblivious (x : ExecM α) : Prop :=
  ∀ es m, x (m.behind es) = resultBehind es (x m)

theorem oblivious_modify {f : Machine → Machine} (hf : ∀ es m, f (m.behind es) = (f m).behind es) :
    Oblivious (modify f) := by
  intro es m
  show EStateM.Result.ok () (f (m.behind es)) = .ok () ((f m).behind es)
  rw [hf]

theorem oblivious_closed : Closed Oblivious where
  pure _ _ _ := rfl
  throw _ _ _ := rfl
  bind {_ _ x f} hx hf := by
    intro es m
    show EStateM.bind x f (m.behind es) = resultBehind es (EStateM.bind x f m)
    unfold EStateM.bind
    rw [hx es m]
    cases x m with
    | ok a m => exact hf a es m
    | error e m => rfl
  get {_ f} hf hread := by
    intro es m
    show f (m.behind es) (m.behind es) = resultBehind es (f m m)
    rw [hread, hf]
  value e := by
    intro es m
    unfold value
    rw [show (m.behind es).memory = m.memory from rfl,
      show (m.behind es).generator = m.generator from rfl]
    cases Expression.evaluate m.memory e m.generator <;> rfl
  setMemory _ := oblivious_modify (fun _ _ => rfl)
  setCalls _ := oblivious_modify (fun _ _ => rfl)
  setInputs _ := oblivious_modify (fun _ _ => rfl)
  setFilled _ := oblivious_modify (fun _ _ => rfl)
  queue f hf _ := oblivious_modify (fun es m => by rw [hf]; simp [behind])

/-- A statement is executed the same whatever events are queued in front. -/
theorem oblivious_exec (s : Statement) : Oblivious (exec s) := by
  have h := oblivious_closed
  refine h.exec id h.bind ?_ s
  exact h.bind (oblivious_modify (fun es m => rfl)) (fun _ => h.pure _)

/-! ## Machines -/

theorem abort_behind (es : List Event) (m : Machine) (e : Error) :
    (m.behind es).abort e = (m.abort e).behind es := by
  simp [abort, emit, behind]

theorem moveTo_behind (es : List Event) (m : Machine) (slot : Nat) (label : Option Label) :
    (m.behind es).moveTo slot label = (m.moveTo slot label).behind es := by
  by_cases h : slot < m.program.size
  · show (if slot < m.program.size then _ else _) = behind es (if slot < m.program.size then _ else _)
    rw [if_pos h, if_pos h]
    rfl
  · show (if slot < m.program.size then _ else _) = behind es (if slot < m.program.size then _ else _)
    rw [if_neg h, if_neg h]
    exact abort_behind es { m with cursor := slot } _

theorem follow_behind (es : List Event) (m : Machine) (label : Option Label) (q : Sequel) :
    (m.behind es).follow label q = (m.follow label q).behind es := by
  cases q with
  | next =>
    show (if m.direct.isSome then _ else _) = behind es (if m.direct.isSome then _ else _)
    by_cases h : m.direct.isSome = true
    · rw [if_pos h, if_pos h]
      rfl
    · rw [if_neg h, if_neg h]
      exact moveTo_behind es m (m.cursor + 1) label
  | jump slot => exact moveTo_behind es { m with direct := none } slot label
  | halt | restart | wait => rfl

/-- A machine steps the same whatever events are queued in front. -/
theorem step_behind (es : List Event) (m : Machine) : (m.behind es).step = m.step.behind es := by
  cases hr : m.isRunning with
  | false =>
    have hr' : (m.behind es).isRunning = false := hr
    rw [step_of_not_isRunning hr', step_of_not_isRunning hr]
  | true =>
    have hr' : (m.behind es).isRunning = true := hr
    rw [step, if_pos hr', step, if_pos hr]
    rw [show (m.behind es).upcoming? = m.upcoming? from rfl]
    cases m.upcoming? with
    | none => exact abort_behind es m _
    | some s =>
      dsimp only
      rw [oblivious_exec s es m]
      cases exec s m with
      | ok q m' => exact follow_behind es m' s.label q
      | error e m' => exact abort_behind es m' _

theorem repeat_step_behind (es : List Event) (n : Nat) (m : Machine) :
    Nat.repeat step n (m.behind es) = (Nat.repeat step n m).behind es := by
  induction n with
  | zero => rfl
  | succ n ih => rw [Nat.repeat, ih, step_behind, Nat.repeat]

/-- A machine takes an answer the same whatever events are queued in front. -/
theorem takeAnswer_behind (es : List Event) (m : Machine) (text : String) :
    (m.behind es).takeAnswer text = (m.takeAnswer text).behind es := by
  unfold takeAnswer
  rw [oblivious_closed.answerValues text es m]
  cases answerValues text m with
  | ok vs m' => rfl
  | error e m' => exact abort_behind es m' _

end LineBasic.Machine
