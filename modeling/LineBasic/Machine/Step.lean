import LineBasic.Machine.Basic

/-!
# Execution

`Machine.step` executes one statement. The statement itself decides only where the run goes on
(`Sequel`); moving the cursor and ending the run is the work of `Machine.follow`.
-/
namespace LineBasic

/-- Where the run goes on after a statement. -/
inductive Sequel where
  | next
  | jump (slot : Nat)
  /-- The run ends. -/
  | halt
  /-- The program starts again. -/
  | restart
  /-- The statement is taken up again when an answer has come. -/
  | wait
deriving DecidableEq, Repr

namespace Machine

/-- Executing a statement changes the machine. What was changed stays if the statement fails. -/
abbrev ExecM := EStateM Error Machine

/-- The value of an expression. -/
def value (e : Token) : ExecM Int16 := fun m =>
  match Expression.evaluate m.memory e m.generator with
  | .ok v g => .ok v { m with generator := g }
  | .error e g => .error e { m with generator := g }

/-- Gives a value to the variable that a token names. -/
def assign (t : Token) (v : Int16) : ExecM Unit := do
  match t.varName? with
  | none => throw (Error.Cause.notVariable t.render).error
  | some name =>
    let memory ← liftExcept ((← get).memory.write name v)
    modify ({ · with memory })

/-- The texts of the items of a `PRINT`, one after the other. -/
def printed : List Token → ExecM String
  | [] => return ""
  | .quoted text :: ts => return text ++ (← printed ts)
  | t :: ts => do
    let v ← value t
    return toString v.toInt ++ (← printed ts)

/-- Gives the next answers to variables, as long as there are any. -/
def fill : List Token → ExecM Sequel
  | [] => do
    modify ({ · with filled := 0 })
    return .next
  | t :: ts => do
    match (← get).inputs with
    | [] => return .wait
    | v :: inputs =>
      modify ({ · with inputs })
      assign t v
      modify fun m => { m with filled := m.filled + 1 }
      fill ts

/-- The slot to which the jump of a keyword leads. -/
def destination (k : Keyword) : List Token → ExecM Nat
  | [e] => do
    let label ← value e
    match (← get).program.jump? label with
    | some slot => return slot
    | none => throw (Error.Cause.noSuchLabel (toString label.toInt)).error
  | _ => throw (Error.Cause.badArguments k.render).error

/-- Opens a call, which returns to the line after the cursor. -/
def openCall : ExecM Unit := do
  let m ← get
  let back := if m.direct.isSome then .direct else .slot (m.cursor + 1)
  let calls ← liftExcept (m.calls.push back)
  modify ({ · with calls })

/-- Closes the innermost call. -/
def closeCall : ExecM ReturnPoint := do
  let (back, calls) ← liftExcept (← get).calls.pop
  modify ({ · with calls })
  return back

/-- Executes a statement. -/
def exec : Statement → ExecM Sequel
  | ⟨.assign, [t, e], _⟩ => do
    assign t (← value e)
    return .next
  | ⟨.print, args, _⟩ => do
    let text ← printed args
    modify (·.emit (.print (text ++ "\n")))
    return .next
  | ⟨.input, args, _⟩ => do fill (args.drop (← get).filled)
  | ⟨.cond, [a, .op o, b, .statement s], _⟩ => do
    let x ← value a
    let y ← value b
    if o.holds x y then exec s else return .next
  | ⟨.goto, args, _⟩ => return .jump (← destination .goto args)
  | ⟨.gosub, args, _⟩ => do
    let slot ← destination .gosub args
    openCall
    return .jump slot
  | ⟨.ret, _, _⟩ => do
    match ← closeCall with
    | .slot i => return .jump i
    | .direct => return .halt
  | ⟨.clear, _, _⟩ => do
    modify fun m => { m.forget with program := {} }
    return .halt
  | ⟨.list, _, _⟩ => do
    modify fun m => { m with events := m.events ++ m.program.lines.map (.list ·.render) }
    return .next
  | ⟨.run, _, _⟩ => return .restart
  | ⟨.stop, _, _⟩ => return .halt
  | ⟨.remark, _, _⟩ | ⟨.blank, _, _⟩ => return .next
  | ⟨k, _, _⟩ => throw (Error.Cause.badArguments k.render).error

/-- Moves the cursor of a running program. Behind the last line the run fails, on the line
`label`. -/
def moveTo (m : Machine) (slot : Nat) (label : Option Label) : Machine :=
  let m := { m with cursor := slot }
  if slot < m.program.size then m else m.abort (Error.Cause.programEnd.error.onLine label)

/-- Goes on after a statement on the line `label`. -/
def follow (m : Machine) (label : Option Label) : Sequel → Machine
  | .next =>
    if m.direct.isSome then { m with direct := none, status := .stopped }
    else m.moveTo (m.cursor + 1) label
  | .jump slot => { m with direct := none }.moveTo slot label
  | .halt => { m with direct := none, status := .stopped }
  | .restart => m.start
  | .wait => { m with status := .waiting }

/-- Executes one statement of a running machine. -/
def step (m : Machine) : Machine :=
  if m.isRunning then
    match m.upcoming? with
    | none =>
      m.abort (Error.Cause.programEnd.error.onLine (m.program.lines.getLast?.map (·.label)))
    | some s =>
      match exec s m with
      | .ok sequel m => m.follow s.label sequel
      | .error e m => m.abort (e.onLine s.label)
  else m

/-- Runs until there is an event, for at most so many steps. -/
def untilEvent : (steps : Nat) → Machine → Event × Machine
  | steps, m =>
    match m.fetch? with
    | (some e, m) => (e, m)
    | (none, _) =>
      match m.status with
      | .stopped => (.stopped, m)
      | .waiting => (.input inputPrompt, m)
      | .running =>
        match steps with
        | 0 => (.running, m)
        | steps + 1 => untilEvent steps m.step

theorem step_of_not_isRunning {m : Machine} (h : m.isRunning = false) : m.step = m := by
  simp [step, h]

end Machine

end LineBasic
