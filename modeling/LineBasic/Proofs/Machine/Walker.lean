import LineBasic.Proofs.Machine.Return

/-!
# Execution by labels

A walker executes a program without slots: its place and its open calls are labels, and to go on it
looks for a label among those of the program. What a statement does apart from where it leads is taken
from the machine.
-/
namespace LineBasic

namespace Program

/-- The line with a label. -/
def labelled? (p : Program) (x : Label) : Option Line :=
  p.lines.find? (·.label = x)

/-- The least label. -/
def least? (p : Program) : Option Label :=
  p.labels.min?

/-- The least label above `x`. -/
def above? (p : Program) (x : Label) : Option Label :=
  (p.labels.filter (x < ·)).min?

/-- The label that a jump to `n` leads to. It must have been written with its line. -/
def target? (p : Program) (n : Int16) : Option Label :=
  (p.lines.find? fun l => l.written ∧ (l.label : Int) = n.toInt).map Line.label

end Program

/-- Whether a walker executes a line, and which. -/
inductive Stage where
  | stopped
  | running (line : Label)
  | waiting (line : Label)
deriving DecidableEq, Repr

def Stage.status : Stage → Status
  | stopped => .stopped
  | running _ => .running
  | waiting _ => .waiting

def Stage.line? : Stage → Option Label
  | stopped => none
  | running x | waiting x => some x

structure Walker where
  generator : Random.Generator
  program : Program
  memory : Memory := {}
  /-- The labels of the lines whose calls are open, the last opened first. -/
  calls : List Label := []
  inputs : List Int16 := []
  filled : Nat := 0
  stage : Stage := .stopped
  events : List Event := []

/-- Where a walk goes on after a statement. -/
inductive Course where
  /-- At a line, if there is one to go to. -/
  | go (line : Option Label)
  | halt
  | restart
  | wait
deriving DecidableEq, Repr

namespace Walker

variable {α : Type}

/-! ## Statements -/

/-- As for the machine, what was changed stays if a statement fails. -/
abbrev WalkM := EStateM Error Walker

/-- A machine with the data of the walker, and no program. -/
def machine (w : Walker) : Machine :=
  { generator := w.generator, memory := w.memory, inputs := w.inputs, filled := w.filled,
    events := w.events }

/-- Takes its data from a machine. -/
def take (w : Walker) (m : Machine) : Walker :=
  { w with generator := m.generator, memory := m.memory, inputs := m.inputs, filled := m.filled,
           events := m.events }

/-- Performs an action of the machine, which knows neither the program nor the place. -/
def lift (x : Machine.ExecM α) : WalkM α := fun w =>
  match x w.machine with
  | .ok a m => .ok a (w.take m)
  | .error e m => .error e (w.take m)

theorem get_bind (f : Walker → WalkM α) (w : Walker) : (get >>= f) w = f w w :=
  rfl

/-- Goes on at the least label above `x`. -/
def goAbove (x : Label) : WalkM Course :=
  return .go ((← get).program.above? x)

/-- The label to which the jump of a keyword leads. -/
def target (k : Keyword) : List Token → WalkM Label
  | [e] => do
    let n ← lift (Machine.value e)
    match (← get).program.target? n with
    | some x => return x
    | none => throw (Error.Cause.noSuchLabel (toString n.toInt)).error
  | _ => throw (Error.Cause.badArguments k.render).error

/-- Opens a call in the line `here`. -/
def openCall (here : Label) : WalkM Unit := do
  if (← get).calls.length < Stack.capacity then
    modify fun w => { w with calls := here :: w.calls }
  else
    throw (Error.Cause.stackFull "TOO MANY NESTED GOSUBS").error

/-- Closes the call that was opened last, and says in which line. -/
def closeCall : WalkM Label := do
  match (← get).calls with
  | [] => throw { code := .returnWithoutGosub }
  | x :: calls =>
    modify ({ · with calls })
    return x

/-- Forgets the variables, the open calls and the answers. -/
def forget (w : Walker) : Walker :=
  { w with memory := {}, calls := [], inputs := [], filled := 0 }

/-- Goes on after a statement of the line `here` that leads to no other line. -/
def settle (here : Label) : Sequel → WalkM Course
  | .wait => return .wait
  | _ => goAbove here

/-- Executes a statement of the line `here`. -/
def perform (here : Label) : Statement → WalkM Course
  | ⟨.cond, [a, .op o, b, .statement s], _⟩ => do
    let x ← lift (Machine.value a)
    let y ← lift (Machine.value b)
    if o.holds x y then perform here s else goAbove here
  | ⟨.goto, args, _⟩ => return .go (← target .goto args)
  | ⟨.gosub, args, _⟩ => do
    let x ← target .gosub args
    openCall here
    return .go x
  | ⟨.ret, _, _⟩ => do goAbove (← closeCall)
  | ⟨.clear, _, _⟩ => do
    modify fun w => { w.forget with program := {}, stage := .stopped }
    return .halt
  | ⟨.list, _, _⟩ => do
    modify fun w => { w with events := w.events ++ w.program.lines.map (.list ·.render) }
    goAbove here
  | ⟨.run, _, _⟩ => return .restart
  | ⟨.stop, _, _⟩ => return .halt
  | ⟨k, args, l⟩ => do settle here (← lift (Machine.exec ⟨k, args, l⟩))

/-! ## Runs -/

def abort (w : Walker) (e : Error) : Walker :=
  { w with filled := 0, stage := .stopped, events := w.events ++ [.error e] }

/-- Starts the program at its least label. -/
def restart (w : Walker) : Walker :=
  { w.forget with stage := w.program.least?.elim .stopped .running }

/-- Goes on after a statement of the line `here`. Where there is no line to go to, the run fails. -/
def proceed (w : Walker) (here : Label) : Course → Walker
  | .go (some x) => { w with stage := .running x }
  | .go none => w.abort (Error.Cause.programEnd.error.onLine here)
  | .halt => { w with stage := .stopped }
  | .restart => w.restart
  | .wait => { w with stage := .waiting here }

/-- Goes on after a statement of the line `here`, or ends the run with its error. -/
def conclude (here : Label) : EStateM.Result Error Walker Course → Walker
  | .ok course w => w.proceed here course
  | .error e w => w.abort (e.onLine here)

/-- Executes the line at which a running walker is. -/
def step (w : Walker) : Walker :=
  match w.stage with
  | .running here =>
    match w.program.labelled? here with
    | some l => conclude here (perform here l.statement w)
    | none => w
  | _ => w

/-- Takes an answer to the `INPUT` of the line `here`. -/
def takeAnswer (w : Walker) (here : Label) (text : String) : Walker :=
  match lift (Machine.answerValues text) w with
  | .ok vs w => { w with inputs := w.inputs ++ vs, stage := .running here }
  | .error e w => w.abort (e.onLine here)

end Walker

/-! ## What can be seen of a run -/

/-- What can happen to a run, as long as no line is entered. -/
inductive Act where
  | step
  /-- A line for an `INPUT` that waits. -/
  | answer (text : String)
  | fetch
  | interrupt
deriving DecidableEq, Repr

def Machine.act (m : Machine) : Act → Machine
  | .step => m.step
  | .answer text => if m.isWaiting then (m.submit text).2 else m
  | .fetch => m.fetch?.2
  | .interrupt => m.breakOff

def Walker.act (w : Walker) : Act → Walker
  | .step => w.step
  | .answer text =>
    match w.stage with
    | .waiting here => w.takeAnswer here text
    | _ => w
  | .fetch => { w with events := w.events.tail }
  | .interrupt =>
    match w.stage.line? with
    | some here => w.abort (Error.Cause.interrupted.error.onLine here)
    | none => w

/-- A moment of a run. -/
structure Moment where
  status : Status
  /-- The line that the next step executes. -/
  line : Option Label
  memory : Memory
  events : List Event
deriving DecidableEq, Repr

def Machine.moment (m : Machine) : Moment where
  status := m.status
  line := if m.isActive then m.upcomingLabel? else none
  memory := m.memory
  events := m.events

def Walker.moment (w : Walker) : Moment where
  status := w.stage.status
  line := w.stage.line?
  memory := w.memory
  events := w.events

end LineBasic
