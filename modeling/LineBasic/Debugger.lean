import LineBasic.Machine.Entry
import LineBasic.Viewer.Basic

/-!
# The debugger

A debugger runs a machine from one pause to the next, and keeps a viewer informed. Its commands only
say where the next pause is; `Debugger.untilEvent` runs to it. While the session is paused the
cursor is on no remark.
-/
namespace LineBasic

/-- Where the next pause is. -/
inductive PausePoint where
  | nextStatement
  /-- When no more than so many calls are open. -/
  | depth (n : Nat)
  | slot (i : Nat)
  | breakpoint
deriving DecidableEq, Repr

inductive Pace where
  | paused
  /-- On the way to a pause. With `force`, past all breakpoints. -/
  | toward (goal : PausePoint) (force : Bool)
deriving DecidableEq, Repr

structure Debugger (V : Type) where
  machine : Machine
  viewer : V
  /-- The labels that have a breakpoint, in ascending order. -/
  breakpoints : List Label := []
  pace : Pace := .paused
  /-- Whether a session is under way. -/
  active : Bool := false

/-- The number of remarks from the cursor on. -/
def Machine.remarksAhead (m : Machine) : Nat :=
  ((m.program.lines.drop m.cursor).takeWhile (·.statement.isRemark)).length

/-- Executes the remarks from the cursor on. -/
def Machine.skipRemarks (m : Machine) : Machine :=
  Nat.repeat step m.remarksAhead m

namespace Debugger

variable {V : Type} [Viewer V]

/-- Waiting for a command. -/
def isPaused (d : Debugger V) : Bool :=
  d.active && d.pace = .paused && !d.machine.isWaiting

/-! ## The viewer -/

/-- All that a new viewer has to be told. -/
def snapshot (d : Debugger V) : List Message :=
  .clear :: d.machine.program.lines.map (fun l => .add l.label l.statement.render) ++
    d.breakpoints.map .breakpoint ++ [.cursor d.machine.cursor, .print]

/-- Tells the viewer of a change, or everything if it knows nothing yet. A viewer that cannot be
reached is told nothing. -/
def inform (d : Debugger V) (changes : List Message) : Debugger V :=
  match Viewer.connect d.viewer with
  | (.ok true, v) => { d with viewer := Viewer.deliver v d.snapshot }
  | (.ok false, v) => { d with viewer := Viewer.deliver v (changes ++ [.print]) }
  | (.error _, v) => { d with viewer := v }

/-- Sends messages whether the viewer is new or not. -/
def tell (d : Debugger V) (msgs : List Message) : Debugger V :=
  match Viewer.connect d.viewer with
  | (.ok _, v) => { d with viewer := Viewer.deliver v msgs }
  | (.error _, v) => { d with viewer := v }

/-! ## Sessions -/

/-- Begins a session at the first statement. Says whether there was one. -/
def beginSession (d : Debugger V) : Bool × Debugger V :=
  let d := { d with machine := d.machine.start }
  if d.machine.isRunning then
    let d := { d with active := true, pace := .paused, machine := d.machine.skipRemarks }
    (true, d.tell d.snapshot)
  else (false, d)

/-- Ends the run at the user's wish. -/
def breakOff (d : Debugger V) : Debugger V :=
  { d with machine := d.machine.breakOff }

/-- Sets out for the next pause, if the session is paused. -/
def pursue (d : Debugger V) (goal : PausePoint) (force : Bool) : Debugger V :=
  if d.isPaused then { d with pace := .toward goal force } else d

def stepIn (d : Debugger V) : Debugger V :=
  d.pursue .nextStatement true

/-- Steps, and finishes the calls that the step makes. -/
def stepOver (d : Debugger V) (force : Bool) : Debugger V :=
  d.pursue (.depth d.machine.depth) force

/-- Runs until the innermost call has returned. Outside of all calls it does nothing. -/
def stepOut (d : Debugger V) (force : Bool) : Debugger V :=
  match d.machine.depth with
  | 0 => d
  | n + 1 => d.pursue (.depth n) force

def runToBreakpoint (d : Debugger V) : Debugger V :=
  d.pursue .breakpoint false

def runToSlot (d : Debugger V) (slot : Nat) (force : Bool) : Debugger V :=
  d.pursue (.slot slot) force

/-- Sets a breakpoint, or clears one that is set. Says whether it is set now. -/
def toggle (d : Debugger V) (label : Label) : Bool × Debugger V :=
  let set := !d.breakpoints.contains label
  let breakpoints :=
    if set then
      d.breakpoints.takeWhile (· < label) ++ label :: d.breakpoints.dropWhile (· < label)
    else d.breakpoints.filter (· ≠ label)
  (set, { d with breakpoints }.inform [.breakpoint label])

/-! ## Lines from the user -/

/-- The message that tells a viewer of a change. -/
def changeMessage? (p : Program) : Change → Option Message
  | .added i => (p.line? i).map fun l => .add l.label l.statement.render
  | .updated i => (p.line? i).map fun l => .update i l.statement.render
  | .removed i => some (.remove i)
  | .unchanged => none

/-- Applies a labelled line to the program. -/
def revise (d : Debugger V) (s : Statement) : Debugger V :=
  let (change, machine) := d.machine.revise s
  let d := { d with machine }
  if change ≠ .unchanged ∧ d.active then
    let told := changeMessage? machine.program change
    let d := { d with machine := machine.skipRemarks }
    d.inform (told.toList ++ [.cursor d.machine.cursor])
  else d

/-- Takes a line from the user, and says whether it was accepted. In a session there are no direct
statements. -/
def submit (d : Debugger V) (text : String) : Bool × Debugger V :=
  if d.machine.isWaiting then
    let (ok, machine) := d.machine.submit text
    (ok, { d with machine })
  else
    match d.machine.parse text with
    | (none, machine) => (false, { d with machine })
    | (some s, machine) =>
      let d := { d with machine }
      if s.label.isSome then
        (true, d.revise s)
      else if d.active then
        let refusal := (Error.Cause.directWhileActive s.render).error
        (false, { d with machine := machine.emit (.error refusal) })
      else
        let (change, machine) := machine.submitStatement s
        (change.isSome, { d with machine })

/-! ## Execution -/

def onBreakpoint (d : Debugger V) : Bool :=
  d.machine.upcomingLabel?.any d.breakpoints.contains

def reached (d : Debugger V) : PausePoint → Bool
  | .nextStatement => true
  | .depth n => d.machine.depth ≤ n
  | .slot i => d.machine.cursor = i
  | .breakpoint => false

def pause (d : Debugger V) : Debugger V :=
  let d := { d with pace := .paused, machine := d.machine.skipRemarks }
  d.inform [.cursor d.machine.cursor]

/-- Executes one statement, and pauses if the place for it is reached. -/
def step (d : Debugger V) (goal : PausePoint) (force : Bool) : Debugger V :=
  let d := { d with machine := d.machine.step }
  if d.machine.isRunning && (d.reached goal || (!force && d.onBreakpoint)) then d.pause else d

/-- Ends the session. -/
def endSession (d : Debugger V) : Debugger V :=
  { d with active := false, pace := .paused }.tell [.clear, .print]

/-- Lets the machine run by itself. -/
def runFreely (steps : Nat) (d : Debugger V) : Event × Debugger V :=
  let (e, machine) := d.machine.untilEvent steps
  (e, { d with machine })

/-- Runs until there is an event, for at most so many steps. A pause is the event `stopped`. -/
def untilEvent : (steps : Nat) → Debugger V → Event × Debugger V
  | steps, d =>
    if d.active then
      match d.machine.fetch? with
      | (some e, machine) => (e, { d with machine })
      | (none, _) =>
        match d.machine.status, d.pace with
        | .stopped, _ => d.endSession.runFreely steps
        | .waiting, _ => (.input Machine.inputPrompt, d)
        | .running, .paused => (.stopped, d)
        | .running, .toward goal force =>
          match steps with
          | 0 => (.running, d)
          | steps + 1 => untilEvent steps (d.step goal force)
    else d.runFreely steps

end Debugger

end LineBasic
