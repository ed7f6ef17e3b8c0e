import LineBasic.Expression.Evaluator
import LineBasic.Program.Basic
import LineBasic.Stack

/-!
# The machine

A machine holds a program, the variables and all that a run needs. It asks for nothing itself: what
it has to say to its user is queued as events, and answers to `INPUT` are handed to it.
-/
namespace LineBasic

/-- What a machine has to say to the one who drives it. -/
inductive Event where
  | stopped
  | running
  | print (text : String)
  | list (text : String)
  | input (prompt : String)
  | error (e : Error)
deriving DecidableEq, Repr

inductive Status where
  | stopped
  | running
  /-- An `INPUT` waits for an answer. -/
  | waiting
deriving DecidableEq, Repr

/-- Where a `RETURN` goes on: at a slot, or nowhere if the call was a direct statement. -/
inductive ReturnPoint where
  | slot (i : Nat)
  | direct
deriving DecidableEq, Repr

structure Machine where
  generator : Random.Generator
  program : Program := {}
  memory : Memory := {}
  calls : Stack ReturnPoint := .empty "TOO MANY NESTED GOSUBS" .returnWithoutGosub
  /-- Answers not yet taken by an `INPUT`. -/
  inputs : List Int16 := []
  /-- How many variables the `INPUT` under way has filled. -/
  filled : Nat := 0
  /-- The slot of the line about to be executed. -/
  cursor : Nat := 0
  /-- A statement to be executed by itself, before the line at the cursor. -/
  direct : Option Statement := none
  status : Status := .stopped
  /-- Events not yet fetched, the oldest first. -/
  events : List Event := []

namespace Machine

/-- A stopped machine without a program, whose random numbers the seed fixes. -/
def ofSeed (seed : UInt64) : Machine :=
  { generator := .ofSeed seed }

/-- The prompt of an `INPUT`. -/
def inputPrompt : String := "? "

def isRunning (m : Machine) : Bool :=
  m.status = .running

def isWaiting (m : Machine) : Bool :=
  m.status = .waiting

/-- Running, or waiting for an answer. -/
def isActive (m : Machine) : Bool :=
  m.status ≠ .stopped

/-- The number of open calls. -/
def depth (m : Machine) : Nat :=
  m.calls.size

/-- The statement about to be executed. -/
def upcoming? (m : Machine) : Option Statement :=
  m.direct <|> (m.program.line? m.cursor).map (·.statement)

/-- The label of the line about to be executed. A direct statement has none. -/
def upcomingLabel? (m : Machine) : Option Label :=
  match m.direct with
  | some _ => none
  | none => (m.program.line? m.cursor).map (·.label)

def emit (m : Machine) (e : Event) : Machine :=
  { m with events := m.events ++ [e] }

/-- Ends the run with an error. Variables and open calls stay. -/
def abort (m : Machine) (e : Error) : Machine :=
  { m.emit (.error e) with direct := none, filled := 0, status := .stopped }

/-- Forgets the variables, the open calls and the answers. -/
def forget (m : Machine) : Machine :=
  { m with memory := {}, calls := m.calls.clear, inputs := [], filled := 0 }

/-- Starts the program at its first line. -/
def start (m : Machine) : Machine :=
  { m.forget with
    direct := none, cursor := 0, status := if m.program.isEmpty then .stopped else .running }

/-- Ends the run at the user's wish. -/
def breakOff (m : Machine) : Machine :=
  if m.isActive then m.abort (Error.Cause.interrupted.error.onLine m.upcomingLabel?) else m

/-- Fetches the oldest event. -/
def fetch? (m : Machine) : Option Event × Machine :=
  match m.events with
  | [] => (none, m)
  | e :: es => (some e, { m with events := es })

end Machine

end LineBasic
