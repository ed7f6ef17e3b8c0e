import LineBasic.Console.Basic

/-!
# Scripted terminals

A script is a terminal whose user has decided beforehand what to type and when to press the
interrupt key. `Console.play` runs a console on it and keeps a log of what was written, read and
remembered.
-/
namespace LineBasic.Console

inductive LogEntry where
  | write (text : String)
  | read (channel : Channel) (prompt : String) (typed : Typed)
  | remember (channel : Channel) (line : String)
deriving DecidableEq, Repr

structure Script where
  /-- What is typed, and whether the interrupt key is pressed with it. After the last, the input
  ends. -/
  reads : List (Typed × Bool) := []
  /-- The number of the write after which the interrupt key is pressed. -/
  breakAfter : Option Nat := none
  /-- How many writes the terminal takes. -/
  capacity : Nat
  /-- How many writes it has taken. -/
  written : Nat := 0
  /-- Whether the interrupt key was pressed since the console last asked. -/
  pressed : Bool := false
  /-- The log, the newest entry first. -/
  log : List LogEntry := []
deriving DecidableEq, Repr

/-- Replies to a request. A write beyond the capacity is refused. -/
def Script.reply (s : Script) : (r : Request) → Option (r.Reply × Script)
  | .poll => some (s.pressed, { s with pressed := false })
  | .write text =>
    if s.written < s.capacity then
      let written := s.written + 1
      some ((), { s with
        written
        pressed := s.pressed || s.breakAfter = some written
        log := .write text :: s.log })
    else none
  | .read channel prompt =>
    match s.reads with
    | [] => some (.eof, { s with log := .read channel prompt .eof :: s.log })
    | (typed, pressed) :: reads =>
      some (typed, { s with
        reads
        pressed := s.pressed || pressed
        log := .read channel prompt typed :: s.log })
  | .remember channel line => some ((), { s with log := .remember channel line :: s.log })

inductive Outcome where
  | finished
  /-- The terminal refused a write. -/
  | refused
  /-- The console had more requests than were allowed. -/
  | unfinished
deriving DecidableEq, Repr

variable {V : Type} [Viewer V]

/-- Runs a console on a script, for at most so many requests. -/
def play : (requests : Nat) → Console V → Script → Outcome × Console V × Script
  | requests, c, s =>
    match c.step with
    | none => (.finished, c, s)
    | some ⟨r, next⟩ =>
      match requests with
      | 0 => (.unfinished, c, s)
      | requests + 1 =>
        match s.reply r with
        | none => (.refused, c, s)
        | some (reply, s) => play requests (next reply) s

end LineBasic.Console
