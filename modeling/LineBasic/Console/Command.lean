import LineBasic.Debugger

/-!
# Commands of the debugger's prompt

A line at the prompt is a command letter, with an exclamation mark that makes it pass breakpoints
and a number where it needs one, or else a program line to be edited.
-/
namespace LineBasic.Console

inductive Command where
  | nothing
  | stepIn
  | stepOver (force : Bool)
  | stepOut (force : Bool)
  | runToBreakpoint
  | runToSlot (slot : Nat) (force : Bool)
  | toggle (label : Label)
  | listing
  | values
  | breakOff
  | edit (line : String)
  | help
deriving DecidableEq, Repr

namespace Command

/-- The greatest label that a breakpoint can have. -/
def maxBreakpoint : Label := 65535

/-- The command that a line gives. -/
def parse (line : List Char) : Command :=
  match Text.words line with
  | [] => nothing
  | word :: args =>
    let force := word.getLast? = some '!'
    let name := if force then word.dropLast else word
    match name, args.head?.map Text.count? with
    | ['s'], none => stepIn
    | ['n'], none => stepOver force
    | ['o'], none => stepOut force
    | ['c'], none => runToBreakpoint
    | ['u'], some (some slot) => runToSlot slot force
    | ['b'], some (some label) => if label ≤ maxBreakpoint then toggle label else help
    | ['l'], none => listing
    | ['v'], none => values
    | ['q'], none => breakOff
    | name, _ => if name.head?.any Char.isDigit then edit (String.ofList line) else help

def helpText : String :=
  "\n".intercalate
    ["s            step into",
      "n[!]         step over, ! ignores breakpoints",
      "o[!]         step out of the current subroutine",
      "c            run to the next breakpoint",
      "u[!] INDEX   run until the line at slot INDEX",
      "b LABEL      toggle a breakpoint",
      "l            list the program",
      "v            show variables",
      "q            stop the program",
      "LABEL ...    edit a line"]

end Command

/-- Sets a text in bold type. -/
def bold (s : String) : String :=
  "\x1b[1m" ++ s ++ "\x1b[0m"

variable {V : Type} [Viewer V]

/-- The line at a slot with its place and its mark: `>` and bold type for the line about to be
executed, `*` for a breakpoint. -/
def lineView (d : Debugger V) (slot : Nat) (l : Line) : String :=
  let current := d.isPaused && slot = d.machine.cursor
  let mark := if current then ">" else if d.breakpoints.contains l.label then "*" else " "
  let text := mark ++ Text.padLeft 4 (toString slot) ++ " " ++ Text.padLeft 5 (toString l.label) ++
    " " ++ l.statement.render
  (if current then bold text else text) ++ "\n"

/-- The line at a slot as the prompt shows it, if there is one. -/
def showSlot (d : Debugger V) (slot : Nat) : List String :=
  ((d.machine.program.line? slot).map (lineView d slot)).toList

/-- Carries out a command. The texts to be written come with the debugger. -/
def Command.perform (d : Debugger V) : Command → List String × Debugger V
  | nothing => ([], d)
  | stepIn => ([], d.stepIn)
  | stepOver force => ([], d.stepOver force)
  | stepOut force => ([], d.stepOut force)
  | runToBreakpoint => ([], d.runToBreakpoint)
  | runToSlot slot force => ([], d.runToSlot slot force)
  | toggle label =>
    let (set, d) := d.toggle label
    (["Breakpoint " ++ (if set then "set" else "cleared") ++ " at " ++ toString label ++ "\n"], d)
  | listing => (d.machine.program.lines.zipIdx.map fun (l, slot) => lineView d slot l, d)
  | values =>
    (d.machine.memory.toList.map fun (name, v) =>
      name.toString ++ " = " ++ toString v.toInt ++ "\n", d)
  | breakOff => ([], d.breakOff)
  | edit line => ([], (d.submit line).2)
  | help => ([helpText ++ "\n"], d)

end LineBasic.Console
