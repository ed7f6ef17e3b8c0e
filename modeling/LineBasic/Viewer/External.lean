import LineBasic.Text.Blank
import LineBasic.Viewer.Basic

/-!
# Viewer programs

A viewer that is a program of its own reads its messages as lines, each ended by a line feed, so a
message whose text holds line feeds arrives as several. It is launched when it is first needed, and
again when it has ended.
-/
namespace LineBasic

/-- What a viewer program does. -/
inductive ViewerProgram where
  /-- There is no such program. -/
  | missing
  /-- It reads until its input ends. -/
  | reader
  /-- It ends after the line that has it show the program. -/
  | oneShot
deriving DecidableEq, Repr

inductive Launched where
  | no
  | running
  | ended
deriving DecidableEq, Repr

structure External where
  program : ViewerProgram
  launched : Launched := .no
  /-- The lines read by all launches, the oldest first. -/
  received : List String := []
deriving DecidableEq, Repr

namespace External

/-- Reads a line. -/
def receive (v : External) (line : String) : External :=
  match v.launched with
  | .running =>
    { v with
      received := v.received ++ [line]
      launched :=
        if v.program = .oneShot ∧ line = Message.print.render then .ended else .running }
  | _ => v

instance : Viewer External where
  connect v :=
    match v.launched, v.program with
    | .running, _ => (.ok false, v)
    | _, .missing => (.error .notFound, { v with launched := .no })
    | _, _ => (.ok true, { v with launched := .running })
  send v msg :=
    match v.launched with
    | .no => (.error .notConnected, v)
    | .ended => (.error .broken, v)
    | .running =>
      (.ok (), ((Text.feeds msg.render.toList).map String.ofList).foldl receive v)
  close v := { v with launched := .no }

end External

end LineBasic
