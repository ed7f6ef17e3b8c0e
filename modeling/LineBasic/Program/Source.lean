import LineBasic.Program.Basic
import LineBasic.Statement.Parser

/-!
# Programs from files

A file holds a line of the program on each of its lines. One without a label is numbered after the
line before it, blank lines are skipped, and the first error ends the reading.
-/
namespace LineBasic.Program

/-- The label that a text starts with. -/
def ownLabel? (text : List Char) : Option Label :=
  Statement.label? ((Text.trimStart text).takeWhile Char.isDigit)

/-- Adds one line of a file after a line labelled `last`. The label of the added line, or else
`last`, comes with the program. -/
def addText (last : Label) (p : Program) (text : List Char) : Except Error (Label × Program) := do
  let next := min (last + 1) maxLabel
  let s ← (Statement.parse (String.ofList text)).mapError (·.onLine ((ownLabel? text).getD next))
  match s.label with
  | some label => return (label, (p.apply s).2)
  | none =>
    if s.keyword = .blank then return (last, p)
    else if maxLabel ≤ last then throw ((Error.Cause.noLabelLeft last).error.onLine next)
    else return (last + 1, (p.insert (last + 1) s false).2)

/-- The program that a file holds. -/
def ofSource (source : String) : Except Error Program := do
  let lines := Text.lines source.toList
  let (_, p) ← lines.foldlM (fun (last, p) text => addText last p text) (0, empty)
  return p

end LineBasic.Program
