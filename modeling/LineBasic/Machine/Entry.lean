import LineBasic.Machine.Step
import LineBasic.Program.Source

/-!
# Lines given to a machine

A line answers a waiting `INPUT`, changes the program if it has a label, or is executed by itself.
The program may be changed in the middle of a run: the cursor and the open calls move along with
their lines.
-/
namespace LineBasic

namespace Change

/-- The slot of the line that was at slot `i` before a change. If that line is gone, it is the slot
of the line before. -/
def shift (c : Change) (i : Nat) : Nat :=
  match c with
  | added j => if j ≤ i then i + 1 else i
  | removed j => if j ≤ i then i - 1 else i
  | updated _ | unchanged => i

/-- The slot after a line, if it was `i` before a change. What is added or removed at slot `i` comes
after the line. -/
def shiftAfter (c : Change) (i : Nat) : Nat :=
  match c with
  | added j => if j < i then i + 1 else i
  | removed j => if j < i then i - 1 else i
  | updated _ | unchanged => i

def shiftReturn (c : Change) : ReturnPoint → ReturnPoint
  | .slot i => .slot (c.shiftAfter i)
  | .direct => .direct

end Change

namespace Machine

/-- Parses a typed line. An error is queued as an event. -/
def parse (m : Machine) (text : String) : Option Statement × Machine :=
  match Statement.parse text with
  | .ok s => (some s, m)
  | .error e => (none, m.emit (.error e))

/-- Applies a labelled line to the program. -/
def revise (m : Machine) (s : Statement) : Change × Machine :=
  let (change, program) := m.program.apply s
  (change,
    { m with program, cursor := change.shift m.cursor, calls := m.calls.map change.shiftReturn })

/-- Applies a labelled line, or sets out to execute a direct statement. The latter is refused while
the machine is active. -/
def submitStatement (m : Machine) (s : Statement) : Option Change × Machine :=
  if s.label.isSome then
    let (change, m) := m.revise s
    (some change, m)
  else if s.keyword = .blank then
    (some .unchanged, m)
  else if m.isActive then
    (none, m.emit (.error (Error.Cause.directWhileActive s.render).error))
  else
    (some .unchanged, { m with direct := some s, status := .running })

/-- The values of expressions, in their order. -/
def values : List Token → ExecM (List Int16)
  | [] => return []
  | e :: es => do
    let v ← value e
    return v :: (← values es)

/-- The values that an answer to `INPUT` gives. -/
def answerValues (text : String) : ExecM (List Int16) :=
  match (lex text.toList).bind Expression.parseList with
  | .ok es => values es
  | .error _ => throw (Error.Cause.badAnswer (String.ofList (Text.trim text.toList))).error

/-- Takes an answer to `INPUT`. A bad answer ends the run. -/
def takeAnswer (m : Machine) (text : String) : Machine :=
  match answerValues text m with
  | .ok vs m => { m with inputs := m.inputs ++ vs, status := .running }
  | .error e m => m.abort (e.onLine m.upcomingLabel?)

/-- Takes a line from the user, and says whether it was accepted. -/
def submit (m : Machine) (text : String) : Bool × Machine :=
  if m.isWaiting then
    (true, m.takeAnswer text)
  else
    match m.parse text with
    | (none, m) => (false, m)
    | (some s, m) =>
      let (change, m) := m.submitStatement s
      (change.isSome, m)

/-- Replaces the program by the one that a file holds, and ends the run. -/
def replaceProgram (m : Machine) (source : String) : Except Error Machine := do
  let program ← Program.ofSource source
  return { m.forget with program, direct := none, cursor := 0, status := .stopped }

theorem submit_of_isWaiting {m : Machine} (h : m.isWaiting = true) (text : String) :
    m.submit text = (true, m.takeAnswer text) := by
  rw [submit, if_pos h]

end Machine

end LineBasic
