import LineBasic.Memory
import LineBasic.Random.Draw
import LineBasic.Text.Decimal
import LineBasic.Token.Basic

/-!
# The value of an expression

An expression is kept in flat order, so evaluation finds the precedence of its operators again. One
walk over the tokens does it: a `Level` holds the sum and the product under way between two
brackets, and the levels outside wait on a list. Arithmetic wraps at 16 bits, and a division goes
toward zero. A list that is no expression is an error only where an operand is missing: brackets
that are not closed and tokens after the end are let be.
-/
namespace LineBasic.Expression

/-- An evaluation draws random numbers. Those it has drawn stay drawn if it fails. -/
abbrev EvalM := EStateM Error Random.Generator

/-- The sum and the product under way at one bracket level. -/
structure Level where
  /-- The terms complete so far. -/
  sum : Int16 := 0
  /-- Whether the next term is subtracted. -/
  minus : Bool := false
  /-- The factors of the next term so far, and whether the next factor divides. -/
  product : Option (Int16 × Bool) := none
deriving DecidableEq, Repr

namespace Level

/-- The term under way, with `v` as its next factor. -/
def term (l : Level) (v : Int16) : Except Error Int16 :=
  match l.product with
  | none => .ok v
  | some (p, false) => .ok (p * v)
  | some (p, true) => if v = 0 then .error Error.Cause.zeroDivisor.error else .ok (p / v)

/-- The sum, with `t` as its last term. -/
def total (l : Level) (t : Int16) : Int16 :=
  if l.minus then l.sum - t else l.sum + t

/-- Ends a level and all those outside it, of which it is an operand. -/
def closeAll (l : Level) (v : Int16) : List Level → Except Error Int16
  | [] => l.total <$> l.term v
  | outer :: rest => do outer.closeAll (l.total (← l.term v)) rest

end Level

/-- The value of a numeral, modulo `2 ^ 16`. -/
def numeral (digits : String) : Except Error Int16 :=
  if digits.toList.all Char.isDigit then
    .ok (digits.toList.foldl (fun v c => v * 10 + Int16.ofNat (Text.digit c)) 0)
  else
    .error (Error.Cause.notNumeral digits).error

/-- The value of the variable that a word names. -/
def lookup (memory : Memory) (w : String) : Except Error Int16 :=
  match varName? w with
  | some name => memory.read name
  | none => .error (Error.Cause.notVariable w).error

/-- Calls a function. `RND` draws a number from 1 to its argument. -/
def apply (f : Function) (n : Int16) : EvalM Int16 :=
  match f with
  | .rnd =>
    if n < 1 then throw (Error.Cause.callRange f.name (toString n.toInt)).error
    else modifyGet (Random.draw n)

mutual

/-- The value of an expression token. -/
def evaluate (memory : Memory) : Token → EvalM Int16
  | .expression ts => operand memory true {} [] ts
  | t => throw (Error.Cause.notExpression t.render).error

/-- The value of a call. -/
def invoke (memory : Memory) (f : Function) : List Token → EvalM Int16
  | [arg] => do apply f (← evaluate memory arg)
  | _ => throw (Error.Cause.callArity f.name).error

/-- Continues where an operand is due, with signs before it if `signs`. -/
def operand (memory : Memory) (signs : Bool) (level : Level) (outer : List Level) :
    List Token → EvalM Int16
  | [] => throw (Error.Cause.notWellFormed none).error
  | .op .plus :: ts =>
    if signs then operand memory true level outer ts
    else throw (Error.Cause.notWellFormed (some "+")).error
  | .op .minus :: ts =>
    if signs then operand memory true { level with minus := !level.minus } outer ts
    else throw (Error.Cause.notWellFormed (some "-")).error
  | .lparen :: ts => operand memory true {} (level :: outer) ts
  | .number n :: ts => do operator memory (← liftExcept (numeral n)) level outer ts
  | .word w :: ts => do operator memory (← liftExcept (lookup memory w)) level outer ts
  | .call f args :: ts => do operator memory (← invoke memory f args) level outer ts
  | .expression es :: ts => do operator memory (← operand memory true {} [] es) level outer ts
  | t :: _ => throw (Error.Cause.notWellFormed (some t.render)).error

/-- Continues after the operand `v`. -/
def operator (memory : Memory) (v : Int16) (level : Level) (outer : List Level) :
    List Token → EvalM Int16
  | .op .times :: ts => do
    let t ← liftExcept (level.term v)
    operand memory false { level with product := some (t, false) } outer ts
  | .op .divide :: ts => do
    let t ← liftExcept (level.term v)
    operand memory false { level with product := some (t, true) } outer ts
  | .op .plus :: ts => do
    let t ← liftExcept (level.term v)
    operand memory false { sum := level.total t } outer ts
  | .op .minus :: ts => do
    let t ← liftExcept (level.term v)
    operand memory false { sum := level.total t, minus := true } outer ts
  | .rparen :: ts => do
    let t ← liftExcept (level.term v)
    match outer with
    | [] => return level.total t
    | up :: outer => operator memory (level.total t) up outer ts
  | _ => liftExcept (level.closeAll v outer)

end

end LineBasic.Expression
