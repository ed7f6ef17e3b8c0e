import LineBasic.Error

/-!
# Tokens and statements

A token is a lexical unit of a line, or a tree of them: an expression in flat order, a function
call, the statement after `THEN`. A statement is a keyword with argument tokens. The types admit
more trees than a line can spell; which arguments a keyword takes is checked where they are used.
-/
namespace LineBasic

inductive Operator where
  | plus
  | minus
  | times
  | divide
  | equal
  | notEqual
  | less
  | lessEqual
  | greater
  | greaterEqual
deriving DecidableEq, Repr

namespace Operator

def isAdditive : Operator → Bool
  | plus | minus => true
  | _ => false

def isMultiplicative : Operator → Bool
  | times | divide => true
  | _ => false

def isArithmetic (o : Operator) : Bool :=
  o.isAdditive || o.isMultiplicative

def isRelational (o : Operator) : Bool :=
  !o.isArithmetic

def render : Operator → String
  | plus => "+"
  | minus => "-"
  | times => "*"
  | divide => "/"
  | equal => "="
  | notEqual => "<>"
  | less => "<"
  | lessEqual => "<="
  | greater => ">"
  | greaterEqual => ">="

/-- Whether the relation holds; an arithmetic operator relates nothing. -/
def holds (o : Operator) (a b : Int16) : Bool :=
  match o with
  | equal => a == b
  | notEqual => a != b
  | less => a < b
  | lessEqual => a ≤ b
  | greater => b < a
  | greaterEqual => b ≤ a
  | plus | minus | times | divide => false

def all : List Operator :=
  [plus, minus, times, divide, equal, notEqual, less, lessEqual, greater, greaterEqual]

theorem mem_all (o : Operator) : o ∈ all := by
  cases o <;> decide

end Operator

/-- The built-in functions. Each takes one argument. -/
inductive Function where
  | rnd
deriving DecidableEq, Repr

namespace Function

def name : Function → String
  | rnd => "RND"

def ofName? (s : String) : Option Function :=
  if s = "RND" then some rnd else none

def arity : Function → Nat
  | rnd => 1

theorem ofName?_name (f : Function) : ofName? f.name = some f := by
  cases f; rfl

end Function

/-- The kinds of statement. `blank` is the line without a keyword. -/
inductive Keyword where
  | print
  | assign
  | cond
  | goto
  | gosub
  | input
  | ret
  | clear
  | list
  | run
  | stop
  | remark
  | blank
deriving DecidableEq, Repr

namespace Keyword

def render : Keyword → String
  | print => "PRINT"
  | assign => "LET"
  | cond => "IF"
  | goto => "GOTO"
  | gosub => "GOSUB"
  | input => "INPUT"
  | ret => "RETURN"
  | clear => "CLEAR"
  | list => "LIST"
  | run => "RUN"
  | stop => "END"
  | remark => "REM"
  | blank => ""

/-- The keywords that a line can spell. -/
def spelled : List Keyword :=
  [print, assign, cond, goto, gosub, input, ret, clear, list, run, stop, remark]

/-- Keywords are upper case. -/
def ofWord? (s : String) : Option Keyword :=
  spelled.find? (·.render = s)

theorem ofWord?_render {k : Keyword} (h : k ≠ blank) : ofWord? k.render = some k := by
  revert h
  cases k <;> decide

end Keyword

mutual

inductive Token where
  /-- Text that is no token of the language: a remark's. -/
  | unknown (text : String)
  | comma
  | newline
  | number (digits : String)
  /-- A keyword, a variable, a function name or none of them. -/
  | word (text : String)
  /-- A quoted text, without its quotes. -/
  | quoted (text : String)
  | lparen
  | rparen
  | op (operator : Operator)
  /-- The operands, operators and parentheses of an expression, in the order of the text. -/
  | expression (tokens : List Token)
  | call (function : Function) (args : List Token)
  | statement (s : Statement)

/-- A keyword, its arguments and the label in front of it. By keyword, the arguments are
* `print`: a quoted text or an expression for each item,
* `assign`: a variable and an expression,
* `cond`: an expression, a relational operator, an expression and a statement,
* `goto`, `gosub`: an expression,
* `input`: variables,
* `remark`: its text, if any,
* none for the others. -/
structure Statement where
  keyword : Keyword
  args : List Token := []
  label : Option Label := none

end

namespace Statement

def isRemark (s : Statement) : Bool :=
  s.keyword = .remark

def isCall (s : Statement) : Bool :=
  s.keyword = .gosub

end Statement

/-- The variable that a text names: one of the letters `A` to `Z`. -/
def varName? (s : String) : Option Char :=
  match s.toList with
  | [c] => if c.isUpper then some c else none
  | _ => none

namespace Token

def varName? : Token → Option Char
  | word s => LineBasic.varName? s
  | _ => none

def isWord (t : Token) (s : String) : Bool :=
  match t with
  | word w => w = s
  | _ => false

def isNewline : Token → Bool
  | newline => true
  | _ => false

end Token

/-! ## Text of tokens and statements -/

mutual

def Token.render : Token → String
  | .unknown text => text
  | .comma => ","
  | .newline => "\n"
  | .number digits => digits
  | .word text => text
  | .quoted text => "\"" ++ text ++ "\""
  | .lparen => "("
  | .rparen => ")"
  | .op o => o.render
  | .expression ts => String.join (Token.renderAll ts)
  | .call f args => f.name ++ "(" ++ ",".intercalate (Token.renderAll args) ++ ")"
  | .statement s => s.render

/-- The texts of several tokens. -/
def Token.renderAll : List Token → List String
  | [] => []
  | t :: ts => t.render :: Token.renderAll ts

/-- The statement without its label. Arguments that the keyword does not take are left out. -/
def Statement.render : Statement → String
  | ⟨.assign, [v, e], _⟩ => "LET " ++ v.render ++ " = " ++ e.render
  | ⟨.cond, [a, o, b, s], _⟩ =>
    "IF " ++ a.render ++ " " ++ o.render ++ " " ++ b.render ++ " THEN " ++ s.render
  | ⟨.print, a :: as, _⟩ => "PRINT " ++ ", ".intercalate (a.render :: Token.renderAll as)
  | ⟨.input, a :: as, _⟩ => "INPUT " ++ ", ".intercalate (a.render :: Token.renderAll as)
  | ⟨.goto, args, _⟩ => " ".intercalate ("GOTO" :: Token.renderAll args)
  | ⟨.gosub, args, _⟩ => " ".intercalate ("GOSUB" :: Token.renderAll args)
  | ⟨.remark, args, _⟩ => " ".intercalate ("REM" :: Token.renderAll args)
  | ⟨k, _, _⟩ => k.render

end

/-- The text of the tokens up to the place in front of `rest`, with the token there. -/
def Token.excerpt (ts rest : List Token) : String :=
  " ".intercalate
    (Token.renderAll ((ts.take (ts.length - rest.length + 1)).filter (!·.isNewline)))

theorem Token.renderAll_eq_map (ts : List Token) : Token.renderAll ts = ts.map Token.render := by
  induction ts with
  | nil => rfl
  | cons t ts ih => simp [Token.renderAll, ih]

end LineBasic
