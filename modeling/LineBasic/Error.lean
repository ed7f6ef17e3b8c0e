/-!
# Errors

An error has a code, the label of the program line it belongs to, if any, and a detail text. Every
error that the library raises comes from a `Cause`, so the wording of all details stands in
`Cause.detail`.
-/
namespace LineBasic

/-- The number of a program line. A typed label is in `1..maxLabel`. -/
abbrev Label := Nat

def maxLabel : Label := 32767

namespace Error

inductive Kind where
  | tokenization
  | parsing
  | runtime
deriving DecidableEq, Repr

inductive Code where
  | unmatchedQuotation
  | emptyExpression
  | unexpectedToken
  | invalidVariable
  | invalidLabel
  | uninitializedVariable
  | divisionByZero
  | returnWithoutGosub
  | undefinedLabel
  | missingEnd
  | malformedInput
  | illegalFunctionCall
  | illegalDirect
  | outOfMemory
  | break
  | internalError
deriving DecidableEq, Repr

def Code.kind : Code → Kind
  | .unmatchedQuotation => .tokenization
  | .emptyExpression | .unexpectedToken | .invalidVariable | .invalidLabel => .parsing
  | _ => .runtime

def Code.description : Code → String
  | .unmatchedQuotation => "unmatched quotation"
  | .emptyExpression => "empty expression"
  | .unexpectedToken => "unexpected or empty token"
  | .invalidVariable => "invalid variable name"
  | .invalidLabel => "invalid label"
  | .uninitializedVariable => "uninitialized variable"
  | .divisionByZero => "division by zero"
  | .returnWithoutGosub => "tried to return without invoking a subroutine"
  | .undefinedLabel => "label does not exist"
  | .missingEnd => "missing END or RETURN"
  | .malformedInput => "malformed input"
  | .illegalFunctionCall => "illegal function call"
  | .illegalDirect => "illegal direct"
  | .outOfMemory => "out of memory"
  | .break => "program terminated"
  | .internalError => "internal error"

end Error

structure Error where
  code : Error.Code
  label : Option Label := none
  detail : String := ""
deriving DecidableEq, Repr

namespace Error

def kind (e : Error) : Kind :=
  e.code.kind

/-- Places the error on a line, unless it has one already: the first label wins. -/
def onLine (e : Error) (label : Option Label) : Error :=
  { e with label := e.label <|> label }

/-- Adds the source text in which the error was found. -/
def within (e : Error) (context : String) : Error :=
  let place := "at \"" ++ context ++ "\""
  { e with detail := if e.detail = "" then place else e.detail ++ " " ++ place }

/-- The line shown to the user. -/
def message (e : Error) : String :=
  (match e.label with
    | some l => "Line " ++ toString l ++ ": "
    | none => "") ++
  (match e.kind with
    | .tokenization | .parsing => "Syntax error: "
    | .runtime => "Runtime error: ") ++
  e.code.description ++
  (if e.detail = "" then "" else ": " ++ e.detail)

/-- The message between braces, as a log shows an error. -/
def summary (e : Error) : String :=
  "Error \x7b " ++ e.message ++ " \x7d"

/-! ## Causes -/

/-- What went wrong. Offending tokens, words and statements are given by their text. -/
inductive Cause where
  /-- A quoted text that the line's end cuts off after `text`. -/
  | unclosedQuote (text : String)
  /-- An expression was due and nothing that could start one stands there. -/
  | noExpression
  | expressionCut
  | unclosedParen
  | noCloseParen (found : String)
  | noOpenParen (function : String)
  | notOperand (found : String)
  | notVariable (name : String)
  | trailing (found : String)
  | labelRange (digits : String)
  | unknownStatement (word : String)
  | noStatement (found : Option String)
  | noVariable (found : Option String)
  | noEqualSign (target : String)
  | noComparison
  | noThen
  | noComma (found : String)
  | secondLine (found : String)
  | noLabelLeft (last : Label)
  | unset (name : String)
  | zeroDivisor
  | callRange (function argument : String)
  | callArity (function : String)
  | notNumeral (text : String)
  | notExpression (found : String)
  | notWellFormed (found : Option String)
  | badArguments (keyword : String)
  | noSuchLabel (label : String)
  | stackFull (what : String)
  | programEnd
  | badAnswer (text : String)
  | directWhileActive (statement : String)
  | interrupted
deriving DecidableEq, Repr

def Cause.code : Cause → Code
  | unclosedQuote _ => .unmatchedQuotation
  | noExpression => .emptyExpression
  | notVariable _ => .invalidVariable
  | labelRange _ | noLabelLeft _ => .invalidLabel
  | expressionCut | unclosedParen | noCloseParen _ | noOpenParen _ | notOperand _ | trailing _
  | unknownStatement _ | noStatement _ | noVariable _ | noEqualSign _ | noComparison | noThen
  | noComma _ | secondLine _ => .unexpectedToken
  | unset _ => .uninitializedVariable
  | zeroDivisor => .divisionByZero
  | callRange .. => .illegalFunctionCall
  | callArity _ | notNumeral _ | notExpression _ | notWellFormed _ | badArguments _ =>
    .internalError
  | noSuchLabel _ => .undefinedLabel
  | stackFull _ => .outOfMemory
  | programEnd => .missingEnd
  | badAnswer _ => .malformedInput
  | directWhileActive _ => .illegalDirect
  | interrupted => .break

def Cause.detail : Cause → String
  | unclosedQuote text => "\"" ++ text
  | expressionCut => "expression ends unexpectedly"
  | unclosedParen => "unmatched ("
  | noCloseParen found => "expected ) but found " ++ found
  | noOpenParen function => "expected ( after " ++ function
  | notOperand found => found
  | notVariable name => name
  | trailing found => "unexpected token at the end: " ++ found
  | labelRange digits => digits ++ " is not in 1..=" ++ toString maxLabel
  | unknownStatement word => "unknown statement " ++ word
  | noStatement none => "expected statement"
  | noStatement (some found) => "expected statement but found " ++ found
  | noVariable none => "expected variable"
  | noVariable (some found) => "expected variable but found " ++ found
  | noEqualSign target => "expected = after " ++ target
  | noComparison => "expected comparison operator"
  | noThen => "expected THEN"
  | noComma found => "expected , but found " ++ found
  | secondLine found => "only one line expected, found " ++ found
  | noLabelLeft last => "no label left after " ++ toString last
  | unset name => name
  | callRange function argument => function ++ "(" ++ argument ++ ")"
  | callArity function => function ++ " takes one argument"
  | notNumeral text => "bad number " ++ text
  | notExpression found => "not an expression: " ++ found
  | notWellFormed none => "malformed expression"
  | notWellFormed (some found) => "malformed expression at " ++ found
  | badArguments keyword => "malformed " ++ keyword ++ " statement"
  | noSuchLabel label => label
  | stackFull what => what
  | badAnswer text => text
  | directWhileActive statement => statement
  | noExpression | zeroDivisor | programEnd | interrupted => ""

/-- The error of a cause, on no line yet. -/
def Cause.error (c : Cause) : Error :=
  { code := c.code, detail := c.detail }

end Error

end LineBasic
