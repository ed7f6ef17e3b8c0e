import LineBasic.Token.Basic

/-!
# Expressions in a token list

```text
expression := ('+' | '-')* term (('+' | '-') term)*
term       := factor (('*' | '/') factor)*
factor     := NUMBER | VARIABLE | FUNCTION '(' expression ')' | '(' expression ')'
```

`spanLength` says how many tokens in front could belong to an expression, `parse` checks that a
token list is one. It keeps the tokens in their order and only gathers a function's call into one
token. It needs no recursion on the grammar: between two tokens all that counts is whether a sign,
an operand or an operator is due, and which brackets are open.
-/
namespace LineBasic.Expression

/-- Whether a token followed by `next` could belong to an expression. -/
def belongs (t : Token) (next : Option Token) : Bool :=
  match t, next with
  | .number _, _ | .lparen, _ | .rparen, _ => true
  | .op o, _ => o.isArithmetic
  | .word w, some .lparen => (varName? w).isSome || (Function.ofName? w).isSome
  | .word w, _ => (varName? w).isSome
  | _, _ => false

/-- The number of tokens in front that could belong to an expression. -/
def spanLength : List Token → Nat
  | [] => 0
  | t :: ts => if belongs t ts.head? then spanLength ts + 1 else 0

theorem spanLength_le (ts : List Token) : spanLength ts ≤ ts.length := by
  induction ts with
  | nil => simp [spanLength]
  | cons t ts ih =>
    simp only [spanLength, List.length_cons]
    split <;> omega

/-- A bracket not yet closed. A call keeps what stood before it at its level, last token first. -/
inductive Bracket where
  | paren
  | call (function : Function) (before : List Token)

/-- What is due next: at the start of an expression an operand with signs before it, after a binary
operator an operand, after an operand an operator or the end. -/
inductive Due where
  | signed
  | operand
  | operator

/-- Reads the tokens up to the end of the expression. `seen` holds what was read at this level, last
token first. -/
def check : Due → List Bracket → (seen : List Token) → List Token → Except Error (List Token)
  | .operator, [], seen, [] => .ok seen.reverse
  | .operator, _ :: _, _, [] => .error Error.Cause.unclosedParen.error
  | _, _, _, [] => .error Error.Cause.expressionCut.error
  | .operator, brackets, seen, t :: ts =>
    match t, brackets with
    | .rparen, .paren :: brackets => check .operator brackets (.rparen :: seen) ts
    | .rparen, .call f before :: brackets =>
      check .operator brackets (.call f [.expression seen.reverse] :: before) ts
    | .op o, brackets =>
      if o.isArithmetic then check .operand brackets (.op o :: seen) ts else stray (.op o) brackets
    | t, brackets => stray t brackets
  | due, brackets, seen, t :: ts =>
    match t with
    | .op o =>
      if due matches .signed && o.isAdditive then check .signed brackets (.op o :: seen) ts
      else .error (Error.Cause.notOperand o.render).error
    | .number n => check .operator brackets (.number n :: seen) ts
    | .lparen => check .signed (.paren :: brackets) (.lparen :: seen) ts
    | .word w =>
      if (varName? w).isSome then check .operator brackets (.word w :: seen) ts
      else
        match Function.ofName? w, ts with
        | some f, .lparen :: ts => check .signed (.call f seen :: brackets) [] ts
        | some f, _ => .error (Error.Cause.noOpenParen f.name).error
        | none, _ => .error (Error.Cause.notVariable w).error
    | t => .error (Error.Cause.notOperand t.render).error
where
  /-- The error of a token that can neither continue nor close the level. -/
  stray (t : Token) : List Bracket → Except Error (List Token)
    | [] => .error (Error.Cause.trailing t.render).error
    | _ => .error (Error.Cause.noCloseParen t.render).error

/-- Checks that the tokens are one complete expression. -/
def parse : List Token → Except Error Token
  | [] => .error Error.Cause.noExpression.error
  | ts => .expression <$> check .signed [] [] ts

/-- Reads the expression in front of a token list. -/
def read (ts : List Token) : Except Error (Token × List Token) := do
  let e ← parse (ts.take (spanLength ts))
  return (e, ts.drop (spanLength ts))

theorem read_length {ts rest : List Token} {e : Token} (h : read ts = .ok (e, rest)) :
    rest.length ≤ ts.length := by
  simp only [read] at h
  cases hp : parse (ts.take (spanLength ts)) with
  | error => simp [hp, bind, Except.bind] at h
  | ok t =>
    simp only [hp, bind, Except.bind, pure, Except.pure, Except.ok.injEq, Prod.mk.injEq] at h
    simp [← h.2]

/-- Reads expressions with commas between them, up to the end of the line that `ts` ends. -/
def readList (line ts : List Token) : Except Error (List Token) :=
  match _h : read ts with
  | .error e => .error e
  | .ok (e, .comma :: rest) => (e :: ·) <$> readList line rest
  | .ok (e, []) | .ok (e, .newline :: _) => .ok [e]
  | .ok (_, t :: rest) =>
    .error ((Error.Cause.noComma t.render).error.within (Token.excerpt line (t :: rest)))
termination_by ts.length
decreasing_by
  have := read_length _h
  simp at this
  omega

/-- The expressions of a line, as an answer to `INPUT` has them. -/
def parseList (ts : List Token) : Except Error (List Token) :=
  readList ts ts

end LineBasic.Expression
