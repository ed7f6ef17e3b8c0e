import LineBasic.Expression.Parser
import LineBasic.Text.Decimal
import LineBasic.Token.Lexer

/-!
# Statements in a token list

```text
line      := [LABEL] [statement] (NEWLINE | end)
statement := PRINT item (',' item)* | LET VARIABLE '=' expression | INPUT VARIABLE (',' VARIABLE)*
           | IF expression relation expression THEN statement | (GOTO | GOSUB) expression
           | REM token* | RETURN | CLEAR | LIST | RUN | END
item      := QUOTED | expression
```

`Statement.parse` reads one typed line of text. A reader takes tokens from the front of a list; one
that fails says where it stood, because the error of a line quotes the tokens up to that place.
-/
namespace LineBasic

/-- A value read from the front of a token list, or the error that stopped the reader. `rest` holds
the tokens not yet read. -/
inductive Reading (α : Type) where
  | done (value : α) (rest : List Token)
  | stuck (error : Error) (rest : List Token)

namespace Reading

variable {α β : Type}

/-- Stops in front of `rest`. -/
def fail (c : Error.Cause) (rest : List Token) : Reading α :=
  stuck c.error rest

def map (f : α → β) : Reading α → Reading β
  | done a rest => done (f a) rest
  | stuck e rest => stuck e rest

def bind (r : Reading α) (f : α → List Token → Reading β) : Reading β :=
  match r with
  | done a rest => f a rest
  | stuck e rest => stuck e rest

/-- The outcome of a reader that reads nothing on failure. -/
def ofExcept (ts : List Token) : Except Error (α × List Token) → Reading α
  | .ok (a, rest) => done a rest
  | .error e => stuck e ts

end Reading

namespace Statement

/-! ## Parts of a statement -/

def readExpression (ts : List Token) : Reading Token :=
  .ofExcept ts (Expression.read ts)

theorem readExpression_length {ts rest : List Token} {e : Token}
    (h : readExpression ts = .done e rest) : rest.length ≤ ts.length := by
  simp only [readExpression, Reading.ofExcept] at h
  split at h
  · next hr =>
    simp only [Reading.done.injEq] at h
    exact h.2 ▸ Expression.read_length hr
  · simp at h

def readVariable : List Token → Reading Token
  | [] => .fail (.noVariable none) []
  | t :: ts =>
    if t.varName?.isSome then .done t ts
    else
      match t with
      | .word w => .fail (.notVariable w) (t :: ts)
      | t => .fail (.noVariable (some t.render)) (t :: ts)

/-- Reads a quoted text or an expression. -/
def readItem : List Token → Reading Token
  | .quoted s :: ts => .done (.quoted s) ts
  | ts => readExpression ts

theorem readItem_length {ts rest : List Token} {t : Token}
    (h : readItem ts = .done t rest) : rest.length ≤ ts.length := by
  unfold readItem at h
  split at h
  · simp only [Reading.done.injEq] at h
    simp [← h.2]
  · exact readExpression_length h

/-- Reads items with commas between them. -/
def readItems (ts : List Token) : Reading (List Token) :=
  match _h : readItem ts with
  | .stuck e rest => .stuck e rest
  | .done t (.comma :: rest) => (readItems rest).map (t :: ·)
  | .done t rest => .done [t] rest
termination_by ts.length
decreasing_by
  have := readItem_length _h
  simp at this
  omega

/-- Reads variables with commas between them. -/
def readVariables : List Token → Reading (List Token)
  | t :: .comma :: ts =>
    (readVariable (t :: .comma :: ts)).bind fun v _ => (readVariables ts).map (v :: ·)
  | ts => (readVariable ts).map ([·])

/-- Reads the variable, the equal sign and the expression of an assignment. -/
def readAssignment (ts : List Token) : Reading (List Token) :=
  (readVariable ts).bind fun v ts =>
    match ts with
    | .op .equal :: ts => (readExpression ts).map ([v, ·])
    | ts => .fail (.noEqualSign v.render) ts

def readRelation : List Token → Reading Operator
  | .op o :: ts => if o.isRelational then .done o ts else .fail .noComparison (.op o :: ts)
  | ts => .fail .noComparison ts

/-- Reads the word between a condition and its statement. -/
def readThen : List Token → Reading Unit
  | .word w :: ts => if w = "THEN" then .done () ts else .fail .noThen (.word w :: ts)
  | ts => .fail .noThen ts

/-- Reads the two sides of a comparison, its operator and the word after it. -/
def readCondition (ts : List Token) : Reading (Token × Operator × Token) :=
  (readExpression ts).bind fun a ts =>
    (readRelation ts).bind fun o ts =>
      (readExpression ts).bind fun b ts =>
        (readThen ts).map fun _ => (a, o, b)

/-- Reads a remark up to the line's end. Its text is that of its tokens, with a blank between
two. -/
def readRemark (ts : List Token) : Reading (List Token) :=
  let words := Token.renderAll (ts.takeWhile (!·.isNewline))
  .done (if words.isEmpty then [] else [.unknown (" ".intercalate words)])
    (ts.dropWhile (!·.isNewline))

theorem readRelation_length {ts rest : List Token} {o : Operator}
    (h : readRelation ts = .done o rest) : rest.length ≤ ts.length := by
  unfold readRelation at h
  split at h
  · split at h
    · simp only [Reading.done.injEq] at h
      simp [← h.2]
    · simp [Reading.fail] at h
  · simp [Reading.fail] at h

theorem readThen_length {ts rest : List Token} (h : readThen ts = .done () rest) :
    rest.length ≤ ts.length := by
  unfold readThen at h
  split at h
  · split at h
    · simp only [Reading.done.injEq] at h
      simp [← h.2]
    · simp [Reading.fail] at h
  · simp [Reading.fail] at h

theorem readCondition_length {ts rest : List Token} {c : Token × Operator × Token}
    (h : readCondition ts = .done c rest) : rest.length ≤ ts.length := by
  unfold readCondition at h
  cases ha : readExpression ts with
  | stuck => simp [ha, Reading.bind] at h
  | done a ts1 =>
    cases ho : readRelation ts1 with
    | stuck => simp [ha, ho, Reading.bind] at h
    | done o ts2 =>
      cases hb : readExpression ts2 with
      | stuck => simp [ha, ho, hb, Reading.bind] at h
      | done b ts3 =>
        cases ht : readThen ts3 with
        | stuck => simp [ha, ho, hb, ht, Reading.bind, Reading.map] at h
        | done _ ts4 =>
          simp only [ha, ho, hb, ht, Reading.bind, Reading.map, Reading.done.injEq] at h
          have := readExpression_length ha
          have := readRelation_length ho
          have := readExpression_length hb
          have := readThen_length ht
          rw [← h.2]
          omega

/-! ## Statements and lines -/

/-- Reads the arguments of a keyword other than `cond`. -/
def readArgs (k : Keyword) (ts : List Token) : Reading (List Token) :=
  match k with
  | .print => readItems ts
  | .assign => readAssignment ts
  | .input => readVariables ts
  | .goto | .gosub => (readExpression ts).map ([·])
  | .remark => readRemark ts
  | .cond | .ret | .clear | .list | .run | .stop | .blank => .done [] ts

/-- Reads a statement without label and line end. -/
def read : List Token → Reading Statement
  | [] => .fail (.noStatement none) []
  | .word w :: ts =>
    match Keyword.ofWord? w with
    | none => .fail (.unknownStatement w) (.word w :: ts)
    | some .cond =>
      match _h : readCondition ts with
      | .stuck e rest => .stuck e rest
      | .done (a, o, b) rest => (read rest).map fun s => ⟨.cond, [a, .op o, b, .statement s], none⟩
    | some k => (readArgs k ts).map (⟨k, ·, none⟩)
  | t :: ts => .fail (.noStatement (some t.render)) (t :: ts)
termination_by ts => ts.length
decreasing_by
  have := readCondition_length _h
  simp
  omega

/-- The label that a number spells. -/
def label? (digits : List Char) : Option Label :=
  (Text.decimal? digits).filter fun n => 1 ≤ n && n ≤ maxLabel

/-- Reads the label in front of a line, if there is one. -/
def readLabel : List Token → Reading (Option Label)
  | .number n :: ts =>
    match label? n.toList with
    | some l => .done (some l) ts
    | none => .fail (.labelRange n) (.number n :: ts)
  | ts => .done none ts

/-- Reads the statement of a line, or a blank one if the line ends here. -/
def readBody : List Token → Reading Statement
  | [] => .done { keyword := .blank } []
  | .newline :: ts => .done { keyword := .blank } (.newline :: ts)
  | ts => read ts

/-- Reads the line's end. -/
def readEnd : List Token → Reading Unit
  | [] => .done () []
  | .newline :: ts => .done () ts
  | t :: ts => .fail (.trailing t.render) (t :: ts)

/-- Reads one line. A label alone makes a blank statement with that label. An error quotes the line
up to the place where it was found, and carries the line's label. -/
def readLine (ts : List Token) : Reading Statement :=
  match readLabel ts with
  | .stuck e rest => .stuck (e.within (Token.excerpt ts rest)) rest
  | .done l body =>
    match (readBody body).bind fun s rest => (readEnd rest).map fun _ => { s with label := l } with
    | .stuck e rest => .stuck ((e.within (Token.excerpt ts rest)).onLine l) rest
    | .done s rest => .done s rest

/-- Reads one typed line of text. The text of a remark is kept as it was typed, without the blanks
around it. -/
def parse (text : String) : Except Error Statement :=
  let (code, remark) := splitRemark text.toList
  (lex code).bind fun ts =>
    match readLine ts with
    | .stuck e _ => .error e
    | .done s (t :: _) => .error ((Error.Cause.secondLine t.render).error.onLine s.label)
    | .done s [] =>
      match remark.map Text.trim with
      | none | some [] => .ok s
      | some cs => .ok { s with args := [.unknown (String.ofList cs)] }

end Statement

end LineBasic
