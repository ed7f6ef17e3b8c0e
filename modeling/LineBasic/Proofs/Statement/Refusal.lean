import LineBasic.Program.Source
import LineBasic.Proofs.Statement.Grammar

/-!
# Texts that are refused

Every reader fails with a syntax error, so a line of text and a file are refused for their syntax only
(`Statement.rejects_parse`, `Program.rejects_ofSource`).
-/
namespace LineBasic

/-- The error is one of tokenization or parsing. -/
def Error.isSyntax (e : Error) : Bool :=
  e.kind ≠ .runtime

/-- A syntax error that is on no line yet. -/
def Error.Unplaced (e : Error) : Prop :=
  e.isSyntax = true ∧ e.label = none

/-- The outcome is an error only if `P` holds of that. -/
def Rejects {α : Type} (P : Error → Prop) (x : Except Error α) : Prop :=
  ∀ e, x = .error e → P e

section

variable {α β : Type} {P Q : Error → Prop}

theorem rejects_ok (a : α) : Rejects P (.ok a : Except Error α) := by
  intro e h
  cases h

theorem rejects_error {e : Error} (h : P e) : Rejects P (.error e : Except Error α) := by
  intro e' he
  cases he
  exact h

theorem Rejects.bind {x : Except Error α} {f : α → Except Error β} (hx : Rejects P x)
    (hf : ∀ a, Rejects P (f a)) : Rejects P (x.bind f) := by
  cases x with
  | ok a => exact hf a
  | error e => exact rejects_error (hx e rfl)

theorem Rejects.map {x : Except Error α} (hx : Rejects P x) (f : α → β) : Rejects P (f <$> x) := by
  cases x with
  | ok a => exact rejects_ok (f a)
  | error e => exact rejects_error (hx e rfl)

theorem Rejects.mono {x : Except Error α} (hx : Rejects P x) (h : ∀ e, P e → Q e) : Rejects Q x :=
  fun e he => h e (hx e he)

theorem Rejects.isSyntax {x : Except Error α} (hx : Rejects Error.Unplaced x) : Rejects (·.isSyntax) x :=
  hx.mono fun _ he => he.1

end

/-! ## Tokens and expressions -/

theorem rejects_scan (c : Char) (cs : List Char) : Rejects Error.Unplaced (scan c cs) := by
  unfold scan
  split
  case h_16 =>
    dsimp only
    split
    · exact rejects_ok _
    · exact rejects_error ⟨rfl, rfl⟩
  case h_17 =>
    split
    · exact rejects_ok _
    · split <;> exact rejects_ok _
  all_goals exact rejects_ok _

theorem rejects_lex (cs : List Char) : Rejects Error.Unplaced (lex cs) := by
  fun_induction lex cs with
  | case1 => exact rejects_ok _
  | case2 c cs e he => exact rejects_error (rejects_scan c cs e he)
  | case3 c cs t rest _ ih => exact ih.map _

namespace Expression

theorem rejects_stray (t : Token) (brackets : List Bracket) :
    Rejects Error.Unplaced (check.stray t brackets) := by
  cases brackets <;> exact rejects_error ⟨rfl, rfl⟩

theorem rejects_check (due : Due) (brackets : List Bracket) (seen ts : List Token) :
    Rejects Error.Unplaced (check due brackets seen ts) := by
  fun_induction check due brackets seen ts with
  | case1 => exact rejects_ok _
  | case4 | case5 | case6 | case9 | case11 | case12 | case13 | case14 => assumption
  | case7 | case8 => exact rejects_stray _ _
  | case2 | case3 | case10 | case15 | case16 | case17 => exact rejects_error ⟨rfl, rfl⟩

theorem rejects_parse (ts : List Token) : Rejects Error.Unplaced (parse ts) := by
  unfold parse
  split
  · exact rejects_error ⟨rfl, rfl⟩
  · exact (rejects_check .signed [] [] ts).map _

theorem rejects_read (ts : List Token) : Rejects Error.Unplaced (read ts) :=
  (rejects_parse _).bind (fun _ => rejects_ok _)

end Expression

/-! ## Statements -/

namespace Reading

variable {α β : Type}

/-- The reader is stuck only at an error of syntax. -/
def Refuses (r : Reading α) : Prop :=
  ∀ e rest, r = .stuck e rest → e.isSyntax = true

theorem refuses_done (a : α) (rest : List Token) : Refuses (.done a rest) := by
  intro e rest' h
  cases h

theorem refuses_stuck {e : Error} (h : e.isSyntax = true) (rest : List Token) :
    Refuses (.stuck e rest : Reading α) := by
  intro e' rest' he
  cases he
  exact h

theorem refuses_fail {c : Error.Cause} (h : c.error.isSyntax = true) (rest : List Token) :
    Refuses (.fail c rest : Reading α) :=
  refuses_stuck h rest

theorem Refuses.map {r : Reading α} (hr : r.Refuses) (f : α → β) : (r.map f).Refuses := by
  cases r with
  | done a rest => exact refuses_done _ _
  | stuck e rest => exact refuses_stuck (hr e rest rfl) rest

theorem Refuses.bind {r : Reading α} {f : α → List Token → Reading β} (hr : r.Refuses)
    (hf : ∀ a rest, (f a rest).Refuses) : (r.bind f).Refuses := by
  cases r with
  | done a rest => exact hf a rest
  | stuck e rest => exact refuses_stuck (hr e rest rfl) rest

theorem refuses_ofExcept {ts : List Token} {x : Except Error (α × List Token)}
    (h : Rejects (·.isSyntax) x) : (ofExcept ts x).Refuses := by
  cases x with
  | ok a => exact refuses_done _ _
  | error e => exact refuses_stuck (h e rfl) ts

end Reading

namespace Statement

open Reading

theorem refuses_readExpression (ts : List Token) : (readExpression ts).Refuses :=
  refuses_ofExcept (Expression.rejects_read ts).isSyntax

theorem refuses_readVariable (ts : List Token) : (readVariable ts).Refuses := by
  unfold readVariable
  split
  · exact refuses_fail rfl _
  · split
    · exact refuses_done _ _
    · split <;> exact refuses_fail rfl _

theorem refuses_readItem (ts : List Token) : (readItem ts).Refuses := by
  unfold readItem
  split
  · exact refuses_done _ _
  · exact refuses_readExpression _

theorem refuses_readItems (ts : List Token) : (readItems ts).Refuses := by
  fun_induction readItems ts with
  | case1 ts e rest h => exact refuses_stuck (refuses_readItem ts e rest h) rest
  | case2 ts t rest _ ih => exact ih.map _
  | case3 => exact refuses_done _ _

theorem refuses_readVariables (ts : List Token) : (readVariables ts).Refuses := by
  fun_induction readVariables ts with
  | case1 t ts ih => exact (refuses_readVariable _).bind (fun _ _ => ih.map _)
  | case2 ts => exact (refuses_readVariable ts).map _

theorem refuses_readAssignment (ts : List Token) : (readAssignment ts).Refuses := by
  refine (refuses_readVariable ts).bind (fun v rest => ?_)
  split
  · exact (refuses_readExpression _).map _
  · exact refuses_fail rfl _

theorem refuses_readRelation (ts : List Token) : (readRelation ts).Refuses := by
  unfold readRelation
  split
  · split
    · exact refuses_done _ _
    · exact refuses_fail rfl _
  · exact refuses_fail rfl _

theorem refuses_readThen (ts : List Token) : (readThen ts).Refuses := by
  unfold readThen
  split
  · split
    · exact refuses_done _ _
    · exact refuses_fail rfl _
  · exact refuses_fail rfl _

theorem refuses_readCondition (ts : List Token) : (readCondition ts).Refuses := by
  refine (refuses_readExpression ts).bind (fun a ts => ?_)
  refine (refuses_readRelation ts).bind (fun o ts => ?_)
  exact (refuses_readExpression ts).bind (fun b ts => (refuses_readThen ts).map _)

theorem refuses_readArgs (k : Keyword) (ts : List Token) : (readArgs k ts).Refuses := by
  cases k with
  | print => exact refuses_readItems ts
  | assign => exact refuses_readAssignment ts
  | input => exact refuses_readVariables ts
  | goto | gosub => exact (refuses_readExpression ts).map _
  | remark | cond | ret | clear | list | run | stop | blank => exact refuses_done _ _

theorem refuses_read (ts : List Token) : (read ts).Refuses := by
  fun_induction read ts with
  | case3 w ts _ e rest h => exact refuses_stuck (refuses_readCondition ts e rest h) rest
  | case4 w ts _ a o b rest _ ih => exact ih.map _
  | case5 w ts k => exact (refuses_readArgs k ts).map _
  | case1 | case2 | case6 => exact refuses_fail rfl _

theorem refuses_readLabel (ts : List Token) : (readLabel ts).Refuses := by
  unfold readLabel
  split
  · split
    · exact refuses_done _ _
    · exact refuses_fail rfl _
  · exact refuses_done _ _

theorem refuses_readBody (ts : List Token) : (readBody ts).Refuses := by
  unfold readBody
  split
  · exact refuses_done _ _
  · exact refuses_done _ _
  · exact refuses_read _

theorem refuses_readEnd (ts : List Token) : (readEnd ts).Refuses := by
  unfold readEnd
  split
  · exact refuses_done _ _
  · exact refuses_done _ _
  · exact refuses_fail rfl _

theorem refuses_readLine (ts : List Token) : (readLine ts).Refuses := by
  unfold readLine
  split
  · next e rest h =>
    refine refuses_stuck ?_ rest
    exact (refuses_readLabel ts e rest h : e.isSyntax = true)
  · next l body _ =>
    split
    · next e rest h =>
      have hbody := (refuses_readBody body).bind (fun s rest => (refuses_readEnd rest).map _) e rest h
      refine refuses_stuck ?_ rest
      exact (hbody : e.isSyntax = true)
    · exact refuses_done _ _

/-- A line of text is refused for its syntax only. -/
theorem rejects_parse (text : String) : Rejects (·.isSyntax) (parse text) := by
  unfold parse
  dsimp only
  refine (rejects_lex _).isSyntax.bind (fun ts => ?_)
  split
  · next e rest h => exact rejects_error (refuses_readLine ts e rest h)
  · exact rejects_error rfl
  · split <;> exact rejects_ok _

end Statement

/-! ## Files -/

namespace Program

theorem rejects_addText (last : Label) (p : Program) (text : List Char) :
    Rejects (·.isSyntax) (addText last p text) := by
  unfold addText
  refine Rejects.bind ?_ (fun s => ?_)
  · have hparse := Statement.rejects_parse (String.ofList text)
    cases hs : Statement.parse (String.ofList text) with
    | ok s => exact rejects_ok s
    | error e =>
      have he : e.isSyntax = true := hparse e hs
      exact rejects_error he
  · split
    · exact rejects_ok _
    · split
      · exact rejects_ok _
      · split
        · exact rejects_error rfl
        · exact rejects_ok _

/-- A file is refused for its syntax only. -/
theorem rejects_ofSource (source : String) : Rejects (·.isSyntax) (ofSource source) := by
  have hfold (texts : List (List Char)) (r : Label × Program) :
      Rejects (·.isSyntax) (texts.foldlM (fun r text => addText r.1 r.2 text) r) := by
    induction texts generalizing r with
    | nil => exact rejects_ok r
    | cons text texts ih => exact (rejects_addText r.1 r.2 text).bind ih
  exact (hfold _ _).bind (fun _ => rejects_ok _)

end Program

end LineBasic
