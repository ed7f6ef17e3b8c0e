import LineBasic.Proofs.Expression.Tree

/-!
# The parser of expressions and its grammar

`Derives` is the grammar of expressions over tokens of any kind. The parser accepts exactly what derives
from it, keeps every token in its place, gathers every call into one token, and says of everything else
whether it was empty, had a token too many or too few, or a name that is none (`parse_derives`).
-/
namespace LineBasic

/-! ## Calls expanded -/

mutual

/-- The tokens that the parser has read to make this one. -/
def Token.expand : Token → List Token
  | .call f args => .word f.name :: .lparen :: (Token.expandAll args ++ [.rparen])
  | .expression ts => Token.expandAll ts
  | t => [t]

def Token.expandAll : List Token → List Token
  | [] => []
  | t :: ts => t.expand ++ Token.expandAll ts

end

mutual

/-- At no depth is there a name of a function outside of its call. -/
def Token.isGathered : Token → Bool
  | .word w => (Function.ofName? w).isNone
  | .call _ args => Token.allGathered args
  | .expression ts => Token.allGathered ts
  | _ => true

def Token.allGathered : List Token → Bool
  | [] => true
  | t :: ts => t.isGathered && Token.allGathered ts

end

theorem Token.expandAll_append (ts us : List Token) :
    Token.expandAll (ts ++ us) = Token.expandAll ts ++ Token.expandAll us := by
  induction ts with
  | nil => rfl
  | cons t ts ih => simp [Token.expandAll, ih]

theorem Token.allGathered_append (ts us : List Token) :
    Token.allGathered (ts ++ us) = (Token.allGathered ts && Token.allGathered us) := by
  induction ts with
  | nil => rfl
  | cons t ts ih => simp [Token.allGathered, ih, Bool.and_assoc]

theorem Function.ofName?_of_varName? {w : String} (h : (varName? w).isSome = true) :
    Function.ofName? w = none := by
  cases hf : Function.ofName? w with
  | none => rfl
  | some f =>
    rw [Function.name_of_ofName? hf] at h
    cases f
    cases h

namespace Expression

/-- What is kept of the tokens expands to them again. -/
theorem Completes.expandAll {due : Due} {ts out : List Token} (h : Completes due ts out) :
    Token.expandAll out = ts := by
  induction h with
  | done => rfl
  | unsigned _ ih => exact ih
  | binary _ _ ih | number _ ih | name _ _ ih | sign _ _ ih => simp [Token.expandAll, Token.expand, ih]
  | group _ _ ihe ih | call _ _ ihe ih =>
    simp [Token.expandAll, Token.expandAll_append, Token.expand, ihe, ih]

theorem Completes.allGathered {due : Due} {ts out : List Token} (h : Completes due ts out) :
    Token.allGathered out = true := by
  induction h with
  | done => rfl
  | unsigned _ ih => exact ih
  | name hw _ ih => simp [Token.allGathered, Token.isGathered, Function.ofName?_of_varName? hw, ih]
  | binary _ _ ih | number _ ih | sign _ _ ih => simp [Token.allGathered, Token.isGathered, ih]
  | group _ _ ihe ih | call _ _ ihe ih =>
    simp [Token.allGathered, Token.allGathered_append, Token.isGathered, ihe, ih]

/-! ## The grammar -/

inductive Symbol where
  | expression
  | term
  | factor

/-- Operands one after the other, each behind its operator. -/
def chain {α : Type} (operator : α → Operator) (rest : List (α × List Token)) : List Token :=
  rest.flatMap fun p => .op (operator p.1) :: p.2

inductive Derives : Symbol → List Token → Prop
  | expression {ts : List Token} (signs : List Sign) (rest : List (Sign × List Token)) :
      Derives .term ts → (∀ p ∈ rest, Derives .term p.2) →
      Derives .expression (signTokens signs ++ ts ++ chain Sign.operator rest)
  | term {ts : List Token} (rest : List (Scaling × List Token)) :
      Derives .factor ts → (∀ p ∈ rest, Derives .factor p.2) →
      Derives .term (ts ++ chain Scaling.operator rest)
  | number (digits : String) : Derives .factor [.number digits]
  | letter (v : Letter) : Derives .factor [.word (String.singleton v.1)]
  | call {ts : List Token} (f : Function) :
      Derives .expression ts → Derives .factor (.word f.name :: .lparen :: (ts ++ [.rparen]))
  | group {ts : List Token} :
      Derives .expression ts → Derives .factor (.lparen :: (ts ++ [.rparen]))

theorem chain_cons {α : Type} (operator : α → Operator) (a : α) (ts : List Token)
    (rest : List (α × List Token)) :
    chain operator ((a, ts) :: rest) = .op (operator a) :: (ts ++ chain operator rest) :=
  rfl

/-! ## The parser accepts nothing else -/

theorem Derives.scale {ts us : List Token} (h : Derives .factor ts) (o : Scaling) (hu : Derives .term us) :
    Derives .term (ts ++ .op o.operator :: us) := by
  cases hu with
  | @term vs rest hv hrest =>
    exact .term ((o, vs) :: rest) h (List.forall_mem_cons.2 ⟨hv, hrest⟩)

theorem Derives.term_of_factor {ts : List Token} (h : Derives .factor ts) : Derives .term ts := by
  simpa [chain] using Derives.term [] h (by simp)

/-- A factor and further ones behind operators of both kinds. -/
def Factors (ts : List Token) : Prop :=
  ∃ us rest, ts = us ++ chain id rest ∧ Derives .factor us ∧
    ∀ p ∈ rest, p.1.isArithmetic = true ∧ Derives .factor p.2

/-- The factors between two signs make a term. -/
theorem Factors.terms {ts : List Token} (h : Factors ts) :
    ∃ us rest, ts = us ++ chain Sign.operator rest ∧ Derives .term us ∧
      ∀ p ∈ rest, Derives .term p.2 := by
  obtain ⟨us, rest, rfl, hu, hrest⟩ := h
  induction rest generalizing us with
  | nil => exact ⟨us, [], rfl, hu.term_of_factor, by simp⟩
  | cons p rest ih =>
    obtain ⟨o, vs⟩ := p
    obtain ⟨⟨ho, hv⟩, hrest⟩ := List.forall_mem_cons.1 hrest
    obtain ⟨ws, more, heq, hw, hmore⟩ := ih vs hv hrest
    rw [chain_cons, heq]
    rcases exists_sign_or_scaling ho with ⟨p, rfl⟩ | ⟨p, rfl⟩
    · exact ⟨us, (p, ws) :: more, rfl, hu.term_of_factor, List.forall_mem_cons.2 ⟨hw, hmore⟩⟩
    · exact ⟨us ++ .op p.operator :: ws, more, by simp, hu.scale p hw, hmore⟩

theorem Factors.derives {ts : List Token} (h : Factors ts) (signs : List Sign) :
    Derives .expression (signTokens signs ++ ts) := by
  obtain ⟨us, rest, rfl, hu, hrest⟩ := h.terms
  simpa using Derives.expression signs rest hu hrest

/-- What the tokens have to be when `due` is due. -/
def Continues : Due → List Token → Prop
  | .signed, ts => ∃ signs us, ts = signTokens signs ++ us ∧ Factors us
  | .operand, ts => Factors ts
  | .operator, ts => ∃ rest, ts = chain id rest ∧ ∀ p ∈ rest, p.1.isArithmetic = true ∧ Derives .factor p.2

theorem Derives.factors {us ts : List Token} (h : Derives .factor us) (ht : Continues .operator ts) :
    Factors (us ++ ts) := by
  obtain ⟨rest, rfl, hrest⟩ := ht
  exact ⟨us, rest, rfl, h, hrest⟩

theorem Continues.derives {ts : List Token} (h : Continues .signed ts) : Derives .expression ts := by
  obtain ⟨signs, us, rfl, hu⟩ := h
  exact hu.derives signs

theorem Completes.continues {due : Due} {ts out : List Token} (h : Completes due ts out) :
    Continues due ts := by
  induction h with
  | done => exact ⟨[], rfl, by simp⟩
  | @binary o ts out ho _ ih =>
    obtain ⟨us, rest, rfl, hu, hrest⟩ := ih
    exact ⟨(o, us) :: rest, rfl, List.forall_mem_cons.2 ⟨⟨ho, hu⟩, hrest⟩⟩
  | number _ ih => exact (Derives.number _).factors ih
  | name hw _ ih =>
    obtain ⟨c, hc⟩ := Option.isSome_iff_exists.1 hw
    obtain ⟨rfl, hu⟩ := varName?_eq_some hc
    exact (Derives.letter ⟨c, hu⟩).factors ih
  | group _ _ ihe ih => simpa [Continues] using (Derives.group ihe.derives).factors ih
  | @call f _ _ _ _ _ _ ihe ih => simpa [Continues] using (Derives.call f ihe.derives).factors ih
  | @sign o ts out ho _ ih =>
    obtain ⟨p, rfl⟩ := exists_sign ho
    obtain ⟨signs, us, rfl, hu⟩ := ih
    exact ⟨p :: signs, us, rfl, hu⟩
  | unsigned _ ih => exact ⟨[], _, rfl, ih⟩

/-! ## The parser accepts all of it -/

/-- What is due where a symbol may stand. -/
def Symbol.due : Symbol → Due
  | .expression => .signed
  | .term | .factor => .operand

/-- Whatever may follow an operand may follow these tokens, which stand where `due` is due. -/
def Reads (due : Due) (ts : List Token) : Prop :=
  ∀ us ps, Completes .operator us ps → ∃ out, Completes due (ts ++ us) out

theorem reads_chain {α : Type} {operator : α → Operator} (ho : ∀ a, (operator a).isArithmetic = true)
    {rest : List (α × List Token)} (h : ∀ p ∈ rest, Reads .operand p.2) :
    Reads .operator (chain operator rest) := by
  induction rest with
  | nil => exact fun us ps hu => ⟨ps, hu⟩
  | cons p rest ih =>
    obtain ⟨a, ts⟩ := p
    obtain ⟨hts, hrest⟩ := List.forall_mem_cons.1 h
    intro us ps hu
    obtain ⟨out, hout⟩ := ih hrest us ps hu
    obtain ⟨out', hout'⟩ := hts _ out hout
    refine ⟨.op (operator a) :: out', ?_⟩
    rw [chain_cons, List.cons_append, List.append_assoc]
    exact .binary (ho a) hout'

theorem Reads.append_chain {α : Type} {operator : α → Operator} (ho : ∀ a, (operator a).isArithmetic = true)
    {ts : List Token} {rest : List (α × List Token)} (h : Reads .operand ts)
    (hrest : ∀ p ∈ rest, Reads .operand p.2) : Reads .operand (ts ++ chain operator rest) := by
  intro us ps hu
  obtain ⟨out, hout⟩ := reads_chain ho hrest us ps hu
  rw [List.append_assoc]
  exact h _ out hout

theorem Derives.reads {symbol : Symbol} {ts : List Token} (h : Derives symbol ts) : Reads symbol.due ts := by
  induction h with
  | @expression ts signs rest _ _ ih ihrest =>
    intro us ps hu
    obtain ⟨out, hout⟩ := Reads.append_chain Sign.isArithmetic_operator ih ihrest us ps hu
    refine ⟨signTokens signs ++ out, ?_⟩
    rw [List.append_assoc, List.append_assoc, ← List.append_assoc ts]
    exact (Completes.unsigned hout).withSigns signs
  | term rest _ _ ih ihrest => exact Reads.append_chain Scaling.isArithmetic_operator ih ihrest
  | number digits => exact fun us ps hu => ⟨_, .number hu⟩
  | letter v => exact fun us ps hu => ⟨_, .name (by simp [varName?_singleton v.2]) hu⟩
  | call f _ ih =>
    intro us ps hu
    obtain ⟨out, hout⟩ := ih [] [] .done
    rw [List.append_nil] at hout
    exact ⟨_, by simpa [Symbol.due] using Completes.call (f := f) hout hu⟩
  | group _ ih =>
    intro us ps hu
    obtain ⟨out, hout⟩ := ih [] [] .done
    rw [List.append_nil] at hout
    exact ⟨_, by simpa [Symbol.due] using Completes.group hout hu⟩

/-! ## Errors -/

theorem code_of_check {due : Due} {brackets : List Bracket} {seen ts : List Token} {e : Error}
    (h : check due brackets seen ts = .error e) : e.code = .unexpectedToken ∨ e.code = .invalidVariable := by
  fun_induction check due brackets seen ts with
  | case1 => cases h
  | case4 _ _ _ ih | case5 _ _ _ _ _ ih | case6 _ _ _ _ _ ih | case9 _ _ _ _ _ _ _ ih
  | case11 _ _ _ _ _ _ ih | case12 _ _ _ _ _ ih | case13 _ _ _ _ _ _ _ ih
  | case14 _ _ _ _ _ _ _ _ _ ih => exact ih h
  | case7 | case8 =>
    unfold check.stray at h
    split at h <;> cases h <;> exact .inl rfl
  | case16 =>
    cases h
    exact .inr rfl
  | case2 | case3 | case10 | case15 | case17 =>
    cases h
    exact .inl rfl

/-- The parser accepts exactly the tokens that derive from the grammar. What it makes of them has every
call gathered and expands to them again. No tokens at all are an empty expression, and all others that it
rejects have an unexpected token or an invalid variable. -/
theorem parse_derives (ts : List Token) :
    ((∃ e, parse ts = .ok e) ↔ Derives .expression ts) ∧
      (∀ e, parse ts = .ok e → ∃ out, e = .expression out ∧ Token.expandAll out = ts ∧
        Token.allGathered out = true) ∧
      ∀ err, parse ts = .error err →
        (ts = [] ∧ err.code = .emptyExpression) ∨
          ts ≠ [] ∧ (err.code = .unexpectedToken ∨ err.code = .invalidVariable) := by
  refine ⟨⟨?_, ?_⟩, ?_, ?_⟩
  · rintro ⟨e, he⟩
    obtain ⟨ps, hc, -⟩ := completes_of_parse he
    exact hc.continues.derives
  · intro h
    obtain ⟨out, hout⟩ := h.reads [] [] .done
    rw [List.append_nil] at hout
    exact ⟨_, parse_of_completes hout⟩
  · intro e he
    obtain ⟨ps, hc, rfl⟩ := completes_of_parse he
    exact ⟨ps, rfl, hc.expandAll, hc.allGathered⟩
  · intro err he
    cases ts with
    | nil =>
      cases he
      exact .inl ⟨rfl, rfl⟩
    | cons t ts =>
      refine .inr ⟨by simp, ?_⟩
      change Token.expression <$> check .signed [] [] (t :: ts) = _ at he
      cases hc : check .signed [] [] (t :: ts) with
      | ok out =>
        rw [hc] at he
        cases he
      | error e =>
        rw [hc] at he
        cases he
        exact code_of_check hc

end Expression

end LineBasic
