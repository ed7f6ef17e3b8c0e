import LineBasic.Expression.Evaluator
import LineBasic.Proofs.Equality
import LineBasic.Proofs.Expression.Tree
import LineBasic.Proofs.Outcome
import Mathlib.Data.Nat.Digits.Defs

/-!
# The meaning of an expression

`Tree.value` says what a syntax tree means: operands are evaluated from left to right, results are
exact integers brought back to 16 bits, and the first error ends the evaluation. The evaluator walks
over the flat tokens instead, with the sum and the product under way on a stack of levels. It computes
the same (`Tree.evaluate_flat`).
-/
namespace LineBasic

theorem Memory.cell?_of_isUpper {c : Char} (h : c.isUpper = true) : ∃ i, cell? c = some i := by
  obtain ⟨h1, h2⟩ : 65 ≤ c.toNat ∧ c.toNat ≤ 90 := of_decide_eq_true h
  simp [cell?, h1, h2]

theorem Memory.read_eq_error {memory : Memory} {c : Char} {e : Error} (hc : c.isUpper = true)
    (h : memory.read c = .error e) : e = (Error.Cause.unset c.toString).error := by
  obtain ⟨i, hi⟩ := cell?_of_isUpper hc
  unfold read at h
  rw [hi] at h
  dsimp only at h
  split at h
  · cases h
    rfl
  · cases h

namespace Expression

/-! ## What a tree means -/

/-- The number that the digits spell in base ten. -/
def natValue (n : Numeral) : Nat :=
  Nat.ofDigits 10 (n.1.toList.reverse.map Text.digit)

def Sign.apply : Sign → Int16 → Int16
  | plus, v => v
  | minus, v => .ofInt (-v.toInt)

def Sign.combine : Sign → Int16 → Int16 → Int16
  | plus, a, b => .ofInt (a.toInt + b.toInt)
  | minus, a, b => .ofInt (a.toInt - b.toInt)

/-- A quotient goes toward zero. -/
def Scaling.combine : Scaling → Int16 → Int16 → Except Error Int16
  | times, a, b => .ok (.ofInt (a.toInt * b.toInt))
  | divide, a, b =>
    if b = 0 then .error Error.Cause.zeroDivisor.error else .ok (.ofInt (a.toInt.tdiv b.toInt))

mutual

def Tree.value (memory : Memory) : Tree → EvalM Int16
  | .signed signs t => do
    let v ← t.value memory
    return signs.foldr Sign.apply v
  | .sum e o t => do
    let a ← e.value memory
    let b ← t.value memory
    return o.combine a b

def Term.value (memory : Memory) : Term → EvalM Int16
  | .factor f => f.value memory
  | .product t o f => do
    let a ← t.value memory
    let b ← f.value memory
    liftExcept (o.combine a b)

def Factor.value (memory : Memory) : Factor → EvalM Int16
  | .number n => return .ofNat (natValue n)
  | .letter v => liftExcept (memory.read v.1)
  | .call .rnd e => do
    let n ← e.value memory
    if n.toInt < 1 then throw (Error.Cause.callRange "RND" (toString n.toInt)).error
    else modifyGet (Random.draw n)
  | .group e => e.value memory

end

/-- The codes of the errors that an evaluation may meet. -/
def errorCodes : List Error.Code :=
  [.uninitializedVariable, .divisionByZero, .illegalFunctionCall]

theorem Scaling.combine_eq_error {o : Scaling} {a b : Int16} {e : Error}
    (h : o.combine a b = .error e) : e = Error.Cause.zeroDivisor.error := by
  cases o with
  | times => cases h
  | divide =>
    rw [combine] at h
    split at h <;> cases h
    rfl

mutual

theorem Tree.fails_value (memory : Memory) (e : Tree) :
    Fails (Error.Marked errorCodes none) (e.value memory) := by
  match e with
  | .signed signs t => exact (t.fails_value memory).bind (fun _ => .pure _)
  | .sum e o t =>
    exact (e.fails_value memory).bind (fun _ => (t.fails_value memory).bind (fun _ => .pure _))

theorem Term.fails_value (memory : Memory) (t : Term) :
    Fails (Error.Marked errorCodes none) (t.value memory) := by
  match t with
  | .factor f => exact f.fails_value memory
  | .product t o f =>
    refine (t.fails_value memory).bind (fun a => (f.fails_value memory).bind (fun b => ?_))
    refine .liftExcept (fun e he => ?_)
    rw [Scaling.combine_eq_error he]
    exact Error.Cause.marked (by decide)

theorem Factor.fails_value (memory : Memory) (f : Factor) :
    Fails (Error.Marked errorCodes none) (f.value memory) := by
  match f with
  | .number n => exact .pure _
  | .letter v =>
    refine .liftExcept (fun e he => ?_)
    rw [Memory.read_eq_error v.2 he]
    exact Error.Cause.marked (by simp [errorCodes, Error.Cause.code])
  | .group e => exact e.fails_value memory
  | .call .rnd e =>
    refine (e.fails_value memory).bind (fun n => ?_)
    split
    · exact .throw (Error.Cause.marked (by simp [errorCodes, Error.Cause.code]))
    · exact .modifyGet _

end

theorem Tree.raises_value (memory : Memory) (e : Tree) : Raises errorCodes (e.value memory) :=
  (e.fails_value memory).mono (fun _ he => he.1)

/-- A call of `RND` with a positive argument draws a number from one up to the argument. -/
theorem Factor.value_rnd {memory : Memory} {x : Tree} {g g' : Random.Generator} {n : Int16}
    (h : x.value memory g = .ok n g') (hn : 1 ≤ n.toInt) :
    ∃ v g'', (Factor.call .rnd x).value memory g = .ok v g'' ∧ 1 ≤ v.toInt ∧ v.toInt ≤ n.toInt := by
  refine ⟨(Random.draw n g').1, (Random.draw n g').2, ?_, Random.draw_mem hn g'⟩
  have hcall : (Factor.call .rnd x).value memory g =
      (if n.toInt < 1 then throw (Error.Cause.callRange "RND" (toString n.toInt)).error
        else modifyGet (Random.draw n) : EvalM Int16) g' := by
    rw [Factor.value]
    exact bind_of_ok h
  rw [hcall, if_neg (Int.not_lt.2 hn)]
  rfl

/-! ## Words of 16 bits -/

theorem Sign.combine_eq (o : Sign) (a b : Int16) :
    o.combine a b = if o = .minus then a - b else a + b := by
  cases o with
  | plus => simp [combine, Int16.ofInt_add]
  | minus => simp [combine, Int16.ofInt_sub]

theorem Sign.apply_eq (o : Sign) (v : Int16) : o.apply v = if o = .minus then -v else v := by
  cases o with
  | plus => rfl
  | minus => simp [apply, Int16.ofInt_neg]

theorem ofInt_tdiv_toInt (a b : Int16) : Int16.ofInt (a.toInt.tdiv b.toInt) = a / b := by
  rw [Int16.ofInt_tdiv (Int16.minValue_le_toInt a) (Int16.toInt_le a) (Int16.minValue_le_toInt b)
    (Int16.toInt_le b), Int16.ofInt_toInt, Int16.ofInt_toInt]

/-- The value of a numeral is found from its first digit on. -/
theorem natValue_eq_foldl (n : Numeral) :
    natValue n = n.1.toList.foldl (fun v c => 10 * v + Text.digit c) 0 := by
  rw [natValue, Nat.ofDigits_eq_foldr, List.foldr_map, List.foldr_reverse]
  simp only [Nat.cast_id, Nat.add_comm]

/-- Reading digits modulo `2 ^ 16` gives the number they spell, modulo `2 ^ 16`. -/
theorem numeral_eq (n : Numeral) : numeral n.1 = .ok (.ofNat (natValue n)) := by
  have hdigits : n.1.toList.all Char.isDigit = true := List.all_eq_true.2 n.2.2
  rw [numeral, if_pos hdigits, natValue_eq_foldl]
  have hstep (v : Nat) (c : Char) :
      Int16.ofNat v * 10 + Int16.ofNat (Text.digit c) = Int16.ofNat (10 * v + Text.digit c) := by
    rw [Int16.ofNat_add, Int16.ofNat_mul, Int16.mul_comm]
    rfl
  exact congrArg _ (List.foldl_hom Int16.ofNat hstep)

theorem lookup_letter (memory : Memory) (v : Letter) :
    lookup memory (String.singleton v.1) = memory.read v.1 := by
  rw [lookup, varName?_singleton v.2]

/-! ## The walk over the flat tokens -/

/-- Evaluates a term up to its last factor. What is left to do is to multiply or to divide by it. -/
def Term.approach (memory : Memory) : Term → EvalM (Option (Int16 × Bool) × Int16)
  | .factor f => do return (none, ← f.value memory)
  | .product t o f => do
    let (p, v) ← t.approach memory
    let a ← liftExcept (({ product := p } : Level).term v)
    return (some (a, o = .divide), ← f.value memory)

/-- Whether an odd number of the signs are minus. -/
def isNegative (signs : List Sign) : Bool :=
  signs.foldr (fun o b => b ^^ o = .minus) false

/-- Evaluates an expression up to its last factor. -/
def Tree.approach (memory : Memory) : Tree → EvalM (Level × Int16)
  | .signed signs t => do
    let (p, v) ← t.approach memory
    return ({ minus := isNegative signs, product := p }, v)
  | .sum e o t => do
    let (l, v) ← e.approach memory
    let a ← liftExcept (l.term v)
    let (p, w) ← t.approach memory
    return ({ sum := l.total a, minus := o = .minus, product := p }, w)

theorem liftExcept_ok {α : Type} (a : α) : (liftExcept (.ok a : Except Error α) : EvalM α) = pure a :=
  rfl

theorem Scaling.term_eq (o : Scaling) (a b : Int16) :
    ({ product := some (a, o = .divide) } : Level).term b = o.combine a b := by
  cases o with
  | times => simp [Level.term, combine, Int16.ofInt_mul]
  | divide => simp [Level.term, combine, ofInt_tdiv_toInt]

theorem Term.value_eq (memory : Memory) (t : Term) :
    t.value memory = (do
      let (p, v) ← t.approach memory
      liftExcept (({ product := p } : Level).term v)) := by
  match t with
  | .factor f => simp [Term.value, Term.approach, Level.term, liftExcept_ok]
  | .product t o f =>
    simp [Term.value, Term.approach, t.value_eq memory, Scaling.term_eq]

theorem Level.total_isNegative (signs : List Sign) (p : Option (Int16 × Bool)) (a : Int16) :
    ({ minus := isNegative signs, product := p } : Level).total a = signs.foldr Sign.apply a := by
  induction signs with
  | nil => simp [isNegative, Level.total]
  | cons o signs ih =>
    rw [List.foldr_cons, ← ih, Sign.apply_eq]
    cases o <;> cases h : isNegative signs <;> simp_all [isNegative, Level.total]

theorem Level.total_sum (s : Int16) (o : Sign) (p : Option (Int16 × Bool)) (a : Int16) :
    ({ sum := s, minus := o = .minus, product := p } : Level).total a = o.combine s a := by
  simp [Level.total, Sign.combine_eq]

theorem Tree.value_eq (memory : Memory) (e : Tree) :
    e.value memory = (do
      let (l, v) ← e.approach memory
      let a ← liftExcept (l.term v)
      return l.total a) := by
  match e with
  | .signed signs t =>
    simp only [Tree.value, Tree.approach, t.value_eq memory, bind_assoc, pure_bind,
      Level.total_isNegative]
    rfl
  | .sum e o t =>
    simp only [Tree.value, Tree.approach, t.value_eq memory, e.value_eq memory, bind_assoc, pure_bind,
      Level.total_sum]
    rfl

/-! ## The evaluator computes the meaning -/

theorem operand_signTokens (memory : Memory) (signs : List Sign) (b : Bool) (outer : List Level)
    (ts : List Token) :
    operand memory true { minus := b } outer (signTokens signs ++ ts) =
      operand memory true { minus := b ^^ isNegative signs } outer ts := by
  induction signs generalizing b with
  | nil => simp [signTokens, isNegative]
  | cons o signs ih =>
    cases o with
    | plus =>
      show operand memory true { minus := b } outer (.op .plus :: (signTokens signs ++ ts)) = _
      rw [operand, if_pos rfl, ih]
      simp [isNegative]
    | minus =>
      show operand memory true { minus := b } outer (.op .minus :: (signTokens signs ++ ts)) = _
      rw [operand, if_pos rfl, ih]
      simp [isNegative]

/-- An operator after an operand closes the term under way if it adds or subtracts. -/
theorem operator_sign (memory : Memory) (o : Sign) (v : Int16) (level : Level) (outer : List Level)
    (ts : List Token) :
    operator memory v level outer (.op o.operator :: ts) = (do
      let a ← liftExcept (level.term v)
      operand memory false { sum := level.total a, minus := o = .minus } outer ts) := by
  cases o <;> simp [Sign.operator, operator]

theorem operator_scaling (memory : Memory) (o : Scaling) (v : Int16) (level : Level)
    (outer : List Level) (ts : List Token) :
    operator memory v level outer (.op o.operator :: ts) = (do
      let a ← liftExcept (level.term v)
      operand memory false { level with product := some (a, o = .divide) } outer ts) := by
  cases o <;> simp [Scaling.operator, operator]

theorem liftExcept_map {α β : Type} (f : α → β) (x : Except Error α) :
    (liftExcept (f <$> x) : EvalM β) = (do
      let a ← liftExcept x
      return f a) := by
  cases x <;> rfl

/-- At the end of the tokens the last factor completes the expression. -/
theorem Tree.evaluate_of_operand {memory : Memory} {e : Tree}
    (h : operand memory true {} [] (e.flat ++ []) = (do
      let (l, v) ← e.approach memory
      operator memory v l [] [])) :
    evaluate memory (.expression e.flat) = e.value memory := by
  rw [List.append_nil] at h
  rw [evaluate, h, e.value_eq memory]
  simp only [operator, Level.closeAll, liftExcept_map]

theorem apply_rnd (n : Int16) :
    apply .rnd n =
      if n.toInt < 1 then throw (Error.Cause.callRange "RND" (toString n.toInt)).error
      else modifyGet (Random.draw n) := by
  simp only [apply, Int16.lt_iff_toInt_lt]
  rfl

-- The recursion is on the tree. `outer` are the levels around it and `rest` is what comes after it.
mutual

theorem Tree.operand_flat (memory : Memory) (e : Tree) (outer : List Level) (rest : List Token) :
    operand memory true {} outer (e.flat ++ rest) = (do
      let (l, v) ← e.approach memory
      operator memory v l outer rest) := by
  match e with
  | .signed signs t =>
    rw [Tree.flat, List.append_assoc, operand_signTokens, Bool.false_xor, t.operand_flat]
    simp only [Tree.approach, bind_assoc, pure_bind]
  | .sum e o t =>
    rw [Tree.flat, List.append_assoc, e.operand_flat]
    simp only [Tree.approach, bind_assoc, pure_bind, List.cons_append, operator_sign, t.operand_flat]

theorem Term.operand_flat (memory : Memory) (t : Term) (signs : Bool) (s : Int16) (b : Bool)
    (outer : List Level) (rest : List Token) :
    operand memory signs { sum := s, minus := b } outer (t.flat ++ rest) = (do
      let (p, v) ← t.approach memory
      operator memory v { sum := s, minus := b, product := p } outer rest) := by
  match t with
  | .factor f =>
    rw [Term.flat, f.operand_flat]
    simp only [Term.approach, bind_assoc, pure_bind]
  | .product t o f =>
    rw [Term.flat, List.append_assoc, t.operand_flat]
    simp only [Term.approach, bind_assoc, pure_bind, List.cons_append, operator_scaling, f.operand_flat]
    rfl

theorem Factor.operand_flat (memory : Memory) (f : Factor) (signs : Bool) (level : Level)
    (outer : List Level) (rest : List Token) :
    operand memory signs level outer (f.flat ++ rest) = (do
      let v ← f.value memory
      operator memory v level outer rest) := by
  match f with
  | .number n =>
    show operand memory signs level outer (.number n.1 :: rest) = _
    rw [operand, numeral_eq]
    rfl
  | .letter v =>
    show operand memory signs level outer (.word (String.singleton v.1) :: rest) = _
    rw [operand, lookup_letter]
    rfl
  | .group e =>
    show operand memory signs level outer (.lparen :: (e.flat ++ [.rparen] ++ rest)) = _
    rw [operand, List.append_assoc, e.operand_flat]
    simp only [List.singleton_append, operator, Factor.value, e.value_eq memory, bind_assoc, pure_bind]
  | .call .rnd e =>
    show operand memory signs level outer (.call .rnd [.expression e.flat] :: rest) = _
    rw [operand, invoke, Tree.evaluate_of_operand (e.operand_flat memory [] [])]
    simp only [Factor.value, bind_assoc, apply_rnd]

end

/-- The evaluator computes the meaning of the tree whose tokens it walks over. -/
theorem Tree.evaluate_flat (memory : Memory) (e : Tree) :
    evaluate memory (.expression e.flat) = e.value memory :=
  evaluate_of_operand (e.operand_flat memory [] [])

/-- The evaluator reads all of the tokens `ps`, and is then where an operator or the end is due:
with what it has found in them it goes on to whatever comes after them, inside any brackets. -/
def Consumes (memory : Memory) (ps : List Token) : Prop :=
  ∃ found : EvalM (Level × Int16), ∀ outer rest,
    operand memory true {} outer (ps ++ rest) = (do
      let (l, v) ← found
      operator memory v l outer rest)

/-- An expression that the parser accepts has exactly one syntax tree. Evaluating it gives the meaning
of the tree, reads all of its tokens, and can fail in three ways only. To call `RND` with a positive argument
means to draw a number from one up to the argument. -/
theorem evaluate_eq_value {text : List Char} {ts span : List Token} {t : Token}
    (hlex : lex text = .ok ts) (hspan : span <:+: ts) (hparse : parse span = .ok t) :
    ∃ e : Tree, (∀ e' : Tree, e'.tokens = span ↔ e' = e) ∧ t = .expression e.flat ∧
      ∀ memory : Memory, evaluate memory t = e.value memory ∧ Consumes memory e.flat ∧
        (∀ g err g', evaluate memory t g = .error err g' →
          err.code = .uninitializedVariable ∨ err.code = .divisionByZero ∨
            err.code = .illegalFunctionCall) ∧
        ∀ (x : Tree) g n g', x.value memory g = .ok n g' → 1 ≤ n.toInt →
          ∃ v g'', (Factor.call .rnd x).value memory g = .ok v g'' ∧ 1 ≤ v.toInt ∧ v.toInt ≤ n.toInt := by
  have hlexeme : ∀ u ∈ span, u.IsLexeme := fun u hu => isLexeme_of_lex hlex u (hspan.subset hu)
  obtain ⟨e, rfl, rfl⟩ := exists_tree_of_parse hlexeme hparse
  refine ⟨e, fun e' => Tree.tokens_injective.eq_iff, rfl, fun memory =>
    ⟨e.evaluate_flat memory, ?_, ?_, fun _ _ _ _ => Factor.value_rnd⟩⟩
  · exact ⟨e.approach memory, e.operand_flat memory⟩
  · intro g err g' h
    rw [e.evaluate_flat memory] at h
    simpa [errorCodes] using e.raises_value memory g err g' h

/-- The tokens of `-A*2+RND(3)/(B)`, and what the parser keeps of them. -/
def sampleTokens : List Token :=
  [.op .minus, .word "A", .op .times, .number "2", .op .plus, .word "RND", .lparen, .number "3",
    .rparen, .op .divide, .lparen, .word "B", .rparen]

def sampleExpression : Token :=
  .expression [.op .minus, .word "A", .op .times, .number "2", .op .plus,
    .call .rnd [.expression [.number "3"]], .op .divide, .lparen, .word "B", .rparen]

/-- The tree of `3`. -/
def sampleNumber : Tree :=
  have hlex : lex "3".toList = .ok [.number "3"] := by decide +kernel
  .signed [] (.factor (.number ⟨"3", isLexeme_of_lex hlex _ List.mem_cons_self⟩))

theorem evaluate_eq_value_sample :
    lex "-A*2+RND(3)/(B)".toList = .ok sampleTokens ∧ parse sampleTokens = .ok sampleExpression ∧
      ∃ e : Tree, e.tokens = sampleTokens ∧ ∀ memory : Memory,
        evaluate memory sampleExpression = e.value memory ∧
        ∀ g, ∃ v g', (Factor.call .rnd sampleNumber).value memory g = .ok v g' ∧ 1 ≤ v.toInt ∧ v.toInt ≤ 3 := by
  have hlex : lex "-A*2+RND(3)/(B)".toList = .ok sampleTokens := by decide +kernel
  have hparse : parse sampleTokens = .ok sampleExpression := by decide +kernel
  obtain ⟨e, he, -, hvalue⟩ := evaluate_eq_value hlex (List.infix_refl _) hparse
  refine ⟨hlex, hparse, e, (he e).2 rfl, fun memory => ⟨(hvalue memory).1, fun g => ?_⟩⟩
  obtain ⟨-, -, -, hrnd⟩ := hvalue memory
  exact hrnd sampleNumber g 3 g rfl (by decide)

end Expression

end LineBasic
