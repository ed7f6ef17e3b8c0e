import LineBasic.Proofs.Expression.Grammar
import LineBasic.Proofs.Lexeme
import Mathlib.Data.List.Basic

/-!
# Syntax trees of expressions

A `Tree` is a derivation in the grammar of expressions, with `*` and `/` below `+` and `-` and both
nested to the left. `Tree.tokens` is the text it derives, `Tree.flat` the form in which the parser
keeps it. The parser accepts the tokens of every tree (`Tree.parse_tokens`), of lexemes it accepts
nothing else (`exists_tree_of_parse`), and no two trees have the same tokens (`Tree.tokens_injective`).
-/
namespace LineBasic

theorem varName?_eq_some {w : String} {c : Char} (h : varName? w = some c) :
    w = String.singleton c ∧ c.isUpper = true := by
  unfold varName? at h
  split at h
  · next d hd =>
    split at h
    · next hu =>
      cases h
      refine ⟨?_, hu⟩
      rw [← String.toList_inj, hd, String.toList_singleton]
    · cases h
  · cases h

theorem varName?_singleton {c : Char} (h : c.isUpper = true) : varName? (String.singleton c) = some c := by
  simp [varName?, h]

namespace Expression

/-- `+` or `-`, before a term or between two. -/
inductive Sign where
  | plus
  | minus
deriving DecidableEq, Repr

/-- `*` or `/`, between two factors. -/
inductive Scaling where
  | times
  | divide
deriving DecidableEq, Repr

def Sign.operator : Sign → Operator
  | plus => .plus
  | minus => .minus

def Scaling.operator : Scaling → Operator
  | times => .times
  | divide => .divide

/-- A nonempty run of digits. -/
abbrev Numeral := { digits : String // (Token.number digits).IsLexeme }

/-- One of the letters `A` to `Z`. -/
abbrev Letter := { name : Char // name.isUpper = true }

mutual

inductive Tree where
  /-- A term with signs before it. -/
  | signed (signs : List Sign) (t : Term)
  /-- A sum or a difference. -/
  | sum (e : Tree) (o : Sign) (t : Term)

inductive Term where
  | factor (f : Factor)
  /-- A product or a quotient. -/
  | product (t : Term) (o : Scaling) (f : Factor)

inductive Factor where
  | number (n : Numeral)
  | letter (v : Letter)
  | call (f : Function) (e : Tree)
  | group (e : Tree)

end

def signTokens (signs : List Sign) : List Token :=
  signs.map (Token.op ·.operator)

mutual

def Tree.tokens : Tree → List Token
  | .signed signs t => signTokens signs ++ t.tokens
  | .sum e o t => e.tokens ++ .op o.operator :: t.tokens

def Term.tokens : Term → List Token
  | .factor f => f.tokens
  | .product t o f => t.tokens ++ .op o.operator :: f.tokens

def Factor.tokens : Factor → List Token
  | .number n => [.number n.1]
  | .letter v => [.word (String.singleton v.1)]
  | .call f e => .word f.name :: .lparen :: (e.tokens ++ [.rparen])
  | .group e => .lparen :: (e.tokens ++ [.rparen])

end

mutual

/-- The tokens with each call gathered into one. -/
def Tree.flat : Tree → List Token
  | .signed signs t => signTokens signs ++ t.flat
  | .sum e o t => e.flat ++ .op o.operator :: t.flat

def Term.flat : Term → List Token
  | .factor f => f.flat
  | .product t o f => t.flat ++ .op o.operator :: f.flat

def Factor.flat : Factor → List Token
  | .number n => [.number n.1]
  | .letter v => [.word (String.singleton v.1)]
  | .call f e => [.call f [.expression e.flat]]
  | .group e => .lparen :: (e.flat ++ [.rparen])

end

/-! ## The parser accepts every tree -/

theorem Sign.isAdditive_operator (o : Sign) : o.operator.isAdditive = true := by
  cases o <;> rfl

theorem Sign.isArithmetic_operator (o : Sign) : o.operator.isArithmetic = true := by
  cases o <;> rfl

theorem Scaling.isArithmetic_operator (o : Scaling) : o.operator.isArithmetic = true := by
  cases o <;> rfl

theorem Completes.withSigns {ts out : List Token} (h : Completes .signed ts out) (signs : List Sign) :
    Completes .signed (signTokens signs ++ ts) (signTokens signs ++ out) := by
  induction signs with
  | nil => exact h
  | cons o signs ih => exact .sign o.isAdditive_operator ih

-- The recursion is on the tree; what follows it, `ts`, has been read already.
mutual

theorem Tree.completes (e : Tree) {ts out : List Token} (h : Completes .operator ts out) :
    Completes .signed (e.tokens ++ ts) (e.flat ++ out) := by
  match e with
  | .signed signs t =>
    have ht := (Completes.unsigned (t.completes h)).withSigns signs
    simpa [Tree.tokens, Tree.flat] using ht
  | .sum e o t =>
    have he := e.completes (.binary o.isArithmetic_operator (t.completes h))
    simpa [Tree.tokens, Tree.flat] using he

theorem Term.completes (t : Term) {ts out : List Token} (h : Completes .operator ts out) :
    Completes .operand (t.tokens ++ ts) (t.flat ++ out) := by
  match t with
  | .factor f => exact f.completes h
  | .product t o f =>
    have ht := t.completes (.binary o.isArithmetic_operator (f.completes h))
    simpa [Term.tokens, Term.flat] using ht

theorem Factor.completes (f : Factor) {ts out : List Token} (h : Completes .operator ts out) :
    Completes .operand (f.tokens ++ ts) (f.flat ++ out) := by
  match f with
  | .number n => exact .number h
  | .letter v => exact .name (by simp [varName?_singleton v.2]) h
  | .call f e =>
    have he := e.completes .done
    simp only [List.append_nil] at he
    simpa [Factor.tokens, Factor.flat] using Completes.call (f := f) he h
  | .group e =>
    have he := e.completes .done
    simp only [List.append_nil] at he
    simpa [Factor.tokens, Factor.flat] using Completes.group he h

end

theorem Tree.parse_tokens (e : Tree) : parse e.tokens = .ok (.expression e.flat) := by
  have h := e.completes .done
  simp only [List.append_nil] at h
  exact parse_of_completes h

/-! ## The parser accepts only trees -/

/-- The tokens `ts`, kept as `out`, are those of a tree. -/
def IsTree (ts out : List Token) : Prop :=
  ∃ e : Tree, e.tokens = ts ∧ e.flat = out

/-- The tree with its last term scaled by a factor. -/
def Tree.scale (o : Scaling) (f : Factor) : Tree → Tree
  | .signed signs t => .signed signs (.product t o f)
  | .sum e o' t => .sum e o' (.product t o f)

theorem Tree.tokens_scale (e : Tree) (o : Scaling) (f : Factor) :
    (e.scale o f).tokens = e.tokens ++ .op o.operator :: f.tokens := by
  cases e <;> simp [scale, Tree.tokens, Term.tokens]

theorem Tree.flat_scale (e : Tree) (o : Scaling) (f : Factor) :
    (e.scale o f).flat = e.flat ++ .op o.operator :: f.flat := by
  cases e <;> simp [scale, Tree.flat, Term.flat]

theorem exists_sign_or_scaling {o : Operator} (h : o.isArithmetic = true) :
    (∃ p : Sign, p.operator = o) ∨ ∃ p : Scaling, p.operator = o := by
  cases o with
  | plus => exact .inl ⟨.plus, rfl⟩
  | minus => exact .inl ⟨.minus, rfl⟩
  | times => exact .inr ⟨.times, rfl⟩
  | divide => exact .inr ⟨.divide, rfl⟩
  | _ => cases h

theorem exists_sign {o : Operator} (h : o.isAdditive = true) : ∃ p : Sign, p.operator = o := by
  cases o with
  | plus => exact ⟨.plus, rfl⟩
  | minus => exact ⟨.minus, rfl⟩
  | _ => cases h

/-- Whatever factor comes after `bs`, kept as `bout`, the two make a tree. -/
def Awaits (bs bout : List Token) : Prop :=
  ∀ f : Factor, IsTree (bs ++ f.tokens) (bout ++ f.flat)

/-- What was read so far allows what is due next. -/
def Allows : Due → List Token → List Token → Prop
  | .signed, bs, bout => ∃ signs, bs = signTokens signs ∧ bout = signTokens signs
  | .operand, bs, bout => Awaits bs bout
  | .operator, bs, bout => IsTree bs bout

theorem allows_nil : Allows .signed [] [] :=
  ⟨[], rfl, rfl⟩

theorem awaits_signTokens (signs : List Sign) : Awaits (signTokens signs) (signTokens signs) := by
  intro f
  exact ⟨.signed signs (.factor f), rfl, rfl⟩

theorem IsTree.awaits {bs bout : List Token} {o : Operator} (h : IsTree bs bout)
    (ho : o.isArithmetic = true) : Awaits (bs ++ [.op o]) (bout ++ [.op o]) := by
  obtain ⟨e, rfl, rfl⟩ := h
  intro f
  rcases exists_sign_or_scaling ho with ⟨p, rfl⟩ | ⟨p, rfl⟩
  · exact ⟨.sum e p (.factor f), by simp [Tree.tokens, Term.tokens], by simp [Tree.flat, Term.flat]⟩
  · exact ⟨e.scale p f, by simp [Tree.tokens_scale], by simp [Tree.flat_scale]⟩

theorem Completes.isTree {due : Due} {ts out : List Token} (h : Completes due ts out)
    (hlex : ∀ t ∈ ts, t.IsLexeme) {bs bout : List Token} (hb : Allows due bs bout) :
    IsTree (bs ++ ts) (bout ++ out) := by
  induction h generalizing bs bout with
  | done =>
    rw [List.append_nil, List.append_nil]
    exact hb
  | binary ho _ ih =>
    simpa using ih (fun t ht => hlex t (by simp [ht])) (IsTree.awaits hb ho)
  | @number digits ts out _ ih =>
    have hn : (Token.number digits).IsLexeme := hlex _ (by simp)
    simpa [Factor.tokens, Factor.flat] using
      ih (fun t ht => hlex t (by simp [ht])) (hb (.number ⟨digits, hn⟩))
  | @name w ts out hw _ ih =>
    obtain ⟨c, hc⟩ := Option.isSome_iff_exists.1 hw
    obtain ⟨rfl, hu⟩ := varName?_eq_some hc
    simpa [Factor.tokens, Factor.flat] using
      ih (fun t ht => hlex t (by simp [ht])) (hb (.letter ⟨c, hu⟩))
  | group _ _ ihe ih =>
    obtain ⟨e, he, heo⟩ := ihe (fun t ht => hlex t (by simp [ht])) allows_nil
    simp only [List.nil_append] at he heo
    subst he heo
    simpa [Factor.tokens, Factor.flat] using ih (fun t ht => hlex t (by simp [ht])) (hb (.group e))
  | @call f _ _ _ _ _ _ ihe ih =>
    obtain ⟨e, he, heo⟩ := ihe (fun t ht => hlex t (by simp [ht])) allows_nil
    simp only [List.nil_append] at he heo
    subst he heo
    simpa [Factor.tokens, Factor.flat] using ih (fun t ht => hlex t (by simp [ht])) (hb (.call f e))
  | @sign o ts out ho _ ih =>
    obtain ⟨signs, rfl, rfl⟩ := hb
    obtain ⟨p, rfl⟩ := exists_sign ho
    have hsigns : Allows .signed (signTokens signs ++ [.op p.operator]) (signTokens signs ++ [.op p.operator]) :=
      ⟨signs ++ [p], by simp [signTokens], by simp [signTokens]⟩
    simpa using ih (fun t ht => hlex t (by simp [ht])) hsigns
  | unsigned _ ih =>
    obtain ⟨signs, rfl, rfl⟩ := hb
    exact ih hlex (awaits_signTokens signs)

theorem exists_tree_of_parse {ts : List Token} {t : Token} (hlex : ∀ t ∈ ts, t.IsLexeme)
    (h : parse ts = .ok t) : ∃ e : Tree, e.tokens = ts ∧ t = .expression e.flat := by
  obtain ⟨ps, hc, rfl⟩ := completes_of_parse h
  obtain ⟨e, he, hps⟩ := hc.isTree hlex allows_nil
  exact ⟨e, he, congrArg _ hps.symm⟩

/-! ## No two trees have the same tokens -/

-- A tree nests to the left, so its tokens are taken apart from the right. What stands to their left
-- must be such that it cannot belong to them.

/-- The last token, if any, is an opening parenthesis. -/
def Opened (l : List Token) : Prop :=
  ∀ t ∈ l.getLast?, t = .lparen

/-- The last token is no name of a function. -/
def Unnamed (l : List Token) : Prop :=
  ∀ f : Function, l.getLast? ≠ some (.word f.name)

/-- The last token neither names a function nor scales. -/
structure Unscaled (l : List Token) : Prop where
  unnamed : Unnamed l
  unscaled : ∀ o : Scaling, l.getLast? ≠ some (.op o.operator)

theorem opened_concat (l : List Token) : Opened (l ++ [.lparen]) := by
  simp [Opened]

theorem unnamed_concat_op (l : List Token) (o : Operator) : Unnamed (l ++ [.op o]) := by
  simp [Unnamed]

theorem unscaled_concat_sign (l : List Token) (o : Sign) : Unscaled (l ++ [.op o.operator]) := by
  refine ⟨unnamed_concat_op l _, fun p => ?_⟩
  cases o <;> cases p <;> simp [Sign.operator, Scaling.operator]

theorem op_of_mem_signTokens {signs : List Sign} {t : Token} (h : t ∈ signTokens signs) :
    ∃ o : Sign, t = .op o.operator := by
  obtain ⟨o, -, rfl⟩ := List.mem_map.1 h
  exact ⟨o, rfl⟩

/-- Between an opening parenthesis and a term there are only signs. -/
theorem Opened.getLast?_signTokens {l : List Token} (h : Opened l) (signs : List Sign) :
    ∀ t ∈ (l ++ signTokens signs).getLast?, t = .lparen ∨ ∃ o : Sign, t = .op o.operator := by
  intro t ht
  rw [List.getLast?_append] at ht
  cases hs : (signTokens signs).getLast? with
  | none =>
    rw [hs] at ht
    exact .inl (h t ht)
  | some u =>
    rw [hs] at ht
    cases ht
    exact .inr (op_of_mem_signTokens (List.mem_of_getLast? hs))

theorem Opened.unscaled {l : List Token} (h : Opened l) (signs : List Sign) :
    Unscaled (l ++ signTokens signs) := by
  refine ⟨fun f hf => ?_, fun p hp => ?_⟩
  · rcases h.getLast?_signTokens signs _ hf with hf | ⟨o, hf⟩ <;> cases hf
  · rcases h.getLast?_signTokens signs _ hp with hp | ⟨o, hp⟩
    · cases hp
    · cases o <;> cases p <;> cases hp

theorem signTokens_injective : Function.Injective signTokens := by
  refine List.map_injective_iff.2 (fun o p h => ?_)
  cases o <;> cases p <;> first | rfl | cases h

/-- Signs that reach back to an opening parenthesis are all the signs there are. -/
theorem Opened.eq_nil_of_signTokens {l a b : List Token} {signs : List Sign} (h : Opened (l ++ a))
    (hs : signTokens signs = a ++ b) : a = [] := by
  rcases List.eq_nil_or_concat a with rfl | ⟨c, t, rfl⟩
  · rfl
  · have ht : t = .lparen := h t (by simp)
    have hmem : t ∈ signTokens signs := by simp [hs]
    obtain ⟨o, ho⟩ := op_of_mem_signTokens hmem
    cases ht.symm.trans ho

theorem Opened.signTokens_inj {l l' : List Token} {signs signs' : List Sign} (hl : Opened l)
    (hl' : Opened l') (h : l ++ signTokens signs = l' ++ signTokens signs') :
    signs = signs' ∧ l = l' := by
  rcases List.append_eq_append_iff.1 h with ⟨a, rfl, hs⟩ | ⟨a, rfl, hs⟩
  · obtain rfl := hl'.eq_nil_of_signTokens hs
    exact ⟨signTokens_injective hs, (List.append_nil l).symm⟩
  · obtain rfl := hl.eq_nil_of_signTokens hs
    exact ⟨(signTokens_injective hs).symm, List.append_nil l'⟩

/-- The last token of an operand. -/
def EndsOperand (l : List Token) : Prop :=
  ∃ t, l.getLast? = some t ∧ t ≠ .lparen ∧ ∀ o, t ≠ .op o

theorem Factor.endsOperand (f : Factor) (l : List Token) : EndsOperand (l ++ f.tokens) := by
  cases f <;> simp [EndsOperand, Factor.tokens, List.getLast?_append, List.getLast?_cons]

theorem Term.endsOperand (t : Term) (l : List Token) : EndsOperand (l ++ t.tokens) := by
  cases t with
  | factor f => exact f.endsOperand l
  | product t o f =>
    rw [Term.tokens, ← List.append_assoc, List.append_cons]
    exact f.endsOperand _

theorem Tree.endsOperand (e : Tree) (l : List Token) : EndsOperand (l ++ e.tokens) := by
  cases e with
  | signed signs t =>
    rw [Tree.tokens, ← List.append_assoc]
    exact t.endsOperand _
  | sum e o t =>
    rw [Tree.tokens, ← List.append_assoc, List.append_cons]
    exact t.endsOperand _

/-- The signs before the first term are not those between two terms. -/
theorem Opened.signTokens_ne {l l' : List Token} (h : Opened l) (signs : List Sign) (e : Tree)
    (o : Operator) : l ++ signTokens signs ≠ l' ++ e.tokens ++ [.op o] := by
  intro heq
  obtain ⟨t, ht, hparen, hop⟩ := e.endsOperand l'
  rcases List.eq_nil_or_concat signs with rfl | ⟨init, p, rfl⟩
  · have hl : Token.op o = .lparen := h _ (by simpa [signTokens] using congrArg List.getLast? heq)
    cases hl
  · have hinit : l ++ signTokens init = l' ++ e.tokens := by
      have hconcat : (l ++ signTokens init) ++ [.op p.operator] = (l' ++ e.tokens) ++ [.op o] := by
        simpa [signTokens] using heq
      exact (List.append_inj' hconcat rfl).1
    rcases h.getLast?_signTokens init t (hinit ▸ ht) with rfl | ⟨p, rfl⟩
    · exact hparen rfl
    · exact hop _ rfl

theorem eq_of_closed {a b : List Token} (h : a ++ [.rparen] = b ++ [.rparen]) : a = b :=
  List.append_cancel_right h

mutual

theorem Tree.eq_of_append {l l' : List Token} (hl : Opened l) (hl' : Opened l') (e e' : Tree)
    (h : l ++ e.tokens = l' ++ e'.tokens) : e = e' ∧ l = l' := by
  match e, e' with
  | .signed signs t, .signed signs' t' =>
    obtain ⟨rfl, hs⟩ := Term.eq_of_append (hl.unscaled signs) (hl'.unscaled signs') t t'
      (by simpa [Tree.tokens] using h)
    obtain ⟨rfl, rfl⟩ := hl.signTokens_inj hl' hs
    exact ⟨rfl, rfl⟩
  | .signed signs t, .sum e' o' t' =>
    obtain ⟨-, hs⟩ := Term.eq_of_append (hl.unscaled signs) (unscaled_concat_sign (l' ++ e'.tokens) o')
      t t' (by simpa [Tree.tokens] using h)
    exact absurd hs (hl.signTokens_ne signs e' _)
  | .sum e o t, .signed signs' t' =>
    obtain ⟨-, hs⟩ := Term.eq_of_append (unscaled_concat_sign (l ++ e.tokens) o) (hl'.unscaled signs')
      t t' (by simpa [Tree.tokens] using h)
    exact absurd hs.symm (hl'.signTokens_ne signs' e _)
  | .sum e o t, .sum e' o' t' =>
    obtain ⟨rfl, hs⟩ := Term.eq_of_append (unscaled_concat_sign (l ++ e.tokens) o)
      (unscaled_concat_sign (l' ++ e'.tokens) o') t t' (by simpa [Tree.tokens] using h)
    obtain ⟨he, ho⟩ := List.append_inj' hs rfl
    obtain ⟨rfl, rfl⟩ := Tree.eq_of_append hl hl' e e' he
    obtain rfl : o = o' := by cases o <;> cases o' <;> first | rfl | cases ho
    exact ⟨rfl, rfl⟩

theorem Term.eq_of_append {l l' : List Token} (hl : Unscaled l) (hl' : Unscaled l') (t t' : Term)
    (h : l ++ t.tokens = l' ++ t'.tokens) : t = t' ∧ l = l' := by
  match t, t' with
  | .factor f, .factor f' =>
    obtain ⟨rfl, rfl⟩ := Factor.eq_of_append hl.unnamed hl'.unnamed f f' h
    exact ⟨rfl, rfl⟩
  | .factor f, .product t' o' f' =>
    obtain ⟨-, rfl⟩ := Factor.eq_of_append hl.unnamed (unnamed_concat_op (l' ++ t'.tokens) o'.operator)
      f f' (by simpa [Term.tokens] using h)
    exact absurd (by simp) (hl.unscaled o')
  | .product t o f, .factor f' =>
    obtain ⟨-, rfl⟩ := Factor.eq_of_append (unnamed_concat_op (l ++ t.tokens) o.operator) hl'.unnamed
      f f' (by simpa [Term.tokens] using h)
    exact absurd (by simp) (hl'.unscaled o)
  | .product t o f, .product t' o' f' =>
    obtain ⟨rfl, hs⟩ := Factor.eq_of_append (unnamed_concat_op (l ++ t.tokens) o.operator)
      (unnamed_concat_op (l' ++ t'.tokens) o'.operator) f f' (by simpa [Term.tokens] using h)
    obtain ⟨ht, ho⟩ := List.append_inj' hs rfl
    obtain ⟨rfl, rfl⟩ := Term.eq_of_append hl hl' t t' ht
    obtain rfl : o = o' := by cases o <;> cases o' <;> first | rfl | cases ho
    exact ⟨rfl, rfl⟩

theorem Factor.eq_of_append {l l' : List Token} (hl : Unnamed l) (hl' : Unnamed l') (f f' : Factor)
    (h : l ++ f.tokens = l' ++ f'.tokens) : f = f' ∧ l = l' := by
  match f, f' with
  | .number n, .number n' =>
    obtain ⟨rfl, hn⟩ := List.append_inj' h rfl
    simp only [Factor.tokens, List.cons.injEq, Token.number.injEq, and_true] at hn
    exact ⟨congrArg _ (Subtype.ext hn), rfl⟩
  | .letter v, .letter v' =>
    obtain ⟨rfl, hv⟩ := List.append_inj' h rfl
    simp only [Factor.tokens, List.cons.injEq, Token.word.injEq, and_true] at hv
    have hc : v.1 = v'.1 := by simpa using congrArg String.toList hv
    exact ⟨congrArg _ (Subtype.ext hc), rfl⟩
  | .group e, .group e' =>
    obtain ⟨rfl, hs⟩ := Tree.eq_of_append (opened_concat l) (opened_concat l') e e'
      (eq_of_closed (by simpa [Factor.tokens] using h))
    exact ⟨rfl, (List.append_inj' hs rfl).1⟩
  | .call g e, .call g' e' =>
    obtain ⟨rfl, hs⟩ := Tree.eq_of_append (opened_concat (l ++ [.word g.name]))
      (opened_concat (l' ++ [.word g'.name])) e e'
      (eq_of_closed (by simpa [Factor.tokens] using h))
    obtain ⟨rfl, -⟩ := List.append_inj' (List.append_inj' hs rfl).1 rfl
    cases g
    cases g'
    exact ⟨rfl, rfl⟩
  | .group e, .call g' e' =>
    obtain ⟨-, hs⟩ := Tree.eq_of_append (opened_concat l) (opened_concat (l' ++ [.word g'.name])) e e'
      (eq_of_closed (by simpa [Factor.tokens] using h))
    obtain rfl := (List.append_inj' hs rfl).1
    exact absurd (by simp) (hl g')
  | .call g e, .group e' =>
    obtain ⟨-, hs⟩ := Tree.eq_of_append (opened_concat (l ++ [.word g.name])) (opened_concat l') e e'
      (eq_of_closed (by simpa [Factor.tokens] using h))
    obtain rfl := (List.append_inj' hs rfl).1
    exact absurd (by simp) (hl' g)
  | .number _, .letter _ | .number _, .group _ | .number _, .call .. | .letter _, .number _
  | .letter _, .group _ | .letter _, .call .. | .group _, .number _ | .group _, .letter _
  | .call .., .number _ | .call .., .letter _ =>
    -- the last tokens differ
    have hlast := congrArg List.getLast? h
    simp [Factor.tokens, List.getLast?_append, List.getLast?_cons] at hlast

end

theorem Tree.tokens_injective : Function.Injective Tree.tokens := by
  intro e e' h
  have hnil : Opened [] := by simp [Opened]
  exact (Tree.eq_of_append hnil hnil e e' h).1

end Expression

end LineBasic
