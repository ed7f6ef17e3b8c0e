import LineBasic.Expression.Parser

/-!
# The grammar of expressions

`Completes due ts out` says that the tokens `ts` complete an expression in which `due` is due next,
and that the parser keeps them as `out`, with a function's call gathered into one token. The parser
accepts exactly that (`completes_of_check`, `check_of_completes`), and `Expression.read` cuts such
tokens off the front of a line.
-/
namespace LineBasic

theorem Function.name_of_ofName? {w : String} {f : Function} (h : Function.ofName? w = some f) :
    w = f.name := by
  unfold Function.ofName? at h
  split at h
  · next hw =>
    cases h
    exact hw
  · cases h

namespace Expression

inductive Completes : Due → List Token → List Token → Prop
  | done : Completes .operator [] []
  | binary {o : Operator} {ts out : List Token} (ho : o.isArithmetic = true) :
      Completes .operand ts out → Completes .operator (.op o :: ts) (.op o :: out)
  | number {digits : String} {ts out : List Token} :
      Completes .operator ts out → Completes .operand (.number digits :: ts) (.number digits :: out)
  | name {w : String} {ts out : List Token} (hw : (varName? w).isSome = true) :
      Completes .operator ts out → Completes .operand (.word w :: ts) (.word w :: out)
  | group {es eout ts out : List Token} :
      Completes .signed es eout → Completes .operator ts out →
      Completes .operand (.lparen :: es ++ .rparen :: ts) (.lparen :: eout ++ .rparen :: out)
  | call {f : Function} {es eout ts out : List Token} :
      Completes .signed es eout → Completes .operator ts out →
      Completes .operand (.word f.name :: .lparen :: es ++ .rparen :: ts)
        (.call f [.expression eout] :: out)
  | sign {o : Operator} {ts out : List Token} (ho : o.isAdditive = true) :
      Completes .signed ts out → Completes .signed (.op o :: ts) (.op o :: out)
  | unsigned {ts out : List Token} : Completes .operand ts out → Completes .signed ts out

/-- An operand may come wherever none has come yet. -/
theorem Completes.of_operand {due : Due} {ts out : List Token} (hd : due ≠ .operator)
    (h : Completes .operand ts out) : Completes due ts out := by
  cases due with
  | signed => exact .unsigned h
  | operand => exact h
  | operator => exact absurd rfl hd

theorem Completes.ne_nil {due : Due} {ts out : List Token} (h : Completes due ts out)
    (hd : due ≠ .operator) : ts ≠ [] := by
  induction h with
  | done => exact absurd rfl hd
  | unsigned _ ih => exact ih (by simp)
  | _ => simp

/-! ## The parser accepts nothing else -/

/-- What the open brackets still demand of the tokens `ts`, when the innermost level has come to its
end with `seen`: each is closed, and its operand continues the level outside. -/
def Closes : List Bracket → (seen : List Token) → List Token → List Token → Prop
  | [], seen, ts, out => ts = [] ∧ out = seen.reverse
  | .paren :: brackets, seen, ts, out =>
    ∃ us ps rest, ts = .rparen :: us ++ rest ∧ Completes .operator us ps ∧
      Closes brackets (ps.reverse ++ .rparen :: seen) rest out
  | .call f before :: brackets, seen, ts, out =>
    ∃ us ps rest, ts = .rparen :: us ++ rest ∧ Completes .operator us ps ∧
      Closes brackets (ps.reverse ++ .call f [.expression seen.reverse] :: before) rest out

theorem stray_ne_ok (t : Token) (brackets : List Bracket) (out : List Token) :
    check.stray t brackets ≠ .ok out := by
  cases brackets <;> simp [check.stray]

theorem completes_of_check {due : Due} {brackets : List Bracket} {seen ts out : List Token}
    (h : check due brackets seen ts = .ok out) :
    ∃ us ps rest, ts = us ++ rest ∧ Completes due us ps ∧
      Closes brackets (ps.reverse ++ seen) rest out := by
  fun_induction check due brackets seen ts with
  | case1 seen =>
    cases h
    exact ⟨[], [], [], rfl, .done, rfl, rfl⟩
  | case4 seen ts brackets ih =>
    obtain ⟨us, ps, rest, rfl, hc, hcl⟩ := ih h
    exact ⟨[], [], _, rfl, .done, us, ps, rest, rfl, hc, hcl⟩
  | case5 seen ts f before brackets ih =>
    obtain ⟨us, ps, rest, rfl, hc, hcl⟩ := ih h
    exact ⟨[], [], _, rfl, .done, us, ps, rest, rfl, hc, hcl⟩
  | case6 seen ts o brackets ho ih =>
    obtain ⟨us, ps, rest, rfl, hc, hcl⟩ := ih h
    exact ⟨.op o :: us, .op o :: ps, rest, rfl, .binary ho hc, by simpa using hcl⟩
  | case9 due brackets seen ts hd o ho ih =>
    obtain ⟨us, ps, rest, rfl, hc, hcl⟩ := ih h
    cases due with
    | signed => exact ⟨.op o :: us, .op o :: ps, rest, rfl, .sign (by simpa using ho) hc, by simpa using hcl⟩
    | operand => simp at ho
    | operator => exact absurd rfl hd
  | case11 due brackets seen ts hd n ih =>
    obtain ⟨us, ps, rest, rfl, hc, hcl⟩ := ih h
    exact ⟨.number n :: us, .number n :: ps, rest, rfl, .of_operand hd (.number hc), by simpa using hcl⟩
  | case12 due brackets seen ts hd ih =>
    obtain ⟨es, eps, rest, rfl, he, us, ps, rest', rfl, hc, hcl⟩ := ih h
    exact ⟨.lparen :: es ++ .rparen :: us, .lparen :: eps ++ .rparen :: ps, rest', by simp,
      .of_operand hd (.group he hc), by simpa using hcl⟩
  | case13 due brackets seen ts hd w hw ih =>
    obtain ⟨us, ps, rest, rfl, hc, hcl⟩ := ih h
    exact ⟨.word w :: us, .word w :: ps, rest, rfl, .of_operand hd (.name hw hc), by simpa using hcl⟩
  | case14 due brackets seen hd w hw f ts hf ih =>
    obtain ⟨es, eps, rest, rfl, he, us, ps, rest', rfl, hc, hcl⟩ := ih h
    obtain rfl := Function.name_of_ofName? hf
    exact ⟨.word f.name :: .lparen :: es ++ .rparen :: us, .call f [.expression eps] :: ps, rest', by simp,
      .of_operand hd (.call he hc), by simpa using hcl⟩
  | case7 | case8 => exact absurd h (stray_ne_ok _ _ _)
  | case2 | case3 | case10 | case15 | case16 | case17 => cases h

/-! ## The parser accepts all of it -/

theorem check_word {due : Due} (hd : due ≠ .operator) (brackets : List Bracket) (seen ts : List Token)
    {w : String} (hw : (varName? w).isSome = true) :
    check due brackets seen (.word w :: ts) = check .operator brackets (.word w :: seen) ts := by
  rw [check.eq_def due]
  cases due with
  | operator => exact absurd rfl hd
  | signed | operand => simp [hw]

theorem check_call {due : Due} (hd : due ≠ .operator) (brackets : List Bracket) (seen ts : List Token)
    (f : Function) :
    check due brackets seen (.word f.name :: .lparen :: ts) =
      check .signed (.call f seen :: brackets) [] ts := by
  have hf : (varName? f.name).isSome = false := by cases f; rfl
  rw [check.eq_def due]
  cases due with
  | operator => exact absurd rfl hd
  | signed | operand => simp [hf, Function.ofName?_name]

/-- An operand is read the same whether signs may come before it or not. -/
theorem check_signed_eq_operand {us ps : List Token} (h : Completes .operand us ps)
    (brackets : List Bracket) (seen rest : List Token) :
    check .signed brackets seen (us ++ rest) = check .operand brackets seen (us ++ rest) := by
  cases h with
  | name hw => simp [check_word, hw]
  | call => simp [check_call]
  | number | group => simp [check]

/-- The parser accepts what completes an expression, whatever comes before and after it. -/
theorem check_of_completes {due : Due} {us ps : List Token} (h : Completes due us ps)
    (brackets : List Bracket) (seen rest : List Token) :
    check due brackets seen (us ++ rest) = check .operator brackets (ps.reverse ++ seen) rest := by
  induction h generalizing brackets seen rest with
  | done => rfl
  | binary ho _ ih => simp [check, ho, ih]
  | number _ ih => simp [check, ih]
  | name hw _ ih => simp [check_word, hw, ih]
  | group _ _ ihe ih => simp [check, ihe, ih]
  | call _ _ ihe ih => simp [check_call, check, ihe, ih]
  | sign ho _ ih => simp [check, ho, ih]
  | unsigned h ih => rw [check_signed_eq_operand h, ih]

/-! ## Expressions in front of a line -/

/-- The first token can belong to no expression, whatever comes after it. -/
def Stops (ts : List Token) : Prop :=
  ∀ t ∈ ts.head?, ∀ next, belongs t next = false

theorem stops_nil : Stops [] := by
  simp [Stops]

theorem stops_cons {t : Token} (h : ∀ next, belongs t next = false) (ts : List Token) :
    Stops (t :: ts) := by
  simpa [Stops] using h

theorem spanLength_of_stops {ts : List Token} (h : Stops ts) : spanLength ts = 0 := by
  cases ts with
  | nil => rfl
  | cons t ts => simp [spanLength, h t (by simp)]

theorem belongs_name {w : String} (h : (varName? w).isSome = true) (next : Option Token) :
    belongs (.word w) next = true := by
  unfold belongs
  split <;> simp_all

theorem spanLength_append {due : Due} {us ps : List Token} (h : Completes due us ps)
    (rest : List Token) : spanLength (us ++ rest) = us.length + spanLength rest := by
  induction h generalizing rest with
  | done => simp
  | binary ho _ ih => simp [spanLength, belongs, ho, ih]; omega
  | number _ ih => simp [spanLength, belongs, ih]; omega
  | name hw _ ih => simp [spanLength, belongs_name hw, ih]; omega
  | group _ _ ihe ih => simp [spanLength, belongs, ihe, ih]; omega
  | call _ _ ihe ih => simp [spanLength, belongs, Function.ofName?_name, ihe, ih]; omega
  | sign ho _ ih => simp [spanLength, belongs, Operator.isArithmetic, ho, ih]; omega
  | unsigned _ ih => exact ih rest

theorem parse_of_completes {us ps : List Token} (h : Completes .signed us ps) :
    parse us = .ok (.expression ps) := by
  have hc : check .signed [] [] us = .ok ps := by
    have := check_of_completes h [] [] []
    simpa [check] using this
  cases us with
  | nil => exact absurd rfl (h.ne_nil (by simp))
  | cons u us =>
    show Token.expression <$> check .signed [] [] (u :: us) = _
    rw [hc]
    rfl

theorem completes_of_parse {ts : List Token} {e : Token} (h : parse ts = .ok e) :
    ∃ ps, Completes .signed ts ps ∧ e = .expression ps := by
  cases ts with
  | nil => cases h
  | cons t ts =>
    change Token.expression <$> check .signed [] [] (t :: ts) = _ at h
    cases hc : check .signed [] [] (t :: ts) with
    | error err =>
      rw [hc] at h
      cases h
    | ok out =>
      rw [hc] at h
      cases h
      obtain ⟨us, ps, rest, hts, hu, rfl, rfl⟩ := completes_of_check hc
      rw [List.append_nil] at hts
      exact ⟨ps, hts ▸ hu, by simp⟩

/-- The expression in front of a line ends where the next token belongs to none. -/
theorem read_of_completes {us ps rest : List Token} (h : Completes .signed us ps)
    (hr : Stops rest) : read (us ++ rest) = .ok (.expression ps, rest) := by
  have hlen : spanLength (us ++ rest) = us.length := by
    rw [spanLength_append h, spanLength_of_stops hr, Nat.add_zero]
  rw [read, hlen, List.take_left, List.drop_left, parse_of_completes h]
  rfl

theorem completes_of_read {ts rest : List Token} {e : Token} (h : read ts = .ok (e, rest)) :
    ∃ us ps, ts = us ++ rest ∧ Completes .signed us ps ∧ e = .expression ps := by
  unfold read at h
  cases hp : parse (ts.take (spanLength ts)) with
  | error err =>
    rw [hp] at h
    cases h
  | ok e' =>
    rw [hp] at h
    cases h
    obtain ⟨ps, hc, rfl⟩ := completes_of_parse hp
    exact ⟨_, ps, (List.take_append_drop ..).symm, hc, rfl⟩

end Expression

end LineBasic
