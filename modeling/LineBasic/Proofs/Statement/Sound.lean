import LineBasic.Proofs.Expression.Tree
import LineBasic.Proofs.Statement.RoundTrip

/-!
# The arguments of a statement

The type of statements admits more arguments than a line can spell. `Sound` says of which form they
have to be so that the statement can be executed. Every statement that was read from a text is sound
(`sound_of_parse`), and so are the expressions of an answer (`Expression.isTree_of_readList`).
-/
namespace LineBasic

/-- The token is an expression with a syntax tree. -/
def Token.IsTree (t : Token) : Prop :=
  ∃ e : Expression.Tree, t = .expression e.flat

theorem Expression.Completes.isTree_token {ts out : List Token} (h : Completes .signed ts out)
    (hlex : ∀ t ∈ ts, t.IsLexeme) : (Token.expression out).IsTree := by
  obtain ⟨e, -, he⟩ := h.isTree hlex allows_nil
  exact ⟨e, by rw [he, List.nil_append]⟩

/-- The expressions of an answer have syntax trees. -/
theorem Expression.isTree_of_readList {line ts es : List Token} (h : readList line ts = .ok es)
    (hlex : ∀ t ∈ ts, t.IsLexeme) : ∀ e ∈ es, e.IsTree := by
  fun_induction readList line ts generalizing es with
  | case1 => cases h
  | case2 ts e rest hr ih =>
    obtain ⟨us, ps, rfl, hc, rfl⟩ := completes_of_read hr
    obtain ⟨hus, hrest⟩ := List.forall_mem_append.1 hlex
    obtain ⟨-, hrest⟩ := List.forall_mem_cons.1 hrest
    cases hl : readList line rest with
    | error err =>
      rw [hl] at h
      cases h
    | ok es' =>
      rw [hl] at h
      cases h
      exact List.forall_mem_cons.2 ⟨hc.isTree_token hus, ih hl hrest⟩
  | case3 ts e hr | case4 ts e _ hr =>
    obtain ⟨us, ps, rfl, hc, rfl⟩ := completes_of_read hr
    cases h
    exact List.forall_mem_singleton.2 (hc.isTree_token (List.forall_mem_append.1 hlex).1)
  | case5 => cases h

namespace Statement

inductive Sound : Statement → Prop
  | assign {v e : Token} {l : Option Label} (hv : v.varName?.isSome = true) (he : e.IsTree) :
      Sound ⟨.assign, [v, e], l⟩
  | print {args : List Token} {l : Option Label}
      (h : ∀ a ∈ args, (∃ text, a = .quoted text) ∨ a.IsTree) : Sound ⟨.print, args, l⟩
  | input {args : List Token} {l : Option Label} (h : ∀ a ∈ args, a.varName?.isSome = true) :
      Sound ⟨.input, args, l⟩
  | cond {a b : Token} {o : Operator} {s : Statement} {l : Option Label} (ha : a.IsTree)
      (hb : b.IsTree) (hs : Sound s) : Sound ⟨.cond, [a, .op o, b, .statement s], l⟩
  | goto {e : Token} {l : Option Label} (he : e.IsTree) : Sound ⟨.goto, [e], l⟩
  | gosub {e : Token} {l : Option Label} (he : e.IsTree) : Sound ⟨.gosub, [e], l⟩
  /-- The others do not look at their arguments. -/
  | plain {k : Keyword} {args : List Token} {l : Option Label}
      (hk : k ∈ [.ret, .clear, .list, .run, .stop, .remark, .blank]) : Sound ⟨k, args, l⟩

theorem Sound.withLabel {s : Statement} (h : s.Sound) (l : Option Label) :
    Sound { s with label := l } := by
  cases h with
  | assign hv he => exact .assign hv he
  | print h => exact .print h
  | input h => exact .input h
  | cond ha hb hs => exact .cond ha hb hs
  | goto he => exact .goto he
  | gosub he => exact .gosub he
  | plain hk => exact .plain hk

theorem IsExpression.isTree {us : List Token} {e : Token} (h : IsExpression us e)
    (hlex : ∀ t ∈ us, t.IsLexeme) : e.IsTree := by
  obtain ⟨ps, hc, rfl⟩ := h
  exact hc.isTree_token hlex

/-- What holds for each argument by the tokens that spell it holds for all in a list. -/
theorem Listed.forall_mem {P : List Token → Token → Prop} {Q : Token → Prop}
    (hP : ∀ {us : List Token} {a : Token}, P us a → (∀ t ∈ us, t.IsLexeme) → Q a)
    {us args : List Token} (h : Listed P us args) (hlex : ∀ t ∈ us, t.IsLexeme) : ∀ a ∈ args, Q a := by
  induction h with
  | one hu => exact List.forall_mem_singleton.2 (hP hu hlex)
  | more hu _ ih =>
    obtain ⟨hts, hus⟩ := List.forall_mem_append.1 hlex
    obtain ⟨-, hus⟩ := List.forall_mem_cons.1 hus
    exact List.forall_mem_cons.2 ⟨hP hu hts, ih hus⟩

theorem Derives.sound {us : List Token} {s : Statement} (h : Derives us s)
    (hlex : ∀ t ∈ us, t.IsLexeme) : s.Sound := by
  induction h with
  | @simple k ts args hk =>
    obtain ⟨-, hts⟩ := List.forall_mem_cons.1 hlex
    cases k with
    | print =>
      refine .print (Listed.forall_mem (P := IsItem) (fun hu hlex => ?_) hk hts)
      rcases hu with ⟨text, -, rfl⟩ | he
      · exact .inl ⟨text, rfl⟩
      · exact .inr (he.isTree hlex)
    | input => exact .input (Listed.forall_mem (P := IsVariable) (fun hu _ => hu.2) hk hts)
    | assign =>
      obtain ⟨vs, v, es, e, rfl, rfl, hv, he⟩ := hk
      obtain ⟨-, hes⟩ := List.forall_mem_append.1 hts
      exact .assign hv.2 (he.isTree (List.forall_mem_cons.1 hes).2)
    | goto =>
      obtain ⟨e, rfl, he⟩ := hk
      exact .goto (he.isTree hts)
    | gosub =>
      obtain ⟨e, rfl, he⟩ := hk
      exact .gosub (he.isTree hts)
    | remark | ret | clear | list | run | stop => exact .plain (by decide)
    | cond | blank => exact hk.elim
  | @cond as bs ts a b o s ha ho hb _ ih =>
    simp only [List.forall_mem_append, List.forall_mem_cons] at hlex
    obtain ⟨⟨⟨-, has⟩, -, hbs⟩, -, hts⟩ := hlex
    exact .cond (ha.isTree has) (hb.isTree hbs) (ih hts)

/-- A label that was read is in range. -/
theorem Labels.range {ls : List Token} {l : Option Label} (h : Labels ls l) :
    ∀ x ∈ l, 1 ≤ x ∧ x ≤ maxLabel := by
  cases h with
  | none => simp
  | some hl =>
    rintro x ⟨⟩
    obtain ⟨-, hrange⟩ := Option.filter_eq_some_iff.1 hl
    simpa using hrange

/-- A statement that was read from a text is sound, and its label is in range. -/
theorem sound_of_parse {text : String} {s : Statement} (h : parse text = .ok s) :
    s.Sound ∧ ∀ x ∈ s.label, 1 ≤ x ∧ x ≤ maxLabel := by
  cases hsplit : splitRemark text.toList with
  | mk code remark =>
    cases remark with
    | some rest =>
      -- the text of a remark is not read at all
      obtain ⟨lead, digits, gap, hr⟩ := isRemark_of_splitRemark hsplit
      obtain ⟨l, hl, rfl⟩ := hr.parse_inv h
      exact ⟨.plain (by decide), hl.range⟩
    | none =>
      obtain ⟨ts, hlex, hline⟩ := readLine_of_parse hsplit h
      obtain ⟨ls, us, es, l, b, rfl, hl, hb, he, rfl⟩ := readLine_eq_done hline
      refine ⟨?_, hl.range⟩
      rcases hb with ⟨-, rfl⟩ | hb
      · exact .plain (by decide)
      · exact (hb.sound (fun t ht => isLexeme_of_lex hlex t (by simp [ht]))).withLabel l

end Statement

end LineBasic
