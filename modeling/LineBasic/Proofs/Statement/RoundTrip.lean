import LineBasic.Proofs.Equality
import LineBasic.Proofs.Statement.Remark

/-!
# The text of a statement reads back

`Spells text ts` says that `text` is lexed into `ts` wherever a separator or nothing follows it. The
text of an expression, of an argument list and of a whole statement spells the tokens that it was
read from (`Derives.spells`), so a line that was read is read again from its rendering
(`parse_source`).
-/
namespace LineBasic

/-! ## Texts with separators between them -/

/-- Nothing follows, or a space or a comma. -/
def Separates (cs : List Char) : Prop :=
  ∀ c ∈ cs.head?, c = ' ' ∨ c = ','

theorem separates_nil : Separates [] := by
  simp [Separates]

theorem Separates.breaks {cs : List Char} (h : Separates cs) : Breaks cs := by
  intro c hc
  rcases h c hc with rfl | rfl <;> rfl

theorem Separates.endsAt {cs : List Char} (h : Separates cs) (t : Token) : t.EndsAt cs := by
  unfold Token.EndsAt
  split
  case h_1 => exact fun c hc => isDigit_of_isDelimiter (h.breaks c hc)
  case h_2 => exact h.breaks
  case h_5 => trivial
  all_goals
    intro c hc
    rcases h c hc with rfl | rfl <;> decide

/-- The text is lexed into the tokens, in front of anything that is separated from it. -/
def Spells (text : String) (us : List Token) : Prop :=
  ∀ ⦃cs : List Char⦄ ⦃ts : List Token⦄, Separates cs → lex cs = .ok ts →
    lex (text.toList ++ cs) = .ok (us ++ ts)

theorem Spells.lex_eq {text : String} {us : List Token} (h : Spells text us) :
    lex text.toList = .ok us := by
  have := h separates_nil (by rw [lex])
  simpa using this

theorem spells_lexeme {t : Token} (ht : t.IsLexeme) : Spells t.render [t] := by
  intro cs ts hcs hlex
  exact lex_lexeme ht (hcs.endsAt t) hlex

theorem spells_word {w : String} (hw : (Token.word w).IsLexeme) : Spells w [.word w] :=
  spells_lexeme hw

theorem spells_op (o : Operator) : Spells o.render [.op o] :=
  spells_lexeme (t := .op o) trivial

theorem Spells.space {a b : String} {us vs : List Token} (ha : Spells a us) (hb : Spells b vs) :
    Spells (a ++ " " ++ b) (us ++ vs) := by
  intro cs ts hcs hlex
  have hrest : lex (' ' :: (b.toList ++ cs)) = .ok (vs ++ ts) := by
    rw [lex_of_isSpace (by decide)]
    exact hb hcs hlex
  have := ha (by simp [Separates]) hrest
  simpa using this

theorem Spells.comma {a b : String} {us vs : List Token} (ha : Spells a us) (hb : Spells b vs) :
    Spells (a ++ ", " ++ b) (us ++ .comma :: vs) := by
  intro cs ts hcs hlex
  have hrest : lex (',' :: ' ' :: (b.toList ++ cs)) = .ok (.comma :: (vs ++ ts)) := by
    refine lex_lexeme (t := .comma) trivial trivial ?_
    rw [lex_of_isSpace (by decide)]
    exact hb hcs hlex
  have := ha (by simp [Separates]) hrest
  simpa using this

/-- Lexemes with a space between two spell themselves. -/
theorem spells_intercalate {t : Token} {ts : List Token} (h : ∀ u ∈ t :: ts, u.IsLexeme) :
    Spells (" ".intercalate (Token.renderAll (t :: ts))) (t :: ts) := by
  induction ts generalizing t with
  | nil => exact spells_lexeme (h t (by simp))
  | cons u us ih =>
    obtain ⟨ht, hus⟩ := List.forall_mem_cons.1 h
    have := (spells_lexeme ht).space (ih hus)
    simpa [Token.renderAll, String.intercalate_cons_cons] using this

/-- The tokens of a text are those of their own texts with a space between two. -/
theorem lex_rendered {cs : List Char} {ts : List Token} (h : lex cs = .ok ts) :
    lex (" ".intercalate (Token.renderAll ts)).toList = .ok ts := by
  cases ts with
  | nil =>
    show lex [] = _
    rw [lex]
  | cons t ts => exact (spells_intercalate (isLexeme_of_lex h)).lex_eq

/-- Signs that belong together stay so, and those with a space between them do not come together. -/
theorem lex_rendered_signs :
    ∃ ts, lex "7A><B< >\"< ,\"\n\t,(9>=<".toList = .ok ts ∧
      " ".intercalate (Token.renderAll ts) = "7 A <> B < > \"< ,\" \n , ( 9 >= <" ∧
      lex "7 A <> B < > \"< ,\" \n , ( 9 >= <".toList = .ok ts := by
  have hlex : lex "7A><B< >\"< ,\"\n\t,(9>=<".toList =
      .ok [.number "7", .word "A", .op .notEqual, .word "B", .op .less, .op .greater, .quoted "< ,",
        .newline, .comma, .lparen, .number "9", .op .greaterEqual, .op .less] := by
    decide +kernel
  exact ⟨_, hlex, by decide +kernel, lex_rendered hlex⟩

/-! ## Expressions -/

/-- The text of the tokens of an expression. -/
def joined (ps : List Token) : List Char :=
  (String.join (Token.renderAll ps)).toList

@[simp] theorem joined_nil : joined [] = [] := rfl

@[simp] theorem joined_cons (p : Token) (ps : List Token) :
    joined (p :: ps) = p.render.toList ++ joined ps := by
  simp [joined, Token.renderAll, String.toList_join]

@[simp] theorem joined_append (ps qs : List Token) : joined (ps ++ qs) = joined ps ++ joined qs := by
  induction ps with
  | nil => rfl
  | cons p ps ih => simp [ih]

theorem isDelimiter_of_isArithmetic {o : Operator} (h : o.isArithmetic = true) :
    ∃ c, o.render.toList = [c] ∧ isDelimiter c = true := by
  cases o with
  | plus => exact ⟨'+', rfl, rfl⟩
  | minus => exact ⟨'-', rfl, rfl⟩
  | times => exact ⟨'*', rfl, rfl⟩
  | divide => exact ⟨'/', rfl, rfl⟩
  | _ => cases h

/-- No operand runs on into what follows it. -/
theorem breaks_joined {us ps : List Token} (h : Expression.Completes .operator us ps) {cs : List Char}
    (hcs : Breaks cs) : Breaks (joined ps ++ cs) := by
  cases h with
  | done => exact hcs
  | binary ho =>
    obtain ⟨c, hc, hd⟩ := isDelimiter_of_isArithmetic ho
    rw [joined_cons, Token.render, hc]
    exact breaks_cons hd _

theorem render_call (f : Function) (ps : List Token) :
    (Token.call f [.expression ps]).render.toList = f.name.toList ++ '(' :: joined ps ++ [')'] := by
  simp [Token.render, Token.renderAll, joined]

theorem lex_parens {inner cs : List Char} {es ts : List Token}
    (hin : ∀ {cs : List Char} {ts : List Token}, Breaks cs → lex cs = .ok ts →
      lex (inner ++ cs) = .ok (es ++ ts))
    (hts : lex cs = .ok ts) :
    lex ('(' :: (inner ++ ')' :: cs)) = .ok (.lparen :: (es ++ .rparen :: ts)) := by
  have hclose : lex (')' :: cs) = .ok (.rparen :: ts) := lex_lexeme (t := .rparen) trivial trivial hts
  exact lex_lexeme (t := .lparen) trivial trivial (hin (breaks_cons rfl cs) hclose)

/-- The text of an expression, which has no spaces, is lexed into the tokens it was read from. -/
theorem lex_joined {due : Expression.Due} {us ps : List Token} (h : Expression.Completes due us ps)
    (hlex : ∀ t ∈ us, t.IsLexeme) {cs : List Char} {ts : List Token} (hcs : Breaks cs)
    (hts : lex cs = .ok ts) : lex (joined ps ++ cs) = .ok (us ++ ts) := by
  induction h generalizing cs ts with
  | done => exact hts
  | @binary o _ _ ho _ ih =>
    obtain ⟨-, hlex⟩ := List.forall_mem_cons.1 hlex
    rw [joined_cons, List.append_assoc]
    exact lex_lexeme (t := .op o) trivial (Token.endsAt_of_isArithmetic ho _) (ih hlex hcs hts)
  | number hc ih =>
    obtain ⟨ht, hlex⟩ := List.forall_mem_cons.1 hlex
    rw [joined_cons, List.append_assoc]
    exact lex_lexeme ht (Token.endsAt_number (breaks_joined hc hcs)) (ih hlex hcs hts)
  | @name w _ _ _ hc ih =>
    obtain ⟨ht, hlex⟩ := List.forall_mem_cons.1 hlex
    rw [joined_cons, List.append_assoc]
    exact lex_lexeme (t := .word w) ht (breaks_joined hc hcs) (ih hlex hcs hts)
  | group _ _ ihe ih =>
    have hes := fun t ht => hlex t (List.mem_append_left _ (List.mem_cons_of_mem _ ht))
    have hus := fun t ht => hlex t (List.mem_append_right _ (List.mem_cons_of_mem _ ht))
    have := lex_parens (ihe hes) (ih hus hcs hts)
    simpa [Token.render] using this
  | @call f _ _ _ _ _ _ ihe ih =>
    obtain ⟨hf, hlex⟩ := List.forall_mem_cons.1 hlex
    have hes := fun t ht => hlex t (List.mem_append_left _ (List.mem_cons_of_mem _ ht))
    have hus := fun t ht => hlex t (List.mem_append_right _ (List.mem_cons_of_mem _ ht))
    have : lex (f.name.toList ++ _) = _ :=
      lex_lexeme (t := .word f.name) hf (breaks_cons rfl _) (lex_parens (ihe hes) (ih hus hcs hts))
    simpa [render_call] using this
  | @sign o _ _ ho _ ih =>
    obtain ⟨-, hlex⟩ := List.forall_mem_cons.1 hlex
    have hop : o.isArithmetic = true := by simp [Operator.isArithmetic, ho]
    rw [joined_cons, List.append_assoc]
    exact lex_lexeme (t := .op o) trivial (Token.endsAt_of_isArithmetic hop _) (ih hlex hcs hts)
  | unsigned _ ih => exact ih hlex hcs hts

/-! ## Statements -/

namespace Statement

theorem IsExpression.spells {us : List Token} {e : Token} (h : IsExpression us e)
    (hlex : ∀ t ∈ us, t.IsLexeme) : Spells e.render us := by
  obtain ⟨ps, hc, rfl⟩ := h
  intro cs ts hcs hts
  exact lex_joined hc hlex hcs.breaks hts

theorem IsVariable.spells {us : List Token} {v : Token} (h : IsVariable us v)
    (hlex : ∀ t ∈ us, t.IsLexeme) : Spells v.render us := by
  obtain ⟨rfl, -⟩ := h
  exact spells_lexeme (hlex v (by simp))

theorem IsItem.spells {us : List Token} {a : Token} (h : IsItem us a)
    (hlex : ∀ t ∈ us, t.IsLexeme) : Spells a.render us := by
  rcases h with ⟨text, rfl, rfl⟩ | he
  · exact spells_lexeme (hlex _ (by simp))
  · exact he.spells hlex

theorem Listed.ne_nil {P : List Token → Token → Prop} {us args : List Token} (h : Listed P us args) :
    ∃ a as, args = a :: as := by
  cases h with
  | one => exact ⟨_, _, rfl⟩
  | more => exact ⟨_, _, rfl⟩

theorem Listed.spells {P : List Token → Token → Prop}
    (hP : ∀ {us a}, P us a → (∀ t ∈ us, t.IsLexeme) → Spells a.render us)
    {us args : List Token} (h : Listed P us args) (hlex : ∀ t ∈ us, t.IsLexeme) :
    Spells (", ".intercalate (Token.renderAll args)) us := by
  induction h with
  | one hu => exact hP hu hlex
  | more hu hv ih =>
    have hhead := hP hu (fun t ht => hlex t (List.mem_append_left _ ht))
    have htail := ih (fun t ht => hlex t (List.mem_append_right _ (List.mem_cons_of_mem _ ht)))
    obtain ⟨b, bs, rfl⟩ := hv.ne_nil
    have := hhead.comma htail
    simpa [Token.renderAll, String.intercalate_cons_cons] using this

/-- A statement without its label spells the tokens that it was read from. -/
theorem Derives.spells {us : List Token} {s : Statement} (h : Derives us s)
    (hlex : ∀ t ∈ us, t.IsLexeme) : Spells s.render us := by
  induction h with
  | @simple k ts args hk =>
    obtain ⟨hw, hts⟩ := List.forall_mem_cons.1 hlex
    cases k with
    | print =>
      obtain ⟨a, as, rfl⟩ := Listed.ne_nil hk
      exact (spells_word hw).space (Listed.spells IsItem.spells hk hts)
    | input =>
      obtain ⟨a, as, rfl⟩ := Listed.ne_nil hk
      exact (spells_word hw).space (Listed.spells IsVariable.spells hk hts)
    | assign =>
      obtain ⟨vs, v, es, e, rfl, rfl, hv, he⟩ := hk
      have hv := hv.spells (fun t ht => hts t (List.mem_append_left _ ht))
      have he := he.spells (fun t ht => hts t (List.mem_append_right _ (List.mem_cons_of_mem _ ht)))
      have := ((spells_word hw).space hv).space ((spells_op .equal).space he)
      rw [Statement.render]
      convert this using 1
      · simp [← String.toList_inj, Keyword.render, Operator.render]
      · simp
    | goto | gosub =>
      obtain ⟨e, rfl, he⟩ := hk
      exact (spells_word hw).space (he.spells hts)
    | remark =>
      obtain ⟨-, rfl⟩ := hk
      cases ts with
      | nil => exact spells_word hw
      | cons t ts => exact (spells_word hw).space (spells_intercalate hts)
    | ret | clear | list | run | stop =>
      obtain ⟨rfl, rfl⟩ := hk
      exact spells_word hw
    | cond | blank => exact hk.elim
  | @cond as bs ts a b o s ha ho hb _ ih =>
    simp only [List.forall_mem_append, List.forall_mem_cons] at hlex
    obtain ⟨⟨⟨hif, has⟩, -, hbs⟩, hthen, hts⟩ := hlex
    have hcond := ((ha.spells has).space (spells_op o)).space (hb.spells hbs)
    have := ((spells_word hif).space hcond).space ((spells_word hthen).space (ih hts))
    rw [Statement.render]
    convert this using 1
    · simp [← String.toList_inj, Token.render]
    · simp

/-! ## Labels -/

/-- The digits of a label. -/
def labelText : Option Label → List Char
  | none => []
  | some l => (toString l).toList

/-- What stands between a label and its statement. -/
def labelGap : Option Label → List Char
  | none => []
  | some _ => [' ']

theorem isDigit_labelText (l : Option Label) : ∀ c ∈ labelText l, c.isDigit = true := by
  cases l with
  | none => simp [labelText]
  | some l =>
    intro c hc
    rw [labelText, Nat.toString_eq_repr, Nat.toList_repr] at hc
    exact Nat.isDigit_of_mem_toDigits (by decide) (by decide) hc

theorem isSpace_labelGap (l : Option Label) : ∀ c ∈ labelGap l, isSpace c = true := by
  cases l with
  | none => simp [labelGap]
  | some l =>
    intro c hc
    cases List.mem_singleton.1 hc
    decide

theorem labelText_ne_nil (l : Label) : labelText (some l) ≠ [] := by
  rw [labelText, Nat.toString_eq_repr, Nat.toList_repr]
  exact Nat.toDigits_ne_nil

theorem decimal?_labelText (l : Label) : Text.decimal? (labelText (some l)) = some l := by
  have hall : (labelText (some l)).all Char.isDigit = true :=
    List.all_eq_true.2 (isDigit_labelText (some l))
  rw [Text.decimal?, if_pos (by simp [labelText_ne_nil, hall]), labelText, Nat.toString_eq_repr,
    Nat.toList_repr]
  exact congrArg some Nat.ofDigitChars_ten_toDigits

/-- A label that was read is read again from its digits, however many zeros it had before. -/
theorem labels_labelText {ls : List Token} {l : Option Label} (h : Labels ls l) :
    Labels (labelTokens (labelText l)) l := by
  cases h with
  | none => exact .none
  | @some digits l hl =>
    obtain ⟨-, hrange⟩ := Option.filter_eq_some_iff.1 hl
    rw [labelTokens, if_neg (labelText_ne_nil l)]
    refine .some ?_
    rw [String.toList_ofList, label?, decimal?_labelText]
    exact Option.filter_eq_some_iff.2 ⟨rfl, hrange⟩

/-! ## Lines -/

/-- The statement with its label. -/
def source (s : Statement) : String :=
  match s.label with
  | none => s.render
  | some l => toString l ++ " " ++ s.render

theorem toList_source (s : Statement) :
    s.source.toList = labelText s.label ++ (labelGap s.label ++ s.render.toList) := by
  unfold source
  cases s.label with
  | none => rfl
  | some l => simp [labelText, labelGap]

/-- The label is no part of the text of a statement. -/
theorem render_label (s : Statement) (l : Option Label) : { s with label := l }.render = s.render := by
  obtain ⟨k, args, l'⟩ := s
  cases k <;> rcases args with _ | ⟨a, _ | ⟨b, _ | ⟨c, _ | ⟨d, _ | _⟩⟩⟩⟩ <;> rfl

theorem IsBody.lex_render {us : List Token} {b : Statement} (h : IsBody us b)
    (hlex : ∀ t ∈ us, t.IsLexeme) : lex b.render.toList = .ok us := by
  rcases h with ⟨rfl, rfl⟩ | h
  · exact lex.eq_1
  · exact (h.spells hlex).lex_eq

/-- A line is lexed into the tokens of its label and of its statement. -/
theorem lex_source {us : List Token} {b : Statement} (hb : IsBody us b)
    (hlex : ∀ t ∈ us, t.IsLexeme) (l : Option Label) :
    lex ({ b with label := l }.source).toList = .ok (labelTokens (labelText l) ++ us) := by
  rw [toList_source, render_label]
  cases l with
  | none => exact hb.lex_render hlex
  | some l =>
    refine lex_digits_append (isDigit_labelText _) (by simp [labelGap]) ?_
    rw [lex_append_of_isSpace (isSpace_labelGap _)]
    exact hb.lex_render hlex

theorem parse_eq_of_readLine {text : String} {ts : List Token} {s : Statement}
    (hsplit : splitRemark text.toList = (text.toList, none)) (hlex : lex text.toList = .ok ts)
    (hline : readLine ts = .done s []) : parse text = .ok s := by
  simp only [parse, hsplit, hlex, Except.bind, hline, Option.map_none]

theorem readLine_of_parse {text : String} {code : List Char} {s : Statement}
    (hsplit : splitRemark text.toList = (code, none)) (h : parse text = .ok s) :
    ∃ ts, lex code = .ok ts ∧ readLine ts = .done s [] := by
  simp only [parse, hsplit, Option.map_none] at h
  cases hlex : lex code with
  | error e =>
    rw [hlex] at h
    cases h
  | ok ts =>
    refine ⟨ts, rfl, ?_⟩
    simp only [hlex, Except.bind] at h
    split at h
    · cases h
    · cases h
    · next hline =>
      cases h
      exact hline

/-! ## Remarks -/

/-- The text of a remark as its rendering has it. -/
def retyped (text : List Char) : List Char :=
  if Text.trim text = [] then [] else ' ' :: Text.trim text

theorem breaks_retyped (text : List Char) : Breaks (retyped text) := by
  unfold retyped
  split
  · exact breaks_nil
  · exact breaks_cons (by decide) _

theorem textArgs_retyped (text : List Char) : textArgs (retyped text) = textArgs text := by
  unfold retyped
  split
  · next h =>
    rw [textArgs, textArgs, if_pos h]
    rfl
  · rw [textArgs, trim_space_trim, textArgs]

theorem toList_render_remark (text : List Char) (l : Option Label) :
    (⟨.remark, textArgs text, l⟩ : Statement).render.toList = 'R' :: 'E' :: 'M' :: retyped text := by
  unfold textArgs retyped
  split
  · simp [render, Token.renderAll]
  · simp [render, Token.renderAll, Token.render, String.intercalate_cons_cons]

theorem isRemark_source (text : List Char) (l : Option Label) :
    IsRemark (⟨.remark, textArgs text, l⟩ : Statement).source.toList [] (labelText l) (labelGap l)
      (retyped text) where
  text := by rw [toList_source, toList_render_remark]; rfl
  lead := by simp
  digits := isDigit_labelText l
  gap := isSpace_labelGap l
  rest := breaks_retyped text

/-- A line that was read is read again, as the same statement, from its label and its rendering. -/
theorem parse_source {text : String} {s : Statement} (h : parse text = .ok s) :
    parse s.source = .ok s := by
  cases hsplit : splitRemark text.toList with
  | mk code remark =>
    cases remark with
    | some rest =>
      obtain ⟨lead, digits, gap, hr⟩ := isRemark_of_splitRemark hsplit
      obtain ⟨l, hl, rfl⟩ := hr.parse_inv h
      rw [(isRemark_source rest l).parse_eq_ok (labels_labelText hl), textArgs_retyped]
    | none =>
      obtain ⟨ts, hlex, hline⟩ := readLine_of_parse hsplit h
      obtain ⟨ls, us, es, l, b, rfl, hl, hb, he, rfl⟩ := readLine_eq_done hline
      have hus : ∀ t ∈ us, t.IsLexeme := fun t ht => isLexeme_of_lex hlex t (by simp [ht])
      have hl' := labels_labelText hl
      have hsource := lex_source hb hus l
      rw [← List.append_nil us] at hsource
      -- neither text starts with the word that makes a remark
      have hword : (us ++ []).head? ≠ some (.word "REM") := by
        obtain rfl := code_of_splitRemark hsplit
        have hne := head_ne_rem hsplit (lex_unlabelled hlex)
        rw [afterLabel_of_labels hl hb he] at hne
        intro hw
        obtain ⟨vs, hvs⟩ := List.head?_eq_some_iff.1 hw
        rw [List.append_nil] at hvs
        exact hne (by rw [hvs]; rfl)
      have hsplit' := splitRemark_eq_none (lex_unlabelled hsource)
        (by rwa [afterLabel_of_labels hl' hb .stop])
      exact parse_eq_of_readLine hsplit' hsource (readLine_of_isBody hl' hb .stop)

/-- Zeros in front of a label, spaces and the spelling of an operator are lost; the statement is
not. -/
theorem parse_source_remark_after_then :
    ∃ s, parse "007 IF A><RND( 2 ) THEN REM B >< \"C\"" = .ok s ∧
      s.source = "7 IF A <> RND(2) THEN REM B <> \"C\"" ∧ parse s.source = .ok s := by
  have h : parse "007 IF A><RND( 2 ) THEN REM B >< \"C\"" =
      .ok ⟨.cond, [.expression [.word "A"], .op .notEqual,
        .expression [.call .rnd [.expression [.number "2"]]],
        .statement ⟨.remark, [.unknown "B <> \"C\""], none⟩], some 7⟩ := by decide +kernel
  exact ⟨_, h, by decide +kernel, parse_source h⟩

end Statement

end LineBasic
