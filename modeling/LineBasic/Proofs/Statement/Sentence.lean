import LineBasic.Proofs.Expression.Meaning
import LineBasic.Proofs.Statement.Sound

/-!
# Syntax trees of lines

A `Clause` is a derivation of a statement, a `Sentence` one of a line: a label or none, and a clause
or none. `tokens` is the text that such a tree derives, `statement` what it stands for. The line
reader accepts a line if and only if its tokens are those of a sentence, and returns the statement of
that sentence (`readLine_iff_sentence`).
-/
namespace LineBasic.Statement

open Expression (Tree Letter Numeral natValue)

/-! ## Trees -/

/-- What a `PRINT` is given: a text or an expression. -/
inductive Item where
  | text (s : String)
  | value (e : Tree)

/-- An operator between the two sides of a condition. -/
abbrev Comparison := { o : Operator // o.isRelational = true }

/-- The statements that lead to a line. -/
inductive Transfer where
  | goto
  | gosub
deriving DecidableEq, Repr

/-- The statements of a single word. -/
inductive Command where
  | ret
  | clear
  | list
  | run
  | stop
deriving DecidableEq, Repr

inductive Clause where
  | assign (v : Letter) (e : Tree)
  | print (item : Item) (more : List Item)
  | input (v : Letter) (more : List Letter)
  | cond (a : Tree) (o : Comparison) (b : Tree) (s : Clause)
  | transfer (t : Transfer) (e : Tree)
  | command (c : Command)
  /-- A remark may hold any tokens. -/
  | remark (ts : List Token)

/-- A numeral that spells a label. -/
abbrev LineNumber := { n : Numeral // 1 ≤ natValue n ∧ natValue n ≤ maxLabel }

structure Sentence where
  number : Option LineNumber
  clause : Option Clause

/-! ## What a tree derives -/

def letterToken (v : Letter) : Token :=
  .word (String.singleton v.1)

/-- The tokens of one or more parts, with commas between them. -/
def commaTokens {α : Type} (tokens : α → List Token) : α → List α → List Token
  | a, [] => tokens a
  | a, b :: more => tokens a ++ .comma :: commaTokens tokens b more

def Item.tokens : Item → List Token
  | text s => [.quoted s]
  | value e => e.tokens

def Transfer.keyword : Transfer → Keyword
  | goto => .goto
  | gosub => .gosub

def Command.keyword : Command → Keyword
  | ret => .ret
  | clear => .clear
  | list => .list
  | run => .run
  | stop => .stop

def Clause.tokens : Clause → List Token
  | assign v e => .word "LET" :: letterToken v :: .op .equal :: e.tokens
  | print item more => .word "PRINT" :: commaTokens Item.tokens item more
  | input v more => .word "INPUT" :: commaTokens (fun v => [letterToken v]) v more
  | cond a o b s => .word "IF" :: a.tokens ++ .op o.1 :: b.tokens ++ .word "THEN" :: s.tokens
  | transfer t e => .word t.keyword.render :: e.tokens
  | command c => [.word c.keyword.render]
  | remark ts => .word "REM" :: ts

def Sentence.tokens (d : Sentence) : List Token :=
  (d.number.map fun n => Token.number n.1.1).toList ++ (d.clause.map Clause.tokens).getD []

/-! ## What a tree stands for -/

def Item.token : Item → Token
  | text s => .quoted s
  | value e => .expression e.flat

def Clause.statement : Clause → Statement
  | assign v e => { keyword := .assign, args := [letterToken v, .expression e.flat] }
  | print item more => { keyword := .print, args := (item :: more).map Item.token }
  | input v more => { keyword := .input, args := (v :: more).map letterToken }
  | cond a o b s =>
    { keyword := .cond
      args := [.expression a.flat, .op o.1, .expression b.flat, .statement s.statement] }
  | transfer t e => { keyword := t.keyword, args := [.expression e.flat] }
  | command c => { keyword := c.keyword }
  | remark ts => { keyword := .remark, args := remarkArgs ts }

/-- A line without a clause stands for a blank statement. -/
def Sentence.statement (d : Sentence) : Statement :=
  { (d.clause.map Clause.statement).getD { keyword := .blank } with
    label := d.number.map fun n => natValue n.1 }

/-! ## The grammar derives every tree -/

theorem isExpression_tokens (e : Tree) : IsExpression e.tokens (.expression e.flat) := by
  have h := e.completes .done
  rw [List.append_nil, List.append_nil] at h
  exact ⟨e.flat, h, rfl⟩

theorem isItem_tokens (i : Item) : IsItem i.tokens i.token := by
  cases i with
  | text s => exact .inl ⟨s, rfl, rfl⟩
  | value e => exact .inr (isExpression_tokens e)

theorem isVariable_letterToken (v : Letter) : IsVariable [letterToken v] (letterToken v) := by
  refine ⟨rfl, ?_⟩
  rw [letterToken, Token.varName?, varName?_singleton v.2]
  rfl

theorem listed_commaTokens {α : Type} {P : List Token → Token → Prop} {tokens : α → List Token}
    {token : α → Token} (h : ∀ a, P (tokens a) (token a)) (a : α) (more : List α) :
    Listed P (commaTokens tokens a more) ((a :: more).map token) := by
  induction more generalizing a with
  | nil => exact .one (h a)
  | cons b more ih => exact .more (h a) (ih b)

theorem Clause.derives {c : Clause} (h : ∀ t ∈ c.tokens, t.isNewline = false) :
    Derives c.tokens c.statement := by
  induction c with
  | assign v e =>
    exact .simple (k := .assign)
      ⟨[letterToken v], _, _, _, rfl, rfl, isVariable_letterToken v, isExpression_tokens e⟩
  | print item more => exact .simple (k := .print) (listed_commaTokens isItem_tokens item more)
  | input v more => exact .simple (k := .input) (listed_commaTokens isVariable_letterToken v more)
  | cond a o b s ih =>
    refine .cond (isExpression_tokens a) o.2 (isExpression_tokens b) (ih (fun t ht => h t ?_))
    simp [Clause.tokens, ht]
  | transfer t e => cases t <;> exact .simple ⟨_, rfl, isExpression_tokens e⟩
  | command c => cases c <;> exact .simple ⟨rfl, rfl⟩
  | remark ts => exact .simple (k := .remark) ⟨fun t ht => h t (List.mem_cons_of_mem _ ht), rfl⟩

/-! ## The grammar derives nothing else -/

theorem exists_tree_of_isExpression {us : List Token} {e : Token} (h : IsExpression us e)
    (hlex : ∀ t ∈ us, t.IsLexeme) : ∃ x : Tree, x.tokens = us ∧ .expression x.flat = e := by
  obtain ⟨ps, hc, rfl⟩ := h
  obtain ⟨x, hx, hps⟩ := hc.isTree hlex Expression.allows_nil
  exact ⟨x, hx, congrArg _ hps⟩

theorem exists_item_of_isItem {us : List Token} {a : Token} (h : IsItem us a)
    (hlex : ∀ t ∈ us, t.IsLexeme) : ∃ i : Item, i.tokens = us ∧ i.token = a := by
  rcases h with ⟨s, rfl, rfl⟩ | he
  · exact ⟨.text s, rfl, rfl⟩
  · obtain ⟨e, he, ha⟩ := exists_tree_of_isExpression he hlex
    exact ⟨.value e, he, ha⟩

theorem exists_letter_of_isVariable {us : List Token} {v : Token} (h : IsVariable us v) :
    ∃ x : Letter, [letterToken x] = us ∧ letterToken x = v := by
  obtain ⟨rfl, hv⟩ := h
  obtain ⟨c, hc⟩ := Option.isSome_iff_exists.1 hv
  cases v with
  | word w =>
    obtain ⟨rfl, hu⟩ := varName?_eq_some hc
    exact ⟨⟨c, hu⟩, rfl, rfl⟩
  | _ => cases hc

theorem exists_of_listed {α : Type} {P : List Token → Token → Prop} {tokens : α → List Token}
    {token : α → Token}
    (h : ∀ {us : List Token} {x : Token}, P us x → (∀ t ∈ us, t.IsLexeme) →
      ∃ a, tokens a = us ∧ token a = x)
    {us args : List Token} (hl : Listed P us args) (hlex : ∀ t ∈ us, t.IsLexeme) :
    ∃ a more, commaTokens tokens a more = us ∧ (a :: more).map token = args := by
  induction hl with
  | one hp =>
    obtain ⟨a, rfl, rfl⟩ := h hp hlex
    exact ⟨a, [], rfl, rfl⟩
  | more hp _ ih =>
    obtain ⟨hts, hus⟩ := List.forall_mem_append.1 hlex
    obtain ⟨a, rfl, rfl⟩ := h hp hts
    obtain ⟨b, more, rfl, rfl⟩ := ih (List.forall_mem_cons.1 hus).2
    exact ⟨a, b :: more, rfl, rfl⟩

theorem exists_clause_of_takes {k : Keyword} {ts args : List Token} (h : Takes k ts args)
    (hlex : ∀ t ∈ ts, t.IsLexeme) :
    ∃ c : Clause, c.tokens = .word k.render :: ts ∧ c.statement = ⟨k, args, none⟩ := by
  cases k with
  | print =>
    obtain ⟨i, more, rfl, rfl⟩ := exists_of_listed (P := IsItem) exists_item_of_isItem h hlex
    exact ⟨.print i more, rfl, rfl⟩
  | input =>
    obtain ⟨v, more, rfl, rfl⟩ :=
      exists_of_listed (P := IsVariable) (fun hv _ => exists_letter_of_isVariable hv) h hlex
    exact ⟨.input v more, rfl, rfl⟩
  | assign =>
    obtain ⟨vs, v, es, e, rfl, rfl, hv, he⟩ := h
    obtain ⟨-, hes⟩ := List.forall_mem_append.1 hlex
    obtain ⟨x, rfl, rfl⟩ := exists_letter_of_isVariable hv
    obtain ⟨y, rfl, rfl⟩ := exists_tree_of_isExpression he (List.forall_mem_cons.1 hes).2
    exact ⟨.assign x y, rfl, rfl⟩
  | goto =>
    obtain ⟨e, rfl, he⟩ := h
    obtain ⟨x, rfl, rfl⟩ := exists_tree_of_isExpression he hlex
    exact ⟨.transfer .goto x, rfl, rfl⟩
  | gosub =>
    obtain ⟨e, rfl, he⟩ := h
    obtain ⟨x, rfl, rfl⟩ := exists_tree_of_isExpression he hlex
    exact ⟨.transfer .gosub x, rfl, rfl⟩
  | remark =>
    obtain ⟨-, rfl⟩ := h
    exact ⟨.remark ts, rfl, rfl⟩
  | ret =>
    obtain ⟨rfl, rfl⟩ := h
    exact ⟨.command .ret, rfl, rfl⟩
  | clear =>
    obtain ⟨rfl, rfl⟩ := h
    exact ⟨.command .clear, rfl, rfl⟩
  | list =>
    obtain ⟨rfl, rfl⟩ := h
    exact ⟨.command .list, rfl, rfl⟩
  | run =>
    obtain ⟨rfl, rfl⟩ := h
    exact ⟨.command .run, rfl, rfl⟩
  | stop =>
    obtain ⟨rfl, rfl⟩ := h
    exact ⟨.command .stop, rfl, rfl⟩
  | cond | blank => exact h.elim

theorem Derives.exists_clause {us : List Token} {s : Statement} (h : Derives us s)
    (hlex : ∀ t ∈ us, t.IsLexeme) : ∃ c : Clause, c.tokens = us ∧ c.statement = s := by
  induction h with
  | simple hk => exact exists_clause_of_takes hk (List.forall_mem_cons.1 hlex).2
  | @cond as bs ts a b o s ha ho hb _ ih =>
    simp only [List.forall_mem_append, List.forall_mem_cons] at hlex
    obtain ⟨⟨⟨-, has⟩, -, hbs⟩, -, hts⟩ := hlex
    obtain ⟨x, rfl, rfl⟩ := exists_tree_of_isExpression ha has
    obtain ⟨y, rfl, rfl⟩ := exists_tree_of_isExpression hb hbs
    obtain ⟨c, rfl, rfl⟩ := ih hts
    exact ⟨.cond x ⟨o, ho⟩ y c, rfl, rfl⟩

/-! ## Where a line ends -/

theorem isNewline_of_completes {due : Expression.Due} {us ps : List Token}
    (h : Expression.Completes due us ps) : ∀ t ∈ us, t.isNewline = false := by
  induction h with
  | done => simp
  | unsigned _ ih => exact ih
  | binary _ _ ih | number _ ih | name _ _ ih | sign _ _ ih =>
    exact List.forall_mem_cons.2 ⟨rfl, ih⟩
  | group _ _ ihe ih =>
    exact List.forall_mem_append.2
      ⟨List.forall_mem_cons.2 ⟨rfl, ihe⟩, List.forall_mem_cons.2 ⟨rfl, ih⟩⟩
  | call _ _ ihe ih =>
    exact List.forall_mem_append.2
      ⟨List.forall_mem_cons.2 ⟨rfl, List.forall_mem_cons.2 ⟨rfl, ihe⟩⟩, List.forall_mem_cons.2 ⟨rfl, ih⟩⟩

theorem isNewline_of_listed {P : List Token → Token → Prop}
    (hP : ∀ {us : List Token} {a : Token}, P us a → ∀ t ∈ us, t.isNewline = false)
    {us args : List Token} (h : Listed P us args) : ∀ t ∈ us, t.isNewline = false := by
  induction h with
  | one hu => exact hP hu
  | more hu _ ih => exact List.forall_mem_append.2 ⟨hP hu, List.forall_mem_cons.2 ⟨rfl, ih⟩⟩

theorem IsExpression.isNewline {us : List Token} {e : Token} (h : IsExpression us e) :
    ∀ t ∈ us, t.isNewline = false := by
  obtain ⟨ps, hc, -⟩ := h
  exact isNewline_of_completes hc

theorem IsItem.isNewline {us : List Token} {a : Token} (h : IsItem us a) :
    ∀ t ∈ us, t.isNewline = false := by
  rcases h with ⟨s, rfl, -⟩ | he
  · exact List.forall_mem_singleton.2 rfl
  · exact he.isNewline

theorem IsVariable.isNewline {us : List Token} {v : Token} (h : IsVariable us v) :
    ∀ t ∈ us, t.isNewline = false := by
  obtain ⟨x, rfl, -⟩ := exists_letter_of_isVariable h
  exact List.forall_mem_singleton.2 rfl

theorem isNewline_of_takes {k : Keyword} {ts args : List Token} (h : Takes k ts args) :
    ∀ t ∈ ts, t.isNewline = false := by
  cases k with
  | print => exact isNewline_of_listed IsItem.isNewline h
  | input => exact isNewline_of_listed IsVariable.isNewline h
  | assign =>
    obtain ⟨vs, v, es, e, rfl, -, hv, he⟩ := h
    exact List.forall_mem_append.2 ⟨hv.isNewline, List.forall_mem_cons.2 ⟨rfl, he.isNewline⟩⟩
  | goto | gosub =>
    obtain ⟨e, -, he⟩ := h
    exact he.isNewline
  | remark => exact h.1
  | ret | clear | list | run | stop =>
    obtain ⟨rfl, -⟩ := h
    simp
  | cond | blank => exact h.elim

theorem Derives.isNewline {us : List Token} {s : Statement} (h : Derives us s) :
    ∀ t ∈ us, t.isNewline = false := by
  induction h with
  | simple hk => exact List.forall_mem_cons.2 ⟨rfl, isNewline_of_takes hk⟩
  | cond ha _ hb _ ih =>
    simp only [List.forall_mem_append, List.forall_mem_cons]
    exact ⟨⟨⟨rfl, ha.isNewline⟩, rfl, hb.isNewline⟩, rfl, ih⟩

theorem IsBody.isNewline {us : List Token} {b : Statement} (h : IsBody us b) :
    ∀ t ∈ us, t.isNewline = false := by
  rcases h with ⟨rfl, -⟩ | h
  · simp
  · exact h.isNewline

theorem Labels.isNewline {ls : List Token} {l : Option Label} (h : Labels ls l) :
    ∀ t ∈ ls, t.isNewline = false := by
  cases h with
  | none => simp
  | some => exact List.forall_mem_singleton.2 rfl

/-! ## Labels -/

theorem label?_numeral (n : Numeral) :
    label? n.1.toList = if 1 ≤ natValue n ∧ natValue n ≤ maxLabel then some (natValue n) else none := by
  have hdecimal : Text.decimal? n.1.toList = some (natValue n) := by
    have hdigits : (n.1.toList ≠ [] && n.1.toList.all Char.isDigit) = true := by
      rw [Bool.and_eq_true, decide_eq_true_eq, List.all_eq_true]
      exact n.2
    rw [Text.decimal?, if_pos hdigits, Expression.natValue_eq_foldl]
  rw [label?, hdecimal, Option.filter_some]
  simp

theorem labels_number (n : Option LineNumber) :
    Labels (n.map fun n => Token.number n.1.1).toList (n.map fun n => natValue n.1) := by
  cases n with
  | none => exact .none
  | some n =>
    refine .some ?_
    rw [label?_numeral, if_pos n.2]

theorem Labels.exists_number {ls : List Token} {l : Option Label} (h : Labels ls l)
    (hlex : ∀ t ∈ ls, t.IsLexeme) :
    ∃ n : Option LineNumber, (n.map fun n => Token.number n.1.1).toList = ls ∧
      (n.map fun n => natValue n.1) = l := by
  cases h with
  | none => exact ⟨.none, rfl, rfl⟩
  | @some digits l hl =>
    have hnum : (Token.number digits).IsLexeme := hlex _ (by simp)
    rw [label?_numeral ⟨digits, hnum⟩] at hl
    split at hl
    · next hrange =>
      cases hl
      exact ⟨.some ⟨⟨digits, hnum⟩, hrange⟩, rfl, rfl⟩
    · cases hl

/-! ## Lines -/

/-- The tokens from a position up to the end of the line. -/
def lineAt (ts : List Token) (pos : Nat) : List Token :=
  (ts.drop pos).takeWhile (!·.isNewline)

theorem exists_ends (ts : List Token) (pos : Nat) :
    ∃ es, ts.drop pos = lineAt ts pos ++ es ∧ Ends es (ts.drop (pos + (lineAt ts pos).length + 1)) := by
  have hsplit := List.takeWhile_append_dropWhile (p := (!Token.isNewline ·)) (l := ts.drop pos)
  refine ⟨_, hsplit.symm, ?_⟩
  have hrest : ts.drop (pos + (lineAt ts pos).length + 1) =
      ((ts.drop pos).dropWhile (!·.isNewline)).drop 1 := by
    rw [Nat.add_assoc, ← List.drop_drop, ← List.drop_drop]
    nth_rewrite 1 [← hsplit]
    rw [← lineAt, List.drop_left]
  rw [hrest]
  cases hes : (ts.drop pos).dropWhile (!·.isNewline) with
  | nil => exact .stop
  | cons t es =>
    have ht : t.isNewline = true := by
      simpa using head_dropWhile (!Token.isNewline ·) (ts.drop pos) t (by rw [hes]; rfl)
    cases t with
    | newline => exact .newline
    | _ => cases ht

theorem isBody_of_clause (c : Option Clause)
    (h : ∀ t ∈ (c.map Clause.tokens).getD [], t.isNewline = false) :
    IsBody ((c.map Clause.tokens).getD []) ((c.map Clause.statement).getD { keyword := .blank }) := by
  cases c with
  | none => exact .inl ⟨rfl, rfl⟩
  | some c => exact .inr (Clause.derives h)

theorem IsBody.exists_clause {us : List Token} {b : Statement} (h : IsBody us b)
    (hlex : ∀ t ∈ us, t.IsLexeme) :
    ∃ c : Option Clause, (c.map Clause.tokens).getD [] = us ∧
      (c.map Clause.statement).getD { keyword := .blank } = b := by
  rcases h with ⟨rfl, rfl⟩ | h
  · exact ⟨none, rfl, rfl⟩
  · obtain ⟨c, hc, hs⟩ := h.exists_clause hlex
    exact ⟨some c, hc, hs⟩

theorem Ends.eq_drop {es rest : List Token} (h : Ends es rest) : rest = es.drop 1 := by
  cases h <;> rfl

/-- Reading a line from any position of a text succeeds if and only if the tokens up to the line's
end are those of a sentence. It returns the statement of the sentence, and goes on behind the line's
end. -/
theorem readLine_iff_sentence {cs : List Char} {ts : List Token} (hlex : lex cs = .ok ts) (pos : Nat)
    (s : Statement) (rest : List Token) :
    readLine (ts.drop pos) = .done s rest ↔
      (∃ d : Sentence, d.tokens = lineAt ts pos ∧ d.statement = s) ∧
        rest = ts.drop (pos + (lineAt ts pos).length + 1) := by
  obtain ⟨es, hts, hends⟩ := exists_ends ts pos
  rw [hts]
  constructor
  · intro h
    obtain ⟨ls, us, es', l, b, hls, hl, hb, he, rfl⟩ := readLine_eq_done h
    -- neither the label nor the statement runs over the line's end
    have hnew : ∀ t ∈ ls ++ us, t.isNewline = false := List.forall_mem_append.2 ⟨hl.isNewline, hb.isNewline⟩
    have hline : lineAt ts pos = ls ++ us := by
      rw [lineAt, hts, hls, ← List.append_assoc]
      exact (takeWhile_append_of_head (fun t ht => by simp [hnew t ht])
        (fun t ht => by simp [he.atEnd t ht])).1
    obtain rfl : es = es' := by
      rw [hline, List.append_assoc] at hls
      exact List.append_cancel_left (List.append_cancel_left hls)
    have hlexeme : ∀ t ∈ ts.drop pos, t.IsLexeme :=
      fun t ht => isLexeme_of_lex hlex t (List.mem_of_mem_drop ht)
    rw [hts, hls] at hlexeme
    obtain ⟨n, rfl, rfl⟩ := hl.exists_number (fun t ht => hlexeme t (by simp [ht]))
    obtain ⟨c, rfl, rfl⟩ := hb.exists_clause (fun t ht => hlexeme t (by simp [ht]))
    exact ⟨⟨⟨n, c⟩, hline.symm, rfl⟩, he.eq_drop.trans hends.eq_drop.symm⟩
  · rintro ⟨⟨d, hd, rfl⟩, rfl⟩
    have hnew : ∀ t ∈ d.tokens, t.isNewline = false := by
      rw [hd]
      intro t ht
      simpa using List.mem_takeWhile_imp ht
    have hb := isBody_of_clause d.clause (List.forall_mem_append.1 hnew).2
    have hread := readLine_of_isBody (labels_number d.number) hb hends
    rwa [← List.append_assoc, ← Sentence.tokens, hd] at hread

/-- The line `20 IF A<>RND(2) THEN PRINT "X",B`. -/
def sampleSentence : Sentence where
  number := some ⟨⟨"20", by decide, List.all_eq_true.1 rfl⟩, by decide⟩
  clause := some (.cond (.signed [] (.factor (.letter ⟨'A', rfl⟩))) ⟨.notEqual, rfl⟩
    (.signed [] (.factor (.call .rnd
      (.signed [] (.factor (.number ⟨"2", by decide, List.all_eq_true.1 rfl⟩))))))
    (.print (.text "X") [.value (.signed [] (.factor (.letter ⟨'B', rfl⟩)))]))

theorem readLine_iff_sentence_second_line :
    ∃ ts, lex "1 END\n20 IF A<>RND(2) THEN PRINT \"X\",B\nRUN".toList = .ok ts ∧
      sampleSentence.tokens = lineAt ts 3 ∧
      readLine (ts.drop 3) =
        .done ⟨.cond, [.expression [.word "A"], .op .notEqual,
          .expression [.call .rnd [.expression [.number "2"]]],
          .statement ⟨.print, [.quoted "X", .expression [.word "B"]], none⟩], some 20⟩ [.word "RUN"] := by
  have hlex : lex "1 END\n20 IF A<>RND(2) THEN PRINT \"X\",B\nRUN".toList =
      .ok ([.number "1", .word "END", .newline] ++ sampleSentence.tokens ++ [.newline, .word "RUN"]) := by
    decide +kernel
  refine ⟨_, hlex, by decide +kernel, (readLine_iff_sentence hlex 3 _ _).2 ⟨⟨sampleSentence, ?_, ?_⟩, ?_⟩⟩
  all_goals decide +kernel

end LineBasic.Statement
