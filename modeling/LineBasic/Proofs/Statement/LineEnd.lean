import LineBasic.Proofs.Statement.Refusal

/-!
# What stands behind a line

No reader looks beyond the line feed that ends a line: with more lines behind it, a line gives the same
statement, or else an error of the same code at the same label (`readLine_newline`). Only the text of the
error may differ, because it says what was found in place of what was due, and that may be the line feed.
-/
namespace LineBasic

namespace Reading

variable {α β : Type} {tail : List Token}

/-- What is read of some tokens and what is read of them with `tail` behind: the same value, or two
errors of one code that are on no line yet. -/
inductive Alike (tail : List Token) : Reading α → Reading α → Prop
  | done (a : α) (rest : List Token) : Alike tail (.done a rest) (.done a (rest ++ tail))
  | stuck {e e' : Error} (rest rest' : List Token) (hcode : e'.code = e.code) (h : e.label = none)
      (h' : e'.label = none) : Alike tail (.stuck e rest) (.stuck e' rest')

theorem Alike.map {r r' : Reading α} (h : Alike tail r r') (f : α → β) :
    Alike tail (r.map f) (r'.map f) := by
  cases h with
  | done a rest => exact .done (f a) rest
  | stuck rest rest' hcode h h' => exact .stuck rest rest' hcode h h'

theorem Alike.bind {r r' : Reading α} {f : α → List Token → Reading β} (h : Alike tail r r')
    (hf : ∀ a rest, Alike tail (f a rest) (f a (rest ++ tail))) : Alike tail (r.bind f) (r'.bind f) := by
  cases h with
  | done a rest => exact hf a rest
  | stuck rest rest' hcode h h' => exact .stuck rest rest' hcode h h'

theorem Alike.of_done {r : Reading α} {a : α} {rest : List Token} (h : Alike tail (.done a rest) r) :
    r = .done a (rest ++ tail) := by
  cases h
  rfl

theorem Alike.of_stuck {r : Reading α} {e : Error} {rest : List Token}
    (h : Alike tail (.stuck e rest) r) :
    ∃ e' rest', r = .stuck e' rest' ∧ e'.code = e.code ∧ e.label = none ∧ e'.label = none := by
  cases h with
  | stuck _ rest' hcode h h' => exact ⟨_, rest', rfl, hcode, h, h'⟩

end Reading

/-! ## Expressions -/

namespace Expression

theorem belongs_newline (t : Token) : belongs t (some .newline) = belongs t none := by
  cases t <;> rfl

theorem spanLength_newline (ts us : List Token) : spanLength (ts ++ .newline :: us) = spanLength ts := by
  induction ts with
  | nil => rfl
  | cons t ts ih =>
    have hhead : belongs t (ts ++ .newline :: us).head? = belongs t ts.head? := by
      cases ts with
      | nil => exact belongs_newline t
      | cons => rfl
    rw [List.cons_append, spanLength, spanLength, ih, hhead]

/-- An expression ends before the line does. -/
theorem read_newline (ts us : List Token) :
    read (ts ++ .newline :: us) = (read ts).map fun r => (r.1, r.2 ++ .newline :: us) := by
  have hle := spanLength_le ts
  simp only [read, spanLength_newline, List.take_append_of_le_length hle, List.drop_append_of_le_length hle]
  cases parse (ts.take (spanLength ts)) <;> rfl

end Expression

namespace Statement

open Reading

/-! ## Parts of a statement -/

section

variable (ts us : List Token)

theorem alike_readExpression :
    Alike (.newline :: us) (readExpression ts) (readExpression (ts ++ .newline :: us)) := by
  have hrejects := Expression.rejects_read ts
  rw [readExpression, readExpression, Expression.read_newline]
  cases hr : Expression.read ts with
  | ok r => exact .done r.1 r.2
  | error e =>
    have he := (hrejects e hr).2
    exact .stuck ts _ rfl he he

theorem alike_readVariable :
    Alike (.newline :: us) (readVariable ts) (readVariable (ts ++ .newline :: us)) := by
  cases ts with
  | nil => exact .stuck _ _ rfl rfl rfl
  | cons t ts =>
    rw [List.cons_append]
    unfold readVariable
    dsimp only
    split
    · exact .done t ts
    · cases t <;> exact .stuck _ _ rfl rfl rfl

theorem alike_readItem :
    Alike (.newline :: us) (readItem ts) (readItem (ts ++ .newline :: us)) := by
  cases ts with
  | nil => exact alike_readExpression [] us
  | cons t ts =>
    cases t with
    | quoted text => exact .done _ ts
    | _ => exact alike_readExpression _ us

theorem alike_readAssignment :
    Alike (.newline :: us) (readAssignment ts) (readAssignment (ts ++ .newline :: us)) := by
  refine (alike_readVariable ts us).bind fun v rest => ?_
  cases rest with
  | nil => exact .stuck _ _ rfl rfl rfl
  | cons t rest =>
    cases t with
    | op o =>
      cases o with
      | equal => exact (alike_readExpression rest us).map _
      | _ => exact .stuck _ _ rfl rfl rfl
    | _ => exact .stuck _ _ rfl rfl rfl

theorem alike_readRelation :
    Alike (.newline :: us) (readRelation ts) (readRelation (ts ++ .newline :: us)) := by
  cases ts with
  | nil => exact .stuck _ _ rfl rfl rfl
  | cons t ts =>
    cases t with
    | op o =>
      rw [List.cons_append, readRelation, readRelation]
      split
      · exact .done o ts
      · exact .stuck _ _ rfl rfl rfl
    | _ => exact .stuck _ _ rfl rfl rfl

theorem alike_readThen :
    Alike (.newline :: us) (readThen ts) (readThen (ts ++ .newline :: us)) := by
  cases ts with
  | nil => exact .stuck _ _ rfl rfl rfl
  | cons t ts =>
    cases t with
    | word w =>
      rw [List.cons_append, readThen, readThen]
      split
      · exact .done () ts
      · exact .stuck _ _ rfl rfl rfl
    | _ => exact .stuck _ _ rfl rfl rfl

theorem alike_readCondition :
    Alike (.newline :: us) (readCondition ts) (readCondition (ts ++ .newline :: us)) := by
  refine (alike_readExpression ts us).bind fun a ts => ?_
  refine (alike_readRelation ts us).bind fun o ts => ?_
  exact (alike_readExpression ts us).bind fun b ts => (alike_readThen ts us).map _

theorem alike_readRemark :
    Alike (.newline :: us) (readRemark ts) (readRemark (ts ++ .newline :: us)) := by
  have hcut : (ts ++ .newline :: us).takeWhile (!·.isNewline) = ts.takeWhile (!·.isNewline) ∧
      (ts ++ .newline :: us).dropWhile (!·.isNewline) = ts.dropWhile (!·.isNewline) ++ .newline :: us := by
    induction ts with
    | nil => exact ⟨rfl, rfl⟩
    | cons t ts ih =>
      rw [List.cons_append, List.takeWhile_cons, List.takeWhile_cons, List.dropWhile_cons, List.dropWhile_cons]
      split
      · exact ⟨by rw [ih.1], ih.2⟩
      · exact ⟨rfl, rfl⟩
  rw [readRemark, readRemark, hcut.1, hcut.2]
  exact .done _ _

end

/-! ## Lists -/

section

variable {ts rest : List Token} {t : Token}

theorem readItems_of_stuck {e : Error} (h : readItem ts = .stuck e rest) :
    readItems ts = .stuck e rest := by
  rw [readItems]
  split <;> rename_i heq <;> cases h.symm.trans heq
  rfl

theorem readItems_of_comma (h : readItem ts = .done t (.comma :: rest)) :
    readItems ts = (readItems rest).map (t :: ·) := by
  rw [readItems]
  split
  · next heq => cases h.symm.trans heq
  · next heq =>
    cases h.symm.trans heq
    rfl
  · next hn heq =>
    cases h.symm.trans heq
    exact absurd rfl (hn _)

theorem readItems_of_done (h : readItem ts = .done t rest) (hrest : ∀ us, rest ≠ .comma :: us) :
    readItems ts = .done [t] rest := by
  rw [readItems]
  split
  · next heq => cases h.symm.trans heq
  · next heq =>
    cases h.symm.trans heq
    exact absurd rfl (hrest _)
  · next heq =>
    cases h.symm.trans heq
    rfl

end

theorem alike_readItems (ts us : List Token) :
    Alike (.newline :: us) (readItems ts) (readItems (ts ++ .newline :: us)) := by
  fun_induction readItems ts with
  | case1 ts e rest h =>
    have halike := alike_readItem ts us
    rw [h] at halike
    obtain ⟨e', rest', h', hcode, he, he'⟩ := halike.of_stuck
    rw [readItems_of_stuck h']
    exact .stuck rest rest' hcode he he'
  | case2 ts t rest h ih =>
    have halike := alike_readItem ts us
    rw [h] at halike
    rw [readItems_of_comma halike.of_done]
    exact ih.map _
  | case3 ts t rest hrest h =>
    have halike := alike_readItem ts us
    rw [h] at halike
    have hrest' (vs : List Token) : rest ++ .newline :: us ≠ .comma :: vs := by
      cases rest with
      | nil => simp
      | cons t' rest =>
        intro heq
        cases heq
        exact hrest rest rfl
    rw [readItems_of_done halike.of_done hrest']
    exact .done [t] rest

theorem alike_readVariables (ts us : List Token) :
    Alike (.newline :: us) (readVariables ts) (readVariables (ts ++ .newline :: us)) := by
  fun_induction readVariables ts with
  | case1 t ts ih =>
    rw [List.cons_append, List.cons_append, readVariables]
    have hread := alike_readVariable (t :: .comma :: ts) us
    rw [List.cons_append, List.cons_append] at hread
    cases hr : readVariable (t :: .comma :: ts) with
    | done v rest =>
      rw [hr] at hread
      rw [hread.of_done]
      exact ih.map _
    | stuck e rest =>
      rw [hr] at hread
      obtain ⟨e', rest', hr', hcode, he, he'⟩ := hread.of_stuck
      rw [hr']
      exact .stuck rest rest' hcode he he'
  | case2 ts hts =>
    cases ts with
    | nil =>
      -- behind the line feed there may be a comma, but no variable comes first
      cases us with
      | nil => exact .stuck _ _ rfl rfl rfl
      | cons u us => cases u <;> exact .stuck _ _ rfl rfl rfl
    | cons t ts =>
      cases ts with
      | nil => exact (alike_readVariable [t] us).map _
      | cons t' ts =>
        rw [List.cons_append, List.cons_append, readVariables]
        · exact (alike_readVariable (t :: t' :: ts) us).map _
        · rintro t'' ts'' heq
          cases heq
          exact hts _ _ rfl

/-! ## Statements -/

theorem alike_readArgs (k : Keyword) (ts us : List Token) :
    Alike (.newline :: us) (readArgs k ts) (readArgs k (ts ++ .newline :: us)) := by
  cases k with
  | print => exact alike_readItems ts us
  | assign => exact alike_readAssignment ts us
  | input => exact alike_readVariables ts us
  | goto | gosub => exact (alike_readExpression ts us).map _
  | remark => exact alike_readRemark ts us
  | cond | ret | clear | list | run | stop | blank => exact .done [] ts

theorem read_of_stuck {w : String} {ts rest : List Token} {e : Error} (hw : Keyword.ofWord? w = some .cond)
    (h : readCondition ts = .stuck e rest) : read (.word w :: ts) = .stuck e rest := by
  rw [read, hw]
  dsimp only
  split <;> rename_i heq <;> cases h.symm.trans heq
  rfl

theorem read_of_condition {w : String} {ts rest : List Token} {a b : Token} {o : Operator}
    (hw : Keyword.ofWord? w = some .cond) (h : readCondition ts = .done (a, o, b) rest) :
    read (.word w :: ts) = (read rest).map fun s => ⟨.cond, [a, .op o, b, .statement s], none⟩ := by
  rw [read, hw]
  dsimp only
  split <;> rename_i heq <;> cases h.symm.trans heq
  rfl

theorem read_of_keyword {w : String} {k : Keyword} (hw : Keyword.ofWord? w = some k) (hk : k ≠ .cond)
    (ts : List Token) : read (.word w :: ts) = (readArgs k ts).map (⟨k, ·, none⟩) := by
  rw [read]
  split <;> rename_i heq <;> cases hw.symm.trans heq
  · exact absurd rfl hk
  · rfl

theorem alike_read (ts us : List Token) :
    Alike (.newline :: us) (read ts) (read (ts ++ .newline :: us)) := by
  fun_induction read ts with
  | case1 =>
    rw [List.nil_append, read]
    · exact .stuck _ _ rfl rfl rfl
    · simp
  | case2 w ts hw =>
    rw [List.cons_append, read, hw]
    exact .stuck _ _ rfl rfl rfl
  | case3 w ts hw e rest h =>
    have halike := alike_readCondition ts us
    rw [h] at halike
    obtain ⟨e', rest', h', hcode, he, he'⟩ := halike.of_stuck
    rw [List.cons_append, read_of_stuck hw h']
    exact .stuck rest rest' hcode he he'
  | case4 w ts hw a o b rest h ih =>
    have halike := alike_readCondition ts us
    rw [h] at halike
    rw [List.cons_append, read_of_condition hw halike.of_done]
    exact ih.map _
  | case5 w ts k hk hw =>
    rw [List.cons_append, read_of_keyword hw hk]
    exact (alike_readArgs k ts us).map _
  | case6 t ts ht =>
    rw [List.cons_append, read]
    · exact .stuck _ _ rfl rfl rfl
    · exact ht

/-! ## Lines -/

theorem alike_readLabel (ts us : List Token) :
    Alike (.newline :: us) (readLabel ts) (readLabel (ts ++ .newline :: us)) := by
  cases ts with
  | nil => exact .done none []
  | cons t ts =>
    cases t with
    | number n =>
      rw [List.cons_append, readLabel, readLabel]
      split
      · exact .done _ ts
      · exact .stuck _ _ rfl rfl rfl
    | _ => exact .done none _

theorem alike_readBody (ts us : List Token) :
    Alike (.newline :: us) (readBody ts) (readBody (ts ++ .newline :: us)) := by
  cases ts with
  | nil => exact .done _ []
  | cons t ts =>
    cases t with
    | newline => exact .done _ (.newline :: ts)
    | _ => exact alike_read _ us

section

variable {ts body rest : List Token} {l : Option Label} {b : Statement} {e : Error}

theorem readLine_of_readLabel (hl : readLabel ts = .stuck e rest) :
    readLine ts = .stuck (e.within (Token.excerpt ts rest)) rest := by
  rw [readLine, hl]

theorem readLine_of_readBody (hl : readLabel ts = .done l body) (hb : readBody body = .stuck e rest) :
    readLine ts = .stuck ((e.within (Token.excerpt ts rest)).onLine l) rest := by
  rw [readLine, hl]
  dsimp only
  rw [hb]
  rfl

theorem readLine_of_trailing {t : Token} (hl : readLabel ts = .done l body)
    (hb : readBody body = .done b (t :: rest)) (ht : t ≠ .newline) :
    readLine ts = .stuck ((((Error.Cause.trailing t.render).error.within
      (Token.excerpt ts (t :: rest)))).onLine l) (t :: rest) := by
  have hend : readEnd (t :: rest) = .fail (.trailing t.render) (t :: rest) := by
    rw [readEnd]
    simpa using ht
  rw [readLine, hl]
  dsimp only
  rw [hb, Reading.bind, hend]
  rfl

theorem readLine_of_ends (hl : readLabel ts = .done l body) {es : List Token}
    (hb : readBody body = .done b es) (he : Ends es rest) :
    readLine ts = .done { b with label := l } rest := by
  rw [readLine, hl]
  dsimp only
  rw [hb]
  cases he <;> rfl

end

/-- A line feed behind a line ends it, whatever follows. -/
theorem readLine_newline {us : List Token} (hus : .newline ∉ us) (vs : List Token) :
    (∃ s, readLine us = .done s [] ∧ readLine (us ++ .newline :: vs) = .done s vs) ∨
      ∃ e e' rest rest', readLine us = .stuck e rest ∧ readLine (us ++ .newline :: vs) = .stuck e' rest' ∧
        e'.code = e.code ∧ e'.label = e.label := by
  have hlabel := alike_readLabel us vs
  cases hl : readLabel us with
  | stuck e rest =>
    rw [hl] at hlabel
    obtain ⟨e', rest', hl', hcode, he, he'⟩ := hlabel.of_stuck
    exact .inr ⟨_, _, _, _, readLine_of_readLabel hl, readLine_of_readLabel hl', hcode, he'.trans he.symm⟩
  | done l body =>
    rw [hl] at hlabel
    have hl' := hlabel.of_done
    obtain ⟨ls, rfl, -⟩ := labels_of_readLabel hl
    have hbody := alike_readBody body vs
    cases hb : readBody body with
    | stuck e rest =>
      rw [hb] at hbody
      obtain ⟨e', rest', hb', hcode, he, he'⟩ := hbody.of_stuck
      refine .inr ⟨_, _, _, _, readLine_of_readBody hl hb, readLine_of_readBody hl' hb', hcode, ?_⟩
      show (e'.label <|> l) = (e.label <|> l)
      rw [he, he']
    | done b rest =>
      rw [hb] at hbody
      have hb' := hbody.of_done
      obtain ⟨bs, rfl, -⟩ := isBody_of_readBody hb
      cases rest with
      | nil => exact .inl ⟨_, readLine_of_ends hl hb .stop, readLine_of_ends hl' hb' .newline⟩
      | cons t rest =>
        -- what is left over stands before the line feed
        have ht : t ≠ .newline := by
          rintro rfl
          simp at hus
        exact .inr ⟨_, _, _, _, readLine_of_trailing hl hb ht, readLine_of_trailing hl' hb' ht, rfl, rfl⟩

/-- The error of a line is on that line's label, if the label could be read. -/
theorem label_of_readLine {ts rest : List Token} {e : Error} (h : readLine ts = .stuck e rest) :
    ((∃ e' rest', readLabel ts = .stuck e' rest') ∧ e.label = none) ∨
      ∃ body, readLabel ts = .done e.label body := by
  cases hl : readLabel ts with
  | stuck e' rest' =>
    have hlabel := alike_readLabel ts []
    rw [hl] at hlabel
    obtain ⟨-, -, -, -, he', -⟩ := hlabel.of_stuck
    cases (readLine_of_readLabel hl).symm.trans h
    exact .inl ⟨⟨e', _, rfl⟩, he'⟩
  | done l body =>
    suffices he : e.label = l from .inr ⟨body, by rw [he]⟩
    cases hb : readBody body with
    | stuck e' rest' =>
      have hbody := alike_readBody body []
      rw [hb] at hbody
      obtain ⟨-, -, -, -, he', -⟩ := hbody.of_stuck
      cases (readLine_of_readBody hl hb).symm.trans h
      show (e'.label <|> l) = l
      rw [he']
      rfl
    | done b mid =>
      cases mid with
      | nil => cases (readLine_of_ends hl hb .stop).symm.trans h
      | cons t mid =>
        by_cases ht : t = .newline
        · subst ht
          cases (readLine_of_ends hl hb .newline).symm.trans h
        · cases (readLine_of_trailing hl hb ht).symm.trans h
          rfl

theorem readLabel_of_readLine {ts rest : List Token} {s : Statement} (h : readLine ts = .done s rest) :
    ∃ body, readLabel ts = .done s.label body := by
  unfold readLine at h
  split at h
  · cases h
  · next l body hl =>
    split at h
    · cases h
    · next hbody =>
      cases h
      obtain ⟨b, mid, -, hend⟩ := Reading.bind_eq_done.1 hbody
      obtain ⟨-, -, rfl⟩ := Reading.map_eq_done.1 hend
      exact ⟨body, hl⟩

end Statement

end LineBasic
