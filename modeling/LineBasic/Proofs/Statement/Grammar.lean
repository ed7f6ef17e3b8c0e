import LineBasic.Proofs.Expression.Grammar
import LineBasic.Proofs.Lexeme
import LineBasic.Statement.Parser

/-!
# The grammar of statements

`Derives ts s` says that the tokens `ts` spell the statement `s`, without label and line end. A
reader that succeeds has read such tokens (`derives_of_read`), and it reads them back in front of
any line end (`read_of_derives`).
-/
namespace LineBasic

namespace Reading

variable {α β : Type}

theorem map_eq_done {r : Reading α} {f : α → β} {b : β} {rest : List Token} :
    r.map f = .done b rest ↔ ∃ a, r = .done a rest ∧ f a = b := by
  cases r with
  | stuck e mid => simp [map]
  | done a mid =>
    constructor
    · intro h
      cases h
      exact ⟨a, rfl, rfl⟩
    · rintro ⟨a', h, rfl⟩
      cases h
      rfl

theorem bind_eq_done {r : Reading α} {f : α → List Token → Reading β} {b : β} {rest : List Token} :
    r.bind f = .done b rest ↔ ∃ a mid, r = .done a mid ∧ f a mid = .done b rest := by
  cases r with
  | stuck e mid => simp [bind]
  | done a mid =>
    constructor
    · intro h
      exact ⟨a, mid, rfl, h⟩
    · rintro ⟨a', mid', hr, h⟩
      cases hr
      exact h

end Reading

theorem Keyword.render_of_ofWord? {w : String} {k : Keyword} (h : Keyword.ofWord? w = some k) :
    w = k.render ∧ k ≠ .blank := by
  have hw : k.render = w := by simpa using List.find?_some h
  refine ⟨hw.symm, ?_⟩
  rintro rfl
  exact absurd (List.mem_of_find?_eq_some h) (by decide)

namespace Statement

/-! ## Arguments -/

def IsExpression (ts : List Token) (e : Token) : Prop :=
  ∃ ps, Expression.Completes .signed ts ps ∧ e = .expression ps

/-- A quoted text or an expression. -/
def IsItem (ts : List Token) (a : Token) : Prop :=
  (∃ text, ts = [.quoted text] ∧ a = .quoted text) ∨ IsExpression ts a

def IsVariable (ts : List Token) (v : Token) : Prop :=
  ts = [v] ∧ v.varName?.isSome = true

/-- Arguments with commas between them, each spelled as `P` says. -/
inductive Listed (P : List Token → Token → Prop) : List Token → List Token → Prop
  | one {ts : List Token} {a : Token} : P ts a → Listed P ts [a]
  | more {ts us : List Token} {a : Token} {as : List Token} :
      P ts a → Listed P us as → Listed P (ts ++ .comma :: us) (a :: as)

/-- The argument of a remark with these tokens. -/
def remarkArgs (ts : List Token) : List Token :=
  if ts = [] then [] else [.unknown (" ".intercalate (Token.renderAll ts))]

/-- The tokens that spell the arguments of a keyword other than `cond`. -/
def Takes (k : Keyword) (ts args : List Token) : Prop :=
  match k with
  | .print => Listed IsItem ts args
  | .assign => ∃ vs v es e, ts = vs ++ .op .equal :: es ∧ args = [v, e] ∧ IsVariable vs v ∧ IsExpression es e
  | .input => Listed IsVariable ts args
  | .goto | .gosub => ∃ e, args = [e] ∧ IsExpression ts e
  | .remark => (∀ t ∈ ts, t.isNewline = false) ∧ args = remarkArgs ts
  | .ret | .clear | .list | .run | .stop => ts = [] ∧ args = []
  | .cond | .blank => False

inductive Derives : List Token → Statement → Prop
  | simple {k : Keyword} {ts args : List Token} :
      Takes k ts args → Derives (.word k.render :: ts) ⟨k, args, none⟩
  | cond {as bs ts : List Token} {a b : Token} {o : Operator} {s : Statement} :
      IsExpression as a → o.isRelational = true → IsExpression bs b → Derives ts s →
      Derives (.word "IF" :: as ++ .op o :: bs ++ .word "THEN" :: ts)
        ⟨.cond, [a, .op o, b, .statement s], none⟩

/-! ## What was read is spelled that way -/

theorem isExpression_of_readExpression {ts rest : List Token} {e : Token}
    (h : readExpression ts = .done e rest) : ∃ us, ts = us ++ rest ∧ IsExpression us e := by
  unfold readExpression Reading.ofExcept at h
  split at h
  · next hr =>
    cases h
    obtain ⟨us, ps, hts, hc, he⟩ := Expression.completes_of_read hr
    exact ⟨us, hts, ps, hc, he⟩
  · cases h

theorem isVariable_of_readVariable {ts rest : List Token} {v : Token}
    (h : readVariable ts = .done v rest) : ts = v :: rest ∧ v.varName?.isSome = true := by
  unfold readVariable at h
  split at h
  · cases h
  · split at h
    · next hv =>
      cases h
      exact ⟨rfl, hv⟩
    · split at h <;> cases h

theorem isItem_of_readItem {ts rest : List Token} {a : Token} (h : readItem ts = .done a rest) :
    ∃ us, ts = us ++ rest ∧ IsItem us a := by
  unfold readItem at h
  split at h
  · next text _ =>
    cases h
    exact ⟨[.quoted text], rfl, .inl ⟨text, rfl, rfl⟩⟩
  · obtain ⟨us, hts, he⟩ := isExpression_of_readExpression h
    exact ⟨us, hts, .inr he⟩

theorem listed_of_readItems {ts rest args : List Token} (h : readItems ts = .done args rest) :
    ∃ us, ts = us ++ rest ∧ Listed IsItem us args := by
  fun_induction readItems ts generalizing args with
  | case1 => cases h
  | case2 ts a mid hr ih =>
    obtain ⟨as, has, rfl⟩ := Reading.map_eq_done.1 h
    obtain ⟨us, rfl, hu⟩ := isItem_of_readItem hr
    obtain ⟨vs, rfl, hv⟩ := ih has
    exact ⟨us ++ .comma :: vs, by simp, .more hu hv⟩
  | case3 ts a mid _ hr =>
    cases h
    obtain ⟨us, hts, hu⟩ := isItem_of_readItem hr
    exact ⟨us, hts, .one hu⟩

theorem listed_of_readVariables {ts rest args : List Token} (h : readVariables ts = .done args rest) :
    ∃ us, ts = us ++ rest ∧ Listed IsVariable us args := by
  fun_induction readVariables ts generalizing args with
  | case1 t ts ih =>
    obtain ⟨v, mid, hv, h⟩ := Reading.bind_eq_done.1 h
    obtain ⟨as, has, rfl⟩ := Reading.map_eq_done.1 h
    obtain ⟨hts, hvar⟩ := isVariable_of_readVariable hv
    obtain ⟨us, rfl, hu⟩ := ih has
    cases hts
    exact ⟨[t] ++ .comma :: us, rfl, .more ⟨rfl, hvar⟩ hu⟩
  | case2 ts =>
    obtain ⟨v, hv, rfl⟩ := Reading.map_eq_done.1 h
    obtain ⟨rfl, hvar⟩ := isVariable_of_readVariable hv
    exact ⟨[v], rfl, .one ⟨rfl, hvar⟩⟩

theorem takes_of_readArgs {k : Keyword} {ts rest args : List Token} (hk : k ≠ .cond) (hb : k ≠ .blank)
    (h : readArgs k ts = .done args rest) : ∃ us, ts = us ++ rest ∧ Takes k us args := by
  cases k with
  | print => exact listed_of_readItems h
  | input => exact listed_of_readVariables h
  | assign =>
    obtain ⟨v, mid, hv, hm⟩ := Reading.bind_eq_done.1 h
    obtain ⟨hts, hvar⟩ := isVariable_of_readVariable hv
    split at hm
    · obtain ⟨e, he, rfl⟩ := Reading.map_eq_done.1 hm
      obtain ⟨us, rfl, hu⟩ := isExpression_of_readExpression he
      exact ⟨[v] ++ .op .equal :: us, hts, [v], v, us, e, rfl, rfl, ⟨rfl, hvar⟩, hu⟩
    · cases hm
  | goto | gosub =>
    obtain ⟨e, he, rfl⟩ := Reading.map_eq_done.1 h
    obtain ⟨us, hts, hu⟩ := isExpression_of_readExpression he
    exact ⟨us, hts, e, rfl, hu⟩
  | remark =>
    cases h
    refine ⟨ts.takeWhile (!·.isNewline), (List.takeWhile_append_dropWhile ..).symm, ?_, ?_⟩
    · intro t ht
      simpa using List.mem_takeWhile_imp ht
    · simp [remarkArgs, Token.renderAll_eq_map]
  | ret | clear | list | run | stop =>
    cases h
    exact ⟨[], rfl, rfl, rfl⟩
  | cond => exact absurd rfl hk
  | blank => exact absurd rfl hb

theorem readRelation_eq_done {ts rest : List Token} {o : Operator} (h : readRelation ts = .done o rest) :
    ts = .op o :: rest ∧ o.isRelational = true := by
  unfold readRelation at h
  split at h
  · split at h
    · next ho =>
      cases h
      exact ⟨rfl, ho⟩
    · cases h
  · cases h

theorem readThen_eq_done {ts rest : List Token} {u : Unit} (h : readThen ts = .done u rest) :
    ts = .word "THEN" :: rest := by
  unfold readThen at h
  split at h
  · split at h
    · next hw =>
      cases h
      rw [hw]
    · cases h
  · cases h

theorem readCondition_eq_done {ts rest : List Token} {a b : Token} {o : Operator}
    (h : readCondition ts = .done (a, o, b) rest) :
    ∃ as bs, ts = as ++ .op o :: bs ++ .word "THEN" :: rest ∧ IsExpression as a ∧
      o.isRelational = true ∧ IsExpression bs b := by
  obtain ⟨a', ts1, ha, h⟩ := Reading.bind_eq_done.1 h
  obtain ⟨o', ts2, ho, h⟩ := Reading.bind_eq_done.1 h
  obtain ⟨b', ts3, hb, h⟩ := Reading.bind_eq_done.1 h
  obtain ⟨_, ht, habo⟩ := Reading.map_eq_done.1 h
  cases habo
  obtain ⟨as, rfl, hea⟩ := isExpression_of_readExpression ha
  obtain ⟨rfl, hrel⟩ := readRelation_eq_done ho
  obtain ⟨bs, rfl, heb⟩ := isExpression_of_readExpression hb
  obtain rfl := readThen_eq_done ht
  exact ⟨as, bs, by simp, hea, hrel, heb⟩

/-- A statement that was read is spelled by the tokens read. -/
theorem derives_of_read {ts rest : List Token} {s : Statement} (h : read ts = .done s rest) :
    ∃ us, ts = us ++ rest ∧ Derives us s := by
  fun_induction read ts generalizing s with
  | case4 w ts hk a o b mid hc ih =>
    obtain ⟨t, ht, rfl⟩ := Reading.map_eq_done.1 h
    obtain ⟨us, rfl, hu⟩ := ih ht
    obtain ⟨as, bs, rfl, ha, ho, hb⟩ := readCondition_eq_done hc
    obtain ⟨rfl, -⟩ := Keyword.render_of_ofWord? hk
    exact ⟨.word "IF" :: as ++ .op o :: bs ++ .word "THEN" :: us, by simp [Keyword.render],
      .cond ha ho hb hu⟩
  | case5 w ts k hnc hk =>
    obtain ⟨args, ha, rfl⟩ := Reading.map_eq_done.1 h
    obtain ⟨rfl, hb⟩ := Keyword.render_of_ofWord? hk
    obtain ⟨us, rfl, hu⟩ := takes_of_readArgs hnc hb ha
    exact ⟨.word k.render :: us, rfl, .simple hu⟩
  | case1 | case2 | case3 | case6 => cases h

/-! ## What is spelled that way is read -/

/-- The line is at its end. -/
def AtEnd (ts : List Token) : Prop :=
  ∀ t ∈ ts.head?, t.isNewline = true

theorem atEnd_cases {ts : List Token} (h : AtEnd ts) : ts = [] ∨ ∃ us, ts = .newline :: us := by
  cases ts with
  | nil => exact .inl rfl
  | cons t ts =>
    have ht : t.isNewline = true := h t (by simp)
    cases t <;> first | exact .inr ⟨ts, rfl⟩ | cases ht

theorem stops_of_atEnd {ts : List Token} (h : AtEnd ts) : Expression.Stops ts := by
  rcases atEnd_cases h with rfl | ⟨us, rfl⟩
  · exact Expression.stops_nil
  · exact Expression.stops_cons (fun _ => rfl) us

theorem readExpression_of_isExpression {us rest : List Token} {e : Token} (h : IsExpression us e)
    (hr : Expression.Stops rest) : readExpression (us ++ rest) = .done e rest := by
  obtain ⟨ps, hc, rfl⟩ := h
  rw [readExpression, Expression.read_of_completes hc hr]
  rfl

theorem readVariable_of_isVariable {us : List Token} {v : Token} (h : IsVariable us v)
    (rest : List Token) : readVariable (us ++ rest) = .done v rest := by
  obtain ⟨rfl, hv⟩ := h
  simp [readVariable, hv]

theorem readItem_of_isItem {us rest : List Token} {a : Token} (h : IsItem us a)
    (hr : Expression.Stops rest) : readItem (us ++ rest) = .done a rest := by
  rcases h with ⟨text, rfl, rfl⟩ | he
  · rfl
  · have hread := readExpression_of_isExpression he hr
    unfold readItem
    split
    · next text ts hq =>
      -- no expression starts with a quoted text
      rw [hq] at hread
      cases hread
    · exact hread

theorem readItems_of_listed {us rest args : List Token} (h : Listed IsItem us args)
    (hr : AtEnd rest) : readItems (us ++ rest) = .done args rest := by
  induction h with
  | one hu =>
    have hread := readItem_of_isItem hu (stops_of_atEnd hr)
    rw [readItems]
    split
    · next heq => cases hread.symm.trans heq
    · next heq =>
      cases hread.symm.trans heq
      rcases atEnd_cases hr with h | ⟨_, h⟩ <;> cases h
    · next heq =>
      cases hread.symm.trans heq
      rfl
  | @more ts us a as hu _ ih =>
    have hread := readItem_of_isItem hu (Expression.stops_cons (t := .comma) (fun _ => rfl) (us ++ rest))
    rw [List.append_assoc, List.cons_append, readItems]
    split
    · next heq => cases hread.symm.trans heq
    · next heq =>
      cases hread.symm.trans heq
      rw [ih]
      rfl
    · next hn heq =>
      cases hread.symm.trans heq
      exact absurd rfl (hn _)

theorem readVariables_of_listed {us rest args : List Token} (h : Listed IsVariable us args)
    (hr : AtEnd rest) : readVariables (us ++ rest) = .done args rest := by
  induction h with
  | one hu =>
    have hread := readVariable_of_isVariable hu rest
    obtain ⟨rfl, -⟩ := hu
    rcases atEnd_cases hr with rfl | ⟨_, rfl⟩ <;>
    · simp only [List.singleton_append] at hread ⊢
      rw [readVariables, hread]
      · rfl
      · simp
  | @more ts us a as hu _ ih =>
    obtain ⟨rfl, hv⟩ := hu
    show readVariables (a :: .comma :: (us ++ rest)) = _
    rw [readVariables, ih]
    simp [readVariable, hv, Reading.bind, Reading.map]

theorem readArgs_of_takes {k : Keyword} {us rest args : List Token} (h : Takes k us args)
    (hr : AtEnd rest) : readArgs k (us ++ rest) = .done args rest := by
  cases k with
  | print => exact readItems_of_listed h hr
  | input => exact readVariables_of_listed h hr
  | assign =>
    obtain ⟨vs, v, es, e, rfl, rfl, hv, he⟩ := h
    rw [List.append_assoc, readArgs, readAssignment, readVariable_of_isVariable hv, Reading.bind,
      List.cons_append]
    dsimp only
    rw [readExpression_of_isExpression he (stops_of_atEnd hr)]
    rfl
  | goto | gosub =>
    obtain ⟨e, rfl, he⟩ := h
    rw [readArgs, readExpression_of_isExpression he (stops_of_atEnd hr)]
    rfl
  | remark =>
    obtain ⟨hn, rfl⟩ := h
    obtain ⟨htake, hdrop⟩ := takeWhile_append_of_head (p := (!Token.isNewline ·)) (l := us) (r := rest)
      (fun t ht => by simp [hn t ht]) (fun t ht => by simp [hr t ht])
    simp [readArgs, readRemark, htake, hdrop, remarkArgs, Token.renderAll_eq_map]
  | ret | clear | list | run | stop =>
    obtain ⟨rfl, rfl⟩ := h
    rfl
  | cond | blank => exact h.elim

theorem readCondition_of_isExpression {as bs : List Token} {a b : Token} {o : Operator}
    (ha : IsExpression as a) (ho : o.isRelational = true) (hb : IsExpression bs b) (rest : List Token) :
    readCondition (as ++ .op o :: bs ++ .word "THEN" :: rest) = .done (a, o, b) rest := by
  have hop : Expression.Stops (.op o :: (bs ++ .word "THEN" :: rest)) :=
    Expression.stops_cons (fun _ => by simpa [Expression.belongs, Operator.isRelational] using ho) _
  have hthen : Expression.Stops (.word "THEN" :: rest) :=
    Expression.stops_cons (fun next => by
      cases next with
      | none => rfl
      | some t => cases t <;> rfl) rest
  rw [List.append_assoc, List.cons_append, readCondition, readExpression_of_isExpression ha hop]
  simp [Reading.bind, readRelation, ho, readExpression_of_isExpression hb hthen, readThen, Reading.map]

/-- A statement is read from the tokens that spell it. -/
theorem read_of_derives {us rest : List Token} {s : Statement} (h : Derives us s) (hr : AtEnd rest) :
    read (us ++ rest) = .done s rest := by
  induction h with
  | @simple k ts args hk =>
    have hb : k ≠ .blank := by
      rintro rfl
      exact hk
    rw [List.cons_append, read]
    split
    · next heq => cases (Keyword.ofWord?_render hb).symm.trans heq
    · next heq =>
      cases (Keyword.ofWord?_render hb).symm.trans heq
      exact hk.elim
    · next heq =>
      cases (Keyword.ofWord?_render hb).symm.trans heq
      rw [readArgs_of_takes hk hr]
      rfl
  | @cond as bs ts a b o s ha ho hb _ ih =>
    have hc := readCondition_of_isExpression ha ho hb (ts ++ rest)
    have happ : Token.word "IF" :: as ++ .op o :: bs ++ .word "THEN" :: ts ++ rest =
        .word "IF" :: (as ++ .op o :: bs ++ .word "THEN" :: (ts ++ rest)) := by simp
    rw [happ, read]
    split
    · next heq => cases heq
    · split
      · next heq => cases hc.symm.trans heq
      · next heq =>
        cases hc.symm.trans heq
        rw [ih]
        rfl
    · next hn heq =>
      cases heq
      exact absurd rfl hn

/-! ## Lines -/

inductive Labels : List Token → Option Label → Prop
  | none : Labels [] none
  | some {digits : String} {l : Label} (hl : label? digits.toList = some l) :
      Labels [.number digits] (some l)

/-- A statement, or none at all. -/
def IsBody (ts : List Token) (s : Statement) : Prop :=
  (ts = [] ∧ s = { keyword := .blank }) ∨ Derives ts s

/-- The tokens `ts` end a line, and those after it are `rest`. -/
inductive Ends : List Token → List Token → Prop
  | stop : Ends [] []
  | newline {rest : List Token} : Ends (.newline :: rest) rest

theorem Ends.atEnd {ts rest : List Token} (h : Ends ts rest) : AtEnd ts := by
  cases h <;> simp [AtEnd, Token.isNewline]

theorem labels_of_readLabel {ts rest : List Token} {l : Option Label}
    (h : readLabel ts = .done l rest) : ∃ ls, ts = ls ++ rest ∧ Labels ls l := by
  unfold readLabel at h
  split at h
  · split at h
    · next hl =>
      cases h
      exact ⟨_, rfl, .some hl⟩
    · cases h
  · cases h
    exact ⟨[], rfl, .none⟩

theorem isBody_of_readBody {ts rest : List Token} {s : Statement} (h : readBody ts = .done s rest) :
    ∃ us, ts = us ++ rest ∧ IsBody us s := by
  unfold readBody at h
  split at h
  · cases h
    exact ⟨[], rfl, .inl ⟨rfl, rfl⟩⟩
  · cases h
    exact ⟨[], rfl, .inl ⟨rfl, rfl⟩⟩
  · obtain ⟨us, hts, hu⟩ := derives_of_read h
    exact ⟨us, hts, .inr hu⟩

theorem ends_of_readEnd {ts rest : List Token} {u : Unit} (h : readEnd ts = .done u rest) :
    Ends ts rest := by
  unfold readEnd at h
  split at h <;> cases h
  · exact .stop
  · exact .newline

theorem readLine_eq_done {ts rest : List Token} {s : Statement} (h : readLine ts = .done s rest) :
    ∃ ls us es l b, ts = ls ++ (us ++ es) ∧ Labels ls l ∧ IsBody us b ∧ Ends es rest ∧
      s = { b with label := l } := by
  unfold readLine at h
  split at h
  · cases h
  · next l body hl =>
    split at h
    · cases h
    · next hread =>
      cases h
      obtain ⟨b, mid, hb, hmid⟩ := Reading.bind_eq_done.1 hread
      obtain ⟨_, he, hs⟩ := Reading.map_eq_done.1 hmid
      obtain ⟨ls, rfl, hls⟩ := labels_of_readLabel hl
      obtain ⟨us, rfl, hus⟩ := isBody_of_readBody hb
      exact ⟨ls, us, mid, l, b, rfl, hls, hus, ends_of_readEnd he, hs.symm⟩

/-- A statement starts with a word. -/
theorem Derives.exists_word {us : List Token} {s : Statement} (h : Derives us s) :
    ∃ w ts, us = .word w :: ts := by
  cases h with
  | simple => exact ⟨_, _, rfl⟩
  | cond => exact ⟨_, _, rfl⟩

theorem readBody_of_isBody {us es rest : List Token} {b : Statement} (h : IsBody us b)
    (he : Ends es rest) : readBody (us ++ es) = .done b es := by
  rcases h with ⟨rfl, rfl⟩ | h
  · cases he <;> rfl
  · have hread := read_of_derives h he.atEnd
    obtain ⟨w, ts, rfl⟩ := h.exists_word
    exact hread

theorem readLabel_of_labels {ls us es rest : List Token} {l : Option Label} {b : Statement}
    (hl : Labels ls l) (hb : IsBody us b) (he : Ends es rest) :
    readLabel (ls ++ (us ++ es)) = .done l (us ++ es) := by
  cases hl with
  | some hl => simp [readLabel, hl]
  | none =>
    rcases hb with ⟨rfl, -⟩ | h
    · cases he <;> rfl
    · obtain ⟨w, ts, rfl⟩ := h.exists_word
      rfl

/-- A line is read from the tokens of its label, its statement and its end. -/
theorem readLine_of_isBody {ls us es rest : List Token} {l : Option Label} {b : Statement}
    (hl : Labels ls l) (hb : IsBody us b) (he : Ends es rest) :
    readLine (ls ++ (us ++ es)) = .done { b with label := l } rest := by
  have hend : readEnd es = .done () rest := by cases he <;> rfl
  rw [readLine, readLabel_of_labels hl hb he]
  dsimp only
  rw [readBody_of_isBody hb he, Reading.bind, hend]
  rfl

end Statement

end LineBasic
