import LineBasic.Proofs.Statement.RoundTrip
import LineBasic.Proofs.Statement.Sentence

/-!
# Printed statements

A statement that was typed on one line is `Printable`: its text has no line feed
(`Printable.newline_not_mem`) and does not end in a blank (`Printable.inked`), and it is read back
behind any label (`Printable.parse_source_eq`).
-/
namespace LineBasic

/-! ## Line feeds -/

theorem Token.IsLexeme.eq_newline {t : Token} (ht : t.IsLexeme) (h : '\n' ∈ t.render.toList) :
    t = .newline := by
  cases t with
  | newline => rfl
  | comma | lparen | rparen => exact absurd h (by decide)
  | op o => cases o <;> exact absurd h (by decide)
  | number digits => exact absurd (ht.2 '\n' h) (by decide)
  | word w =>
    obtain ⟨c, cs, hw, -, hd⟩ := ht
    rw [Token.render, hw] at h
    exact absurd (hd '\n' h) (by decide)
  | quoted text =>
    have h : '\n' ∈ text.toList := by simpa [Token.render] using h
    exact absurd (ht '\n' h) (by decide)
  | unknown | expression | call | statement => exact ht.elim

/-- A line feed in a text is a token of its own. -/
theorem newline_mem_of_lex {cs : List Char} {ts : List Token} (h : lex cs = .ok ts) (hcs : '\n' ∈ cs) :
    Token.newline ∈ ts := by
  replace h := lexed_of_lex h
  induction h with
  | nil => cases hcs
  | space hs _ ih =>
    rcases List.mem_cons.1 hcs with rfl | hcs
    · exact absurd hs (by decide)
    · exact ih hcs
  | token hscan _ ih =>
    obtain ⟨hlexeme, -, htext | ⟨-, htext⟩⟩ := scan_eq_some hscan
    · rw [htext] at hcs
      rcases List.mem_append.1 hcs with hmem | hmem
      · rw [hlexeme.eq_newline hmem]
        exact List.mem_cons_self
      · exact List.mem_cons_of_mem _ (ih hmem)
    · rw [htext] at hcs
      exact List.mem_cons_of_mem _ (ih (by simpa using hcs))

/-! ## The last character of a text -/

/-- The text ends in a character that is not blank. -/
def Inked (text : String) : Prop :=
  ∃ c, text.toList.getLast? = some c ∧ Text.isBlank c = false

theorem Inked.append {b : String} (h : Inked b) (a : String) : Inked (a ++ b) := by
  obtain ⟨c, hc, hblank⟩ := h
  exact ⟨c, by rw [String.toList_append, List.getLast?_append, hc, Option.some_or], hblank⟩

theorem inked_of_forall {text : String} (hne : text.toList ≠ [])
    (h : ∀ c ∈ text.toList, Text.isBlank c = false) : Inked text :=
  ⟨_, List.getLast?_eq_some_getLast hne, h _ (List.getLast_mem hne)⟩

theorem inked_intercalate (sep : String) {texts : List String} (hne : texts ≠ [])
    (h : ∀ t ∈ texts, Inked t) : Inked (sep.intercalate texts) := by
  induction texts with
  | nil => exact absurd rfl hne
  | cons a texts ih =>
    obtain ⟨ha, htexts⟩ := List.forall_mem_cons.1 h
    cases texts with
    | nil => simpa using ha
    | cons b texts =>
      rw [String.intercalate_cons_cons]
      exact (ih (by simp) htexts).append _

theorem join_eq_intercalate (texts : List String) : String.join texts = "".intercalate texts := by
  induction texts with
  | nil => rfl
  | cons a texts ih =>
    cases texts with
    | nil => simp
    | cons b texts => rw [String.join_cons, ih, String.intercalate_cons_cons, String.append_empty]

theorem isBlank_of_isDelimiter {c : Char} (h : isDelimiter c = false) : Text.isBlank c = false := by
  simp only [isDelimiter, isSpace, Bool.or_eq_false_iff] at h
  obtain ⟨⟨⟨⟨hn, -⟩, -⟩, hs⟩, -⟩ := h
  simpa [hn] using hs

theorem isBlank_of_isSpace {c : Char} (h : isSpace c = true) : Text.isBlank c = true := by
  simp only [isSpace, Bool.and_eq_true] at h
  exact h.2

theorem Token.IsLexeme.inked {t : Token} (ht : t.IsLexeme) (hn : t.isNewline = false) :
    Inked t.render := by
  cases t with
  | newline => cases hn
  | comma => exact ⟨',', rfl, rfl⟩
  | lparen => exact ⟨'(', rfl, rfl⟩
  | rparen => exact ⟨')', rfl, rfl⟩
  | op o => cases o <;> exact ⟨_, rfl, rfl⟩
  | number digits =>
    exact inked_of_forall ht.1 (fun c hc => isBlank_of_isDelimiter (isDelimiter_of_isDigit (ht.2 c hc)))
  | word w =>
    obtain ⟨c, cs, hw, -, hd⟩ := ht
    refine inked_of_forall (by simp [Token.render, hw]) (fun a ha => ?_)
    rw [Token.render, hw] at ha
    exact isBlank_of_isDelimiter (hd a ha)
  | quoted text =>
    have hend : Inked "\"" := ⟨'"', rfl, rfl⟩
    exact hend.append _
  | unknown | expression | call | statement => exact ht.elim

theorem mem_of_mem_trim {c : Char} {cs : List Char} (h : c ∈ Text.trim cs) : c ∈ cs := by
  rw [Text.trim, trimEnd_eq_rdropWhile] at h
  exact (List.dropWhile_sublist _).subset ((List.rdropWhile_prefix _ _).subset h)

theorem getLast?_trim {cs : List Char} (h : Text.trim cs ≠ []) :
    ∃ c, (Text.trim cs).getLast? = some c ∧ Text.isBlank c = false := by
  rw [Text.trim, trimEnd_eq_rdropWhile] at h ⊢
  exact ⟨_, List.getLast?_eq_some_getLast h, by simpa using List.rdropWhile_last_not _ _ h⟩

namespace Statement

/-- The tokens that an expression is kept as have texts of their own. -/
theorem inked_of_completes {due : Expression.Due} {us ps : List Token}
    (h : Expression.Completes due us ps) (hlex : ∀ t ∈ us, t.IsLexeme) : ∀ p ∈ ps, Inked p.render := by
  have hcall (f : Function) (args : List Token) : Inked (Token.call f args).render :=
    Inked.append ⟨')', rfl, rfl⟩ _
  induction h with
  | done => simp
  | binary _ _ ih | sign _ _ ih | number _ ih | name _ _ ih =>
    obtain ⟨ht, hlex⟩ := List.forall_mem_cons.1 hlex
    exact List.forall_mem_cons.2 ⟨ht.inked rfl, ih hlex⟩
  | group _ _ ihe ih =>
    simp only [List.forall_mem_append, List.forall_mem_cons] at hlex ⊢
    obtain ⟨⟨hl, hes⟩, hr, hts⟩ := hlex
    exact ⟨⟨hl.inked rfl, ihe hes⟩, hr.inked rfl, ih hts⟩
  | call _ _ _ ih =>
    simp only [List.forall_mem_append, List.forall_mem_cons] at hlex ⊢
    exact ⟨hcall _ _, ih hlex.2.2⟩
  | unsigned _ ih => exact ih hlex

theorem ne_nil_of_completes {due : Expression.Due} {us ps : List Token}
    (h : Expression.Completes due us ps) (hd : due ≠ .operator) : ps ≠ [] := by
  induction h with
  | done => exact absurd rfl hd
  | unsigned _ ih => exact ih (by simp)
  | _ => simp

theorem IsExpression.inked {us : List Token} {e : Token} (h : IsExpression us e)
    (hlex : ∀ t ∈ us, t.IsLexeme) : Inked e.render := by
  obtain ⟨ps, hc, rfl⟩ := h
  have hps := inked_of_completes hc hlex
  have hne := ne_nil_of_completes hc (by simp)
  rw [Token.render, join_eq_intercalate]
  refine inked_intercalate _ ?_ ?_
  · simpa [Token.renderAll_eq_map] using hne
  · simpa [Token.renderAll_eq_map] using hps

theorem IsVariable.inked {us : List Token} {v : Token} (h : IsVariable us v)
    (hlex : ∀ t ∈ us, t.IsLexeme) : Inked v.render := by
  obtain ⟨rfl, hv⟩ := h
  refine (hlex v (by simp)).inked ?_
  cases v <;> first | rfl | cases hv

theorem IsItem.inked {us : List Token} {a : Token} (h : IsItem us a)
    (hlex : ∀ t ∈ us, t.IsLexeme) : Inked a.render := by
  rcases h with ⟨text, rfl, rfl⟩ | he
  · exact (hlex _ (by simp)).inked rfl
  · exact he.inked hlex

theorem Listed.inked {P : List Token → Token → Prop}
    (hP : ∀ {us a}, P us a → (∀ t ∈ us, t.IsLexeme) → Inked a.render)
    {us args : List Token} (h : Listed P us args) (hlex : ∀ t ∈ us, t.IsLexeme) :
    Inked (", ".intercalate (Token.renderAll args)) := by
  refine inked_intercalate _ ?_ ?_
  · obtain ⟨a, as, rfl⟩ := h.ne_nil
    simp [Token.renderAll]
  · rw [Token.renderAll_eq_map, List.forall_mem_map]
    induction h with
    | one hu => simpa using hP hu hlex
    | more hu _ ih =>
      obtain ⟨hts, -, hus⟩ := by simpa only [List.forall_mem_append, List.forall_mem_cons] using hlex
      exact List.forall_mem_cons.2 ⟨hP hu hts, ih hus⟩

/-- The text of a statement does not end in a blank. -/
theorem Derives.inked {us : List Token} {s : Statement} (h : Derives us s)
    (hlex : ∀ t ∈ us, t.IsLexeme) : Inked s.render := by
  induction h with
  | @simple k ts args hk =>
    obtain ⟨hw, hts⟩ := List.forall_mem_cons.1 hlex
    cases k with
    | print =>
      obtain ⟨a, as, rfl⟩ := Listed.ne_nil hk
      exact (Listed.inked IsItem.inked hk hts).append _
    | input =>
      obtain ⟨a, as, rfl⟩ := Listed.ne_nil hk
      exact (Listed.inked IsVariable.inked hk hts).append _
    | assign =>
      obtain ⟨vs, v, es, e, rfl, rfl, -, he⟩ := hk
      exact (he.inked (fun t ht => hts t (List.mem_append_right _ (List.mem_cons_of_mem _ ht)))).append _
    | goto | gosub =>
      obtain ⟨e, rfl, he⟩ := hk
      exact (he.inked hts).append _
    | remark =>
      obtain ⟨hn, rfl⟩ := hk
      have hrem : Inked "REM" := ⟨'M', rfl, rfl⟩
      unfold remarkArgs
      split
      · exact hrem
      · next hne =>
        refine inked_intercalate _ (by simp) (List.forall_mem_cons.2 ⟨hrem, ?_⟩)
        rw [Token.renderAll_eq_map, List.map_singleton, List.forall_mem_singleton]
        refine inked_intercalate _ ?_ ?_
        · simpa [Token.renderAll_eq_map] using hne
        · rw [Token.renderAll_eq_map, List.forall_mem_map]
          exact fun t ht => (hts t ht).inked (hn t ht)
    | ret | clear | list | run | stop => exact hw.inked rfl
    | cond | blank => exact hk.elim
  | cond _ _ _ _ ih =>
    simp only [List.forall_mem_append, List.forall_mem_cons] at hlex
    exact (ih hlex.2.2).append _

/-! ## Statements that were typed -/

/-- The statement is spelled on a single line, whatever its label. -/
inductive Printable : Statement → Prop
  | remark {rest : List Char} (l : Option Label) (hline : '\n' ∉ rest) :
      Printable ⟨.remark, textArgs rest, l⟩
  | code {us : List Token} {b : Statement} (l : Option Label) (hb : IsBody us b)
      (hlex : ∀ t ∈ us, t.IsLexeme) (hrem : us.head? ≠ some (.word "REM")) :
      Printable { b with label := l }

theorem Printable.withLabel {s : Statement} (h : Printable s) (l : Option Label) :
    Printable { s with label := l } := by
  cases h with
  | remark _ hline => exact .remark l hline
  | @code us b _ hb hlex hrem => exact @Printable.code us b l hb hlex hrem

/-- A statement that is no remark was typed on one line. -/
theorem printable_of_code {text : String} {code : List Char} {s : Statement}
    (hsplit : splitRemark text.toList = (code, none)) (h : parse text = .ok s) : Printable s := by
  obtain ⟨ts, hlex, hread⟩ := readLine_of_parse hsplit h
  obtain ⟨ls, us, es, l, b, rfl, hl, hb, he, rfl⟩ := readLine_eq_done hread
  refine .code l hb (fun t ht => isLexeme_of_lex hlex t (by simp [ht])) (fun hw => ?_)
  obtain rfl := code_of_splitRemark hsplit
  have hne := head_ne_rem hsplit (lex_unlabelled hlex)
  rw [afterLabel_of_labels hl hb he] at hne
  obtain ⟨vs, rfl⟩ := List.head?_eq_some_iff.1 hw
  exact hne rfl

theorem printable_of_parse {text : String} {s : Statement} (hline : '\n' ∉ text.toList)
    (h : parse text = .ok s) : Printable s := by
  cases hsplit : splitRemark text.toList with
  | mk code remark =>
    cases remark with
    | some rest =>
      obtain ⟨lead, digits, gap, hr⟩ := isRemark_of_splitRemark hsplit
      obtain ⟨l, -, rfl⟩ := hr.parse_inv h
      rw [hr.text] at hline
      exact .remark l (fun hmem => hline (by simp [hmem]))
    | none => exact printable_of_code hsplit h

theorem labels_of_range {l : Label} (h : 1 ≤ l ∧ l ≤ maxLabel) :
    Labels (labelTokens (labelText (some l))) (some l) := by
  rw [labelTokens, if_neg (labelText_ne_nil l)]
  refine .some ?_
  rw [String.toList_ofList, label?, decimal?_labelText]
  exact Option.filter_eq_some_iff.2 ⟨rfl, by simp [h]⟩

/-- The text of a statement is read back behind any label. -/
theorem Printable.parse_source_eq {s : Statement} (h : Printable s) {l : Label} (hs : s.label = some l)
    (hl : 1 ≤ l ∧ l ≤ maxLabel) : parse s.source = .ok s := by
  have hlabels := labels_of_range hl
  cases h with
  | @remark rest l' =>
    obtain rfl : l' = some l := hs
    rw [(isRemark_source rest (some l)).parse_eq_ok hlabels, textArgs_retyped]
  | @code us b l' hb hlex hrem =>
    obtain rfl : l' = some l := hs
    have hsource := lex_source hb hlex (some l)
    rw [← List.append_nil us] at hsource
    have hsplit := splitRemark_eq_none (lex_unlabelled hsource)
      (by rwa [afterLabel_of_labels hlabels hb .stop, List.append_nil])
    exact parse_eq_of_readLine hsplit hsource (readLine_of_isBody hlabels hb .stop)

theorem Printable.newline_not_mem {s : Statement} (h : Printable s) : '\n' ∉ s.render.toList := by
  cases h with
  | @remark rest l hline =>
    rw [toList_render_remark, retyped]
    split
    · decide
    · simpa using fun hmem => hline (mem_of_mem_trim hmem)
  | code l hb hlex =>
    rw [render_label]
    intro hmem
    have := hb.isNewline _ (newline_mem_of_lex (hb.lex_render hlex) hmem)
    cases this

/-- Only the text of a remark that was typed on several lines has a line feed. -/
theorem isRemark_of_newline_mem {text : String} {s : Statement} (h : parse text = .ok s)
    (hmem : '\n' ∈ s.render.toList) : s.isRemark = true ∧ '\n' ∈ text.toList := by
  constructor
  · cases hsplit : splitRemark text.toList with
    | mk code remark =>
      cases remark with
      | some rest =>
        obtain ⟨lead, digits, gap, hr⟩ := isRemark_of_splitRemark hsplit
        obtain ⟨l, -, rfl⟩ := hr.parse_inv h
        rfl
      | none => exact absurd hmem (printable_of_code hsplit h).newline_not_mem
  · by_contra hline
    exact (printable_of_parse hline h).newline_not_mem hmem

theorem Printable.inked {s : Statement} (h : Printable s) (hk : s.keyword ≠ .blank) : Inked s.render := by
  cases h with
  | @remark rest l =>
    rw [Inked, toList_render_remark, retyped]
    split
    · exact ⟨'M', rfl, rfl⟩
    · next hne =>
      obtain ⟨c, hc, hblank⟩ := getLast?_trim hne
      refine ⟨c, ?_, hblank⟩
      rw [show 'R' :: 'E' :: 'M' :: ' ' :: Text.trim rest = ['R', 'E', 'M', ' '] ++ Text.trim rest from rfl,
        List.getLast?_append, hc, Option.some_or]
  | code l hb hlex =>
    rw [render_label]
    rcases hb with ⟨-, rfl⟩ | hd
    · exact absurd rfl hk
    · exact hd.inked hlex

end Statement

end LineBasic
