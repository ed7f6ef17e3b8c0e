import LineBasic.Proofs.Equality
import LineBasic.Proofs.Statement.Printed
import Mathlib.Data.List.Forall2

/-!
# Quotes

The lexer fails at a quote that its line does not close, and only there. As quotes are taken in pairs, this
comes down to counting: a text can be lexed if and only if each of its lines has an even number of quotes, and
the error is about the last quote of the first line that has an odd number. In a text that can be lexed
nothing is lost: its tokens are the text without the spaces outside of quotes, and with `<>` for each `><`
that is read as one operator (`lex_iff_balanced`).
-/
namespace LineBasic

/-! ## Lines with a quote too many -/

namespace Text

/-- The quotes of a line do not pair up. -/
def isUnbalanced (line : List Char) : Bool :=
  line.count '"' % 2 = 1

theorem isUnbalanced_append {w : List Char} (hw : w.count '"' % 2 = 0) (line : List Char) :
    isUnbalanced (w ++ line) = isUnbalanced line := by
  simp only [isUnbalanced, List.count_append, decide_eq_decide]
  omega

/-- No line has a quote too many. -/
def Balanced (cs : List Char) : Prop :=
  ∀ line ∈ feeds cs, isUnbalanced line = false

/-- The first line that has a quote too many has `text` behind its last quote. -/
def Unclosed (cs text : List Char) : Prop :=
  ∃ front, (feeds cs).find? isUnbalanced = some (front ++ '"' :: text) ∧ '"' ∉ text

/-! A text in front of the first line counts for nothing if its own quotes pair up. -/

section

variable {w cs : List Char}

theorem Balanced.append (h : Balanced cs) (hn : '\n' ∉ w) (hw : w.count '"' % 2 = 0) :
    Balanced (w ++ cs) := by
  obtain ⟨line, ls, hl⟩ := List.exists_cons_of_length_eq_add_one (length_feeds cs)
  rw [Balanced, hl, List.forall_mem_cons] at h
  rw [Balanced, feeds_append hn, hl, List.modifyHead_cons, List.forall_mem_cons,
    isUnbalanced_append hw]
  exact h

theorem Unclosed.append {text : List Char} (h : Unclosed cs text) (hn : '\n' ∉ w)
    (hw : w.count '"' % 2 = 0) : Unclosed (w ++ cs) text := by
  obtain ⟨front, hfind, htext⟩ := h
  obtain ⟨line, ls, hl⟩ := List.exists_cons_of_length_eq_add_one (length_feeds cs)
  unfold Unclosed
  rw [hl, List.find?_cons] at hfind
  rw [feeds_append hn, hl, List.modifyHead_cons, List.find?_cons, isUnbalanced_append hw]
  cases hu : isUnbalanced line with
  | true =>
    rw [hu] at hfind
    cases hfind
    exact ⟨w ++ front, by simp, htext⟩
  | false =>
    rw [hu] at hfind
    exact ⟨front, hfind, htext⟩

theorem Balanced.newline (h : Balanced cs) : Balanced ('\n' :: cs) :=
  List.forall_mem_cons.2 ⟨rfl, h⟩

theorem Unclosed.newline {text : List Char} (h : Unclosed cs text) : Unclosed ('\n' :: cs) text :=
  h

end

/-- A quote that its line does not close. -/
theorem unclosed_quote {text cs : List Char} (htext : ∀ c ∈ text, isQuotable c = true)
    (hcs : ∀ c ∈ cs.head?, c = '\n') : Unclosed ('"' :: (text ++ cs)) text := by
  have hq : '"' ∉ text := fun hmem => absurd (htext _ hmem) (by decide)
  have hn : '\n' ∉ '"' :: text := by
    rw [List.mem_cons]
    rintro (h | hmem)
    · exact absurd h (by decide)
    · exact absurd (htext _ hmem) (by decide)
  have hcount : isUnbalanced ('"' :: text) = true := by
    simp [isUnbalanced, List.count_eq_zero.2 hq]
  have hfirst : ∃ ls, feeds ('"' :: (text ++ cs)) = ('"' :: text) :: ls := by
    rw [← List.cons_append, feeds_append hn]
    cases cs with
    | nil => exact ⟨[], by simp [feeds]⟩
    | cons c cs =>
      obtain rfl := hcs c rfl
      exact ⟨feeds cs, by simp [feeds]⟩
  obtain ⟨ls, hls⟩ := hfirst
  refine ⟨[], ?_, hq⟩
  rw [hls, List.find?_cons_of_pos hcount]
  rfl

end Text

/-! ## One step of the lexer -/

theorem Token.IsLexeme.count_quote {t : Token} (ht : t.IsLexeme) : t.render.toList.count '"' % 2 = 0 := by
  have hnone {text : String} (h : '"' ∉ text.toList) : text.toList.count '"' % 2 = 0 := by
    rw [List.count_eq_zero.2 h]
  cases t with
  | comma | newline | lparen | rparen => rfl
  | op o => cases o <;> rfl
  | number digits => exact hnone fun hmem => absurd (ht.2 _ hmem) (by decide)
  | word w =>
    obtain ⟨c, cs, hw, -, hd⟩ := ht
    exact hnone fun hmem => absurd (hd _ (hw ▸ hmem)) (by decide)
  | quoted text =>
    have hq : '"' ∉ text.toList := fun hmem => absurd (ht _ hmem) (by decide)
    simp [Token.render, List.count_eq_zero.2 hq]
  | unknown | expression | call | statement => exact ht.elim

/-- What the lexer takes from a text in one step is a line feed, or it is part of a line and its quotes pair
up. -/
theorem scan_takes {c : Char} {cs rest : List Char} {t : Option Token} (h : scan c cs = .ok (t, rest)) :
    ∃ w, c :: cs = w ++ rest ∧ (w = ['\n'] ∨ '\n' ∉ w ∧ w.count '"' % 2 = 0) := by
  cases t with
  | none =>
    obtain ⟨hs, rfl⟩ := scan_eq_none h
    have hn : c ≠ '\n' := by
      rintro rfl
      cases hs
    have hq : c ≠ '"' := by
      rintro rfl
      cases hs
    exact ⟨[c], rfl, .inr ⟨by simp [hn.symm], by simp [hq]⟩⟩
  | some t =>
    obtain ⟨hlex, -, htext | ⟨-, htext⟩⟩ := scan_eq_some h
    · refine ⟨t.render.toList, htext, ?_⟩
      by_cases hn : '\n' ∈ t.render.toList
      · rw [hlex.eq_newline hn]
        exact .inl rfl
      · exact .inr ⟨hn, hlex.count_quote⟩
    · exact ⟨['>', '<'], htext, .inr ⟨by decide, by decide⟩⟩

theorem scan_eq_error {c : Char} {cs : List Char} {e : Error} (h : scan c cs = .error e) :
    ∃ text, Text.Unclosed (c :: cs) text ∧ e = (Error.Cause.unclosedQuote (String.ofList text)).error := by
  unfold scan at h
  split at h
  case h_16 =>
    dsimp only at h
    split at h
    · cases h
    · next hclose =>
      cases h
      refine ⟨cs.takeWhile isQuotable, ?_, rfl⟩
      have hcs := List.takeWhile_append_dropWhile (p := isQuotable) (l := cs)
      have hhead : ∀ c ∈ (cs.dropWhile isQuotable).head?, c = '\n' := by
        intro d hd
        have hstop := head_dropWhile isQuotable cs d hd
        obtain ⟨ds, hds⟩ := List.head?_eq_some_iff.1 hd
        have hq : d ≠ '"' := fun hq => hclose ds (by rw [hds, hq])
        simpa [isQuotable, hq] using hstop
      have htext : ∀ c ∈ cs.takeWhile isQuotable, isQuotable c = true :=
        fun _ => List.mem_takeWhile_imp
      have hopen := Text.unclosed_quote htext hhead
      rwa [hcs] at hopen
  case h_17 =>
    split at h
    · cases h
    · split at h <;> cases h
  all_goals cases h

/-- A text is lexed, or the lexer stops at the first line that has a quote too many. -/
theorem lex_cases (cs : List Char) :
    (∃ ts, lex cs = .ok ts ∧ Text.Balanced cs) ∨
      ∃ text, lex cs = .error (Error.Cause.unclosedQuote (String.ofList text)).error ∧
        Text.Unclosed cs text := by
  induction hn : cs.length using Nat.strong_induction_on generalizing cs with
  | _ n ih =>
    subst hn
    cases cs with
    | nil => exact .inl ⟨[], by rw [lex], List.forall_mem_singleton.2 rfl⟩
    | cons c cs =>
      rw [lex_cons]
      cases hscan : scan c cs with
      | error e =>
        obtain ⟨text, hopen, rfl⟩ := scan_eq_error hscan
        exact .inr ⟨text, rfl, hopen⟩
      | ok r =>
        obtain ⟨t, rest⟩ := r
        have hlen := scan_length hscan
        obtain ⟨w, hw, hkind⟩ := scan_takes hscan
        rw [hw]
        show (∃ ts, (t.toList ++ ·) <$> lex rest = .ok ts ∧ _) ∨
          ∃ text, (t.toList ++ ·) <$> lex rest = .error _ ∧ _
        rcases ih _ (Nat.lt_succ_of_le hlen) rest rfl with ⟨ts, hts, hb⟩ | ⟨text, he, hopen⟩
        · rw [hts]
          refine .inl ⟨_, rfl, ?_⟩
          rcases hkind with rfl | ⟨hn, hq⟩
          · exact hb.newline
          · exact hb.append hn hq
        · rw [he]
          refine .inr ⟨text, rfl, ?_⟩
          rcases hkind with rfl | ⟨hn, hq⟩
          · exact hopen.newline
          · exact hopen.append hn hq

/-! ## The text of the tokens -/

/-- The text without the spaces outside of quotes. It starts outside of them, unless `quoting`. -/
def unspaced (quoting : Bool) : List Char → List Char
  | [] => []
  | c :: cs =>
    let rest := unspaced (quoting ^^ c = '"') cs
    if !quoting && isSpace c then rest else c :: rest

/-- The text with `<>` for each `><` outside of quotes. A sign that has been taken for the second half of one
operator is not the first half of the next. -/
def reordered : (quoting : Bool) → List Char → List Char
  | _, [] => []
  | false, '<' :: '>' :: cs | false, '>' :: '<' :: cs => '<' :: '>' :: reordered false cs
  | quoting, c :: cs => c :: reordered (quoting ^^ c = '"') cs

/-- How a token stands in a text. -/
def Token.Spelled (t : Token) (w : List Char) : Prop :=
  w = t.render.toList ∨ t = .op .notEqual ∧ w = ['>', '<']

theorem unspaced_append {w : List Char} (hw : ∀ c ∈ w, c ≠ '"' ∧ isSpace c = false) (cs : List Char) :
    unspaced false (w ++ cs) = w ++ unspaced false cs := by
  induction w with
  | nil => rfl
  | cons c w ih =>
    obtain ⟨⟨hq, hs⟩, hw⟩ := List.forall_mem_cons.1 hw
    simp [unspaced, hq, hs, ih hw]

theorem unspaced_quoted {w : List Char} (hw : '"' ∉ w) (cs : List Char) :
    unspaced true (w ++ '"' :: cs) = w ++ '"' :: unspaced false cs := by
  induction w with
  | nil => rfl
  | cons c w ih =>
    obtain ⟨hq, hw⟩ : '"' ≠ c ∧ '"' ∉ w := by simpa using hw
    simp [unspaced, hq.symm, ih hw]

/-- A sign that does not belong to the next one stays where it is. -/
theorem reordered_cons {c : Char} {cs : List Char} (hq : c ≠ '"') (hl : c = '<' → cs.head? ≠ some '>')
    (hg : c = '>' → cs.head? ≠ some '<') : reordered false (c :: cs) = c :: reordered false cs := by
  rw [reordered]
  · simp [hq]
  · rintro _ ds rfl rfl
    exact hl rfl rfl
  · rintro _ ds rfl rfl
    exact hg rfl rfl

theorem reordered_append {w : List Char} (hw : ∀ c ∈ w, c ≠ '"' ∧ c ≠ '<' ∧ c ≠ '>') (cs : List Char) :
    reordered false (w ++ cs) = w ++ reordered false cs := by
  induction w with
  | nil => rfl
  | cons c w ih =>
    obtain ⟨⟨hq, hl, hg⟩, hw⟩ := List.forall_mem_cons.1 hw
    rw [List.cons_append, reordered_cons hq (absurd · hl) (absurd · hg), ih hw, List.cons_append]

theorem reordered_quoted {w : List Char} (hw : '"' ∉ w) (cs : List Char) :
    reordered true (w ++ '"' :: cs) = w ++ '"' :: reordered false cs := by
  induction w with
  | nil => rfl
  | cons c w ih =>
    obtain ⟨hq, hw⟩ : '"' ≠ c ∧ '"' ∉ w := by simpa using hw
    simp [reordered, hq.symm, ih hw]

theorem ne_of_isDelimiter {c d : Char} (h : isDelimiter c = false) (hd : isDelimiter d = true) : c ≠ d := by
  rintro rfl
  rw [h] at hd
  cases hd

theorem unspaced_lexeme {t : Token} (ht : t.IsLexeme) (cs : List Char) :
    unspaced false (t.render.toList ++ cs) = t.render.toList ++ unspaced false cs := by
  have hplain {w : List Char} (hw : ∀ c ∈ w, isDelimiter c = false) :
      unspaced false (w ++ cs) = w ++ unspaced false cs := by
    refine unspaced_append (fun c hc => ⟨ne_of_isDelimiter (hw c hc) rfl, ?_⟩) cs
    by_contra hs
    exact absurd (isDelimiter_of_isSpace (by simpa using hs)) (by simp [hw c hc])
  cases t with
  | comma | newline | lparen | rparen => rfl
  | op o => cases o <;> rfl
  | number digits => exact hplain fun c hc => isDelimiter_of_isDigit (ht.2 c hc)
  | word w =>
    obtain ⟨c, r, hw, -, hd⟩ := ht
    exact hplain fun a ha => hd a (hw ▸ ha)
  | quoted text =>
    have hq : '"' ∉ text.toList := fun hmem => absurd (ht _ hmem) (by decide)
    have hs : isSpace '"' = false := rfl
    simp [Token.render, unspaced, hs, unspaced_quoted hq]
  | unknown | expression | call | statement => exact ht.elim

theorem reordered_lexeme {t : Token} (ht : t.IsLexeme) {cs : List Char} (hc : t.EndsAt cs) :
    reordered false (t.render.toList ++ cs) = t.render.toList ++ reordered false cs := by
  have hplain {w : List Char} (hw : ∀ c ∈ w, isDelimiter c = false) :
      reordered false (w ++ cs) = w ++ reordered false cs :=
    reordered_append (fun c hc => ⟨ne_of_isDelimiter (hw c hc) rfl, ne_of_isDelimiter (hw c hc) rfl,
      ne_of_isDelimiter (hw c hc) rfl⟩) cs
  cases t with
  | comma | newline | lparen | rparen => rfl
  | op o =>
    cases o with
    | less => exact reordered_cons (by decide) (fun _ h => (hc _ h).1 rfl) (absurd · (by decide))
    | greater => exact reordered_cons (by decide) (absurd · (by decide)) (fun _ h => (hc _ h).1 rfl)
    | _ => rfl
  | number digits => exact hplain fun c hc => isDelimiter_of_isDigit (ht.2 c hc)
  | word w =>
    obtain ⟨c, r, hw, -, hd⟩ := ht
    exact hplain fun a ha => hd a (hw ▸ ha)
  | quoted text =>
    have hq : '"' ∉ text.toList := fun hmem => absurd (ht _ hmem) (by decide)
    simp [Token.render, reordered, reordered_quoted hq]
  | unknown | expression | call | statement => exact ht.elim

theorem unspaced_of_isSpace {c : Char} (h : isSpace c = true) (cs : List Char) :
    unspaced false (c :: cs) = unspaced false cs := by
  have hq : c ≠ '"' := by
    rintro rfl
    cases h
  simp [unspaced, h, hq]

/-- Each token stands in the text as it is spelled, and nothing else does but spaces. -/
theorem Lexed.spelled {cs : List Char} {ts : List Token} (h : Lexed cs ts) :
    ∃ ws, List.Forall₂ Token.Spelled ts ws ∧ ws.flatten = unspaced false cs := by
  induction h with
  | nil => exact ⟨[], .nil, rfl⟩
  | space hs _ ih =>
    rw [unspaced_of_isSpace hs]
    exact ih
  | token hscan _ ih =>
    obtain ⟨ws, hws, hflat⟩ := ih
    obtain ⟨hlex, -, htext | ⟨rfl, htext⟩⟩ := scan_eq_some hscan
    · refine ⟨_ :: ws, .cons (.inl rfl) hws, ?_⟩
      rw [htext, unspaced_lexeme hlex, List.flatten_cons, hflat]
    · refine ⟨_ :: ws, .cons (.inr ⟨rfl, rfl⟩) hws, ?_⟩
      rw [htext, List.flatten_cons, hflat]
      rfl

/-- The texts of the tokens, one after the other. -/
theorem Lexed.join_render {cs : List Char} {ts : List Token} (h : Lexed cs ts) :
    (String.join (Token.renderAll ts)).toList = unspaced false (reordered false cs) := by
  induction h with
  | nil => rfl
  | @space c cs ts hs _ ih =>
    have hc {d : Char} (hd : isSpace d = false) : c ≠ d := by
      rintro rfl
      rw [hs] at hd
      cases hd
    rw [reordered_cons (hc rfl) (absurd · (hc rfl)) (absurd · (hc rfl)), unspaced_of_isSpace hs, ih]
  | token hscan _ ih =>
    rw [Token.renderAll, String.join_cons, String.toList_append, ih]
    obtain ⟨hlex, hends, htext | ⟨rfl, htext⟩⟩ := scan_eq_some hscan
    · rw [htext, reordered_lexeme hlex hends, unspaced_lexeme hlex]
    · rw [htext]
      rfl

/-- A text can be lexed if and only if each of its lines has an even number of quotes. The error is about the
first line that has an odd number, from its last quote on. If there is none, the tokens are the text without
the spaces outside of quotes, cut into pieces that each spell one token, and their texts are the same with `<>`
for `><`. -/
theorem lex_iff_balanced (cs : List Char) :
    ((∃ e, lex cs = .error e) ↔ ∃ line ∈ Text.feeds cs, line.count '"' % 2 = 1) ∧
      (∀ e, lex cs = .error e → ∃ line front text,
        (Text.feeds cs).find? (·.count '"' % 2 = 1) = some line ∧ line = front ++ '"' :: text ∧
          '"' ∉ text ∧ e.code = .unmatchedQuotation ∧ e.detail.toList = '"' :: text) ∧
      ∀ ts, lex cs = .ok ts →
        (∃ ws, List.Forall₂ Token.Spelled ts ws ∧ ws.flatten = unspaced false cs) ∧
          (String.join (Token.renderAll ts)).toList = unspaced false (reordered false cs) := by
  refine ⟨?_, ?_, fun ts h => ⟨(lexed_of_lex h).spelled, (lexed_of_lex h).join_render⟩⟩
  · rcases lex_cases cs with ⟨ts, hts, hb⟩ | ⟨text, he, front, hfind, -⟩
    · refine ⟨fun ⟨e, he⟩ => absurd (hts.symm.trans he) (by simp), fun ⟨line, hmem, hline⟩ => ?_⟩
      exact absurd hline (of_decide_eq_false (hb line hmem))
    · have hodd : Text.isUnbalanced (front ++ '"' :: text) = true := List.find?_some hfind
      exact ⟨fun _ => ⟨_, List.mem_of_find?_eq_some hfind, of_decide_eq_true hodd⟩, fun _ => ⟨_, he⟩⟩
  · intro e h
    rcases lex_cases cs with ⟨ts, hts, -⟩ | ⟨text, he, front, hfind, htext⟩
    · cases hts.symm.trans h
    · cases he.symm.trans h
      refine ⟨_, front, text, hfind, rfl, htext, rfl, ?_⟩
      show ("\"" ++ String.ofList text).toList = _
      simp

/-- The second line of the one text opens a quote too many. In the other, of two signs with a space between
them none is moved. -/
theorem lex_iff_balanced_signs :
    (∃ e, lex "PRINT \"a\"\nPRINT \"b\", \" c".toList = .error e) ∧
      ∃ ts, lex "A ><1<>\"> <\" > <".toList = .ok ts ∧
        (String.join (Token.renderAll ts)).toList = "A<>1<>\"> <\"><".toList := by
  refine ⟨(lex_iff_balanced _).1.2 ⟨"PRINT \"b\", \" c".toList, by decide +kernel, by decide +kernel⟩, ?_⟩
  have hlex : lex "A ><1<>\"> <\" > <".toList =
      .ok [.word "A", .op .notEqual, .number "1", .op .notEqual, .quoted "> <", .op .greater, .op .less] := by
    decide +kernel
  exact ⟨_, hlex, ((lex_iff_balanced _).2.2 _ hlex).2.trans (by decide +kernel)⟩

end LineBasic
