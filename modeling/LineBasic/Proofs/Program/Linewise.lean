import LineBasic.Proofs.Program.Loading
import LineBasic.Proofs.Statement.LineEnd

/-!
# Texts read as a whole and line by line

A text can be lexed as a whole and its tokens read line after line (`readLines`), or it can be cut into
lines first and each of them parsed by itself (`parseLines`). The two agree on every text that can be
lexed (`readLines_agree`): no token reaches over the end of a line (`lex_line`), no reader looks beyond it
(`Statement.readLine_newline`), and a line that is a remark in the one is a remark in the other. Blank
lines are the only ones that are counted differently, and the text of a remark is kept with its blanks
only where it was not lexed.
-/
namespace LineBasic

/-! ## The first line of a text -/

namespace Text

theorem lines_append_return {t : List Char} (hn : '\n' ∉ t) (cs : List Char) :
    lines (t ++ '\r' :: '\n' :: cs) = t :: lines cs := by
  induction t with
  | nil => rfl
  | cons c t ih =>
    obtain ⟨hc, hn⟩ : '\n' ≠ c ∧ '\n' ∉ t := by simpa using hn
    refine lines_cons hc.symm (fun _ => ?_) (ih hn)
    cases t with
    | nil => simp
    | cons d t =>
      have hd : d ≠ '\n' := fun h => hn (by simp [h])
      simpa using hd

/-- A text has no line feed, or its first line ends at one, with spaces between them that do not count. -/
theorem lines_cases (cs : List Char) :
    '\n' ∉ cs ∨ ∃ t sp rest, cs = t ++ (sp ++ '\n' :: rest) ∧ (∀ c ∈ sp, isSpace c = true) ∧ '\n' ∉ t ∧
      lines cs = t :: lines rest := by
  by_cases hmem : '\n' ∈ cs
  · right
    obtain ⟨t, rest, rfl, ht⟩ := List.eq_append_cons_of_mem hmem
    by_cases hr : t.getLast? = some '\r'
    · obtain ⟨u, rfl⟩ := List.getLast?_eq_some_iff.1 hr
      have hu : '\n' ∉ u := fun h => ht (by simp [h])
      refine ⟨u, ['\r'], rest, by simp, List.forall_mem_singleton.2 rfl, hu, ?_⟩
      rw [List.append_assoc]
      exact lines_append_return hu rest
    · exact ⟨t, [], rest, by simp, by simp, ht, lines_append ht hr rest⟩
  · exact .inl hmem

end Text

/-! ## Tokens and the end of a line -/

/-- The text of a token is a line feed, or it has none and does not end in a blank. -/
theorem text_of_scan {c : Char} {cs rest : List Char} {t : Token} (h : scan c cs = .ok (some t, rest)) :
    ∃ w, c :: cs = w ++ rest ∧
      (w = ['\n'] ∨ '\n' ∉ w ∧ ∃ d, w.getLast? = some d ∧ Text.isBlank d = false) := by
  obtain ⟨hlex, -, htext | ⟨-, htext⟩⟩ := scan_eq_some h
  · refine ⟨t.render.toList, htext, ?_⟩
    by_cases ht : t.isNewline = true
    · cases t <;> first | exact .inl rfl | cases ht
    · refine .inr ⟨fun hmem => ht (by rw [hlex.eq_newline hmem]; rfl), ?_⟩
      exact hlex.inked (by simpa using ht)
  · exact ⟨['>', '<'], htext, .inr ⟨by decide, '<', rfl, rfl⟩⟩

/-- Spaces up to the end of the text or of a line. -/
def Trails (b : List Char) : Prop :=
  ∃ sp, (∀ c ∈ sp, isSpace c = true) ∧ (b = sp ∨ ∃ rest, b = sp ++ '\n' :: rest)

/-- Part of what trails has a line feed or ends in a blank. -/
theorem Trails.part {b y rest : List Char} (hb : Trails b) (h : b = y ++ rest) (hy : y ≠ []) :
    '\n' ∈ y ∨ ∃ d, y.getLast? = some d ∧ Text.isBlank d = true := by
  have hspaces (hall : ∀ c ∈ y, isSpace c = true) :
      ∃ d, y.getLast? = some d ∧ Text.isBlank d = true :=
    ⟨_, List.getLast?_eq_some_getLast hy, isBlank_of_isSpace (hall _ (List.getLast_mem hy))⟩
  obtain ⟨sp, hsp, rfl | ⟨r, rfl⟩⟩ := hb
  · subst h
    exact .inr (hspaces fun c hc => hsp c (by simp [hc]))
  · rcases List.append_eq_append_iff.1 h with ⟨z, rfl, hz⟩ | ⟨z, rfl, -⟩
    · cases z with
      | nil => exact .inr (hspaces (by simpa using hsp))
      | cons c z =>
        cases hz
        exact .inl (by simp)
    · exact .inr (hspaces fun c hc => hsp c (by simp [hc]))

theorem Token.EndsAt.of_append {t : Token} {cs b : List Char} (h : t.EndsAt (cs ++ b)) : t.EndsAt cs := by
  cases cs with
  | nil => exact t.endsAt_nil
  | cons c cs => exact h

/-- No token reaches into what trails. -/
theorem scan_of_trails {b : List Char} (hb : Trails b) {c : Char} {cs rest : List Char} {t : Token}
    (h : scan c (cs ++ b) = .ok (some t, rest)) :
    ∃ mid, rest = mid ++ b ∧ scan c cs = .ok (some t, mid) := by
  obtain ⟨w, hw, hend⟩ := text_of_scan h
  have hmid : ∃ mid, rest = mid ++ b ∧ c :: cs = w ++ mid := by
    rw [← List.cons_append] at hw
    rcases List.append_eq_append_iff.1 hw with ⟨y, rfl, hy⟩ | ⟨mid, hmid, hrest⟩
    · cases y with
      | nil => exact ⟨[], by simpa using hy.symm, by simp⟩
      | cons d y =>
        -- the token would have a line feed inside it or end in a blank
        have hpart := hb.part hy (by simp)
        rcases hend with hline | ⟨hn, e, he, hblank⟩
        · simp at hline
        · rcases hpart with hmem | ⟨e', he', hblank'⟩
          · exact absurd (List.mem_append_right _ hmem) hn
          · rw [List.getLast?_append, he', Option.some_or] at he
            cases he
            rw [hblank] at hblank'
            cases hblank'
    · exact ⟨mid, hrest, hmid⟩
  obtain ⟨mid, rfl, hcs⟩ := hmid
  refine ⟨mid, rfl, ?_⟩
  obtain ⟨hlex, hends, htext | ⟨rfl, htext⟩⟩ := scan_eq_some h
  · rw [← List.cons_append, ← List.append_assoc] at htext
    obtain ⟨d, r, hr, hscan⟩ := scan_lexeme hlex hends.of_append
    rw [hr] at htext
    cases List.append_cancel_right htext
    exact hscan
  · obtain ⟨rfl, htail⟩ := List.cons.inj htext
    rw [← List.cons_append] at htail
    cases List.append_cancel_right htail
    rfl

theorem lexed_of_trails {cs b : List Char} {ts : List Token} (hb : Trails b) (h : Lexed (cs ++ b) ts) :
    ∃ us vs, Lexed cs us ∧ Lexed b vs ∧ ts = us ++ vs := by
  -- along the tokens of the whole text: each starts before `b` and ends there, or `cs` is used up
  generalize hx : cs ++ b = x at h
  induction h generalizing cs with
  | nil =>
    obtain ⟨rfl, rfl⟩ := List.append_eq_nil_iff.1 hx
    exact ⟨[], [], .nil, .nil, rfl⟩
  | @space c xs ts hs h ih =>
    cases cs with
    | nil =>
      subst hx
      exact ⟨[], ts, .nil, .space hs h, rfl⟩
    | cons d cs =>
      cases hx
      obtain ⟨us, vs, hus, hvs, rfl⟩ := ih rfl
      exact ⟨us, vs, .space hs hus, hvs, rfl⟩
  | @token c xs rest t ts hscan h ih =>
    cases cs with
    | nil =>
      subst hx
      exact ⟨[], t :: ts, .nil, .token hscan h, rfl⟩
    | cons d cs =>
      cases hx
      obtain ⟨mid, rfl, hscan'⟩ := scan_of_trails hb hscan
      obtain ⟨us, vs, hus, hvs, rfl⟩ := ih rfl
      exact ⟨t :: us, vs, .token hscan' hus, hvs, rfl⟩

/-- The tokens of a text are those of its first line, a line feed and those of the other lines. -/
theorem lex_line {l sp rest : List Char} {ts : List Token} (hsp : ∀ c ∈ sp, isSpace c = true)
    (h : lex (l ++ (sp ++ '\n' :: rest)) = .ok ts) :
    ∃ us vs, lex l = .ok us ∧ lex rest = .ok vs ∧ ts = us ++ .newline :: vs := by
  have htrails : Trails (sp ++ '\n' :: rest) := ⟨sp, hsp, .inr ⟨rest, rfl⟩⟩
  obtain ⟨us, ws, hus, hws, rfl⟩ := lexed_of_trails htrails (lexed_of_lex h)
  have hws := hws.lex_eq
  rw [lex_append_of_isSpace hsp] at hws
  rcases lex_cons_eq_ok hws with ⟨hs, -⟩ | ⟨t, _, vs, hscan, hvs, rfl⟩
  · exact absurd hs (by decide)
  · cases hscan
    exact ⟨us, vs, hus.lex_eq, hvs, rfl⟩

theorem newline_not_mem_of_lex {cs : List Char} {ts : List Token} (h : lex cs = .ok ts) (hcs : '\n' ∉ cs) :
    Token.newline ∉ ts := by
  replace h := lexed_of_lex h
  induction h with
  | nil => simp
  | space _ _ ih => exact ih fun hmem => hcs (List.mem_cons_of_mem _ hmem)
  | @token c cs rest t us hscan _ ih =>
    intro hmem
    obtain ⟨-, -, htext | ⟨rfl, htext⟩⟩ := scan_eq_some hscan
    · rw [htext] at hcs
      rcases List.mem_cons.1 hmem with rfl | hmem
      · exact hcs List.mem_cons_self
      · exact ih (fun hrest => hcs (List.mem_append_right _ hrest)) hmem
    · rw [htext] at hcs
      rcases List.mem_cons.1 hmem with ht | hmem
      · cases ht
      · exact ih (fun hrest => hcs (List.mem_cons_of_mem _ (List.mem_cons_of_mem _ hrest))) hmem

/-! ## One line -/

/-- The tokens of a remark that is lexed with its text. -/
theorem IsRemark.tokens_eq {cs lead digits gap rest : List Char} {us : List Token}
    (h : IsRemark cs lead digits gap rest) (hus : lex cs = .ok us) :
    ∃ ws, us = labelTokens digits ++ .word "REM" :: ws := by
  have hbody := lex_unlabelled hus
  rw [h.unlabelled_eq] at hbody
  obtain ⟨c, r, hcr, hscan⟩ := scan_lexeme isLexeme_rem h.rest
  cases hcr
  rcases lex_cons_eq_ok hbody with ⟨hs, -⟩ | ⟨t, rest', ws, hscan', hws, -⟩
  · exact absurd hs (by decide)
  · cases hscan.symm.trans hscan'
    have hrem : lex ('R' :: 'E' :: 'M' :: rest) = .ok (.word "REM" :: ws) :=
      lex_lexeme isLexeme_rem h.rest hws
    have hcs : lex cs = .ok (labelTokens digits ++ .word "REM" :: ws) := by
      rw [h.text, lex_append_of_isSpace h.lead]
      refine lex_digits_append h.digits (h.isDigit_head _) ?_
      rw [lex_append_of_isSpace h.gap, hrem]
    cases hus.symm.trans hcs
    exact ⟨ws, rfl⟩

namespace Statement

/-- The statement without the text of a remark. -/
def bare (s : Statement) : Statement :=
  if s.isRemark then { s with args := [] } else s

theorem isBlank_bare (s : Statement) : s.bare.isBlank = s.isBlank := by
  unfold bare
  split <;> rfl

/-- The digits in front of a line are a label, or the line is refused for them. -/
theorem labels_or_stuck (digits : List Char) :
    (∃ l, Labels (labelTokens digits) l) ∨
      ∃ c : Error.Cause, ∀ ts, ∃ rest, readLabel (labelTokens digits ++ ts) = .fail c rest := by
  unfold labelTokens
  split
  · exact .inl ⟨none, .none⟩
  · cases hl : label? (String.ofList digits).toList with
    | some l => exact .inl ⟨some l, .some hl⟩
    | none =>
      refine .inr ⟨.labelRange (String.ofList digits), fun ts => ⟨.number (String.ofList digits) :: ts, ?_⟩⟩
      rw [List.singleton_append, readLabel, hl]

theorem parse_of_stuck {text : String} {code : List Char} {remark : Option (List Char)} {us rest : List Token}
    {e : Error} (hsplit : splitRemark text.toList = (code, remark)) (hlex : lex code = .ok us)
    (h : readLine us = .stuck e rest) : parse text = .error e := by
  simp only [parse, hsplit, hlex, Except.bind, h]

/-- A line that can be lexed is parsed as its tokens are read. -/
theorem parse_of_lex {text : String} {us : List Token} (hline : '\n' ∉ text.toList)
    (hlex : lex text.toList = .ok us) :
    (∃ s s', parse text = .ok s ∧ readLine us = .done s' [] ∧ s.bare = s'.bare) ∨
      ∃ e e' rest, parse text = .error e ∧ readLine us = .stuck e' rest ∧ e'.code = e.code ∧
        e'.label = e.label := by
  have hus := newline_not_mem_of_lex hlex hline
  cases hsplit : splitRemark text.toList with
  | mk code remark =>
    cases remark with
    | none =>
      obtain rfl := code_of_splitRemark hsplit
      rcases readLine_newline hus [] with ⟨s, hs, -⟩ | ⟨e, -, rest, -, he, -⟩
      · exact .inl ⟨s, s, parse_eq_of_readLine hsplit hlex hs, hs, rfl⟩
      · exact .inr ⟨e, e, rest, parse_of_stuck hsplit hlex he, he, rfl, rfl⟩
    | some text =>
      -- of the text of the remark one side reads nothing and the other takes any tokens
      obtain ⟨lead, digits, gap, hr⟩ := isRemark_of_splitRemark hsplit
      obtain ⟨ws, rfl⟩ := hr.tokens_eq hlex
      rcases labels_or_stuck digits with ⟨l, hl⟩ | ⟨c, hc⟩
      · have hws : ∀ t ∈ ws, t.isNewline = false := by
          intro t ht
          cases t with
          | newline => exact absurd (by simp [ht]) hus
          | _ => rfl
        have hrem : Derives (.word "REM" :: ws) ⟨.remark, remarkArgs ws, none⟩ :=
          .simple (k := .remark) ⟨hws, rfl⟩
        have hread := readLine_of_isBody hl (.inr hrem) .stop
        rw [List.append_nil] at hread
        exact .inl ⟨_, _, hr.parse_eq_ok hl, hread, rfl⟩
      · obtain ⟨rest, hread⟩ := hc (.word "REM" :: ws)
        obtain ⟨rest', hread'⟩ := hc [.word "REM"]
        exact .inr ⟨_, _, rest, parse_of_stuck hr.splitRemark_eq hr.lex_code (readLine_of_readLabel hread'),
          readLine_of_readLabel hread, rfl, rfl⟩

end Statement

/-! ## Whole texts -/

/-- The statements of some lines, up to the first that cannot be read, and the error of that one. -/
structure Transcript where
  statements : List Statement := []
  error : Option Error := none

namespace Transcript

/-- The transcript with a line in front that was read. -/
def after (s : Statement) (x : Transcript) : Transcript :=
  { x with statements := s :: x.statements }

/-- Blank lines and the texts of remarks apart, the statements are the same, and the errors have the same
code and label. -/
def Agree (x y : Transcript) : Prop :=
  (x.statements.filter (!·.isBlank)).map Statement.bare =
      (y.statements.filter (!·.isBlank)).map Statement.bare ∧
    x.error.map (fun e => (e.code, e.label)) = y.error.map (fun e => (e.code, e.label))

theorem agree_empty : Agree {} {} :=
  ⟨rfl, rfl⟩

theorem agree_error {e e' : Error} (hcode : e.code = e'.code) (hlabel : e.label = e'.label) :
    Agree { error := some e } { error := some e' } :=
  ⟨rfl, by simp [hcode, hlabel]⟩

theorem Agree.after {x y : Transcript} {s s' : Statement} (h : Agree x y) (hs : s.bare = s'.bare) :
    Agree (x.after s) (y.after s') := by
  have hblank : s.isBlank = s'.isBlank := by
    rw [← s.isBlank_bare, hs, s'.isBlank_bare]
  refine ⟨?_, h.2⟩
  simp only [Transcript.after, List.filter_cons, hblank]
  split
  · rw [List.map_cons, List.map_cons, hs, h.1]
  · exact h.1

theorem Agree.after_blank {x y : Transcript} {s : Statement} (h : Agree x y) (hs : s.isBlank = true) :
    Agree x (y.after s) :=
  ⟨by simpa [Transcript.after, hs] using h.1, h.2⟩

end Transcript

namespace Statement

/-- A line takes tokens, if there are any. -/
theorem readLine_length {ts rest : List Token} {s : Statement} (hne : ts ≠ [])
    (h : readLine ts = .done s rest) : rest.length < ts.length := by
  obtain ⟨ls, us, es, l, b, rfl, -, -, he, -⟩ := readLine_eq_done h
  cases he with
  | stop => exact List.length_pos_of_ne_nil hne
  | newline =>
    simp only [List.length_append, List.length_cons]
    omega

/-- Reads the tokens of a text line by line. -/
def readLines : List Token → Transcript
  | [] => {}
  | t :: ts =>
    match _h : readLine (t :: ts) with
    | .stuck e _ => { error := some e }
    | .done s rest => (readLines rest).after s
termination_by ts => ts.length
decreasing_by exact readLine_length (by simp) _h

/-- Parses the lines of a text one by one. -/
def parseLines : List (List Char) → Transcript
  | [] => {}
  | l :: ls =>
    match parse (String.ofList l) with
    | .error e => { error := some e }
    | .ok s => (parseLines ls).after s

section

variable {ts rest : List Token} {l : List Char} {s : Statement} {e : Error}

theorem readLines_of_stuck (hne : ts ≠ []) (h : readLine ts = .stuck e rest) :
    readLines ts = { error := some e } := by
  obtain ⟨t, ts, rfl⟩ := List.exists_cons_of_ne_nil hne
  rw [readLines]
  split <;> rename_i heq <;> cases h.symm.trans heq
  rfl

theorem readLines_of_done (hne : ts ≠ []) (h : readLine ts = .done s rest) :
    readLines ts = (readLines rest).after s := by
  obtain ⟨t, ts, rfl⟩ := List.exists_cons_of_ne_nil hne
  rw [readLines]
  split <;> rename_i heq <;> cases h.symm.trans heq
  rfl

theorem parseLines_of_error (h : parse (String.ofList l) = .error e) (ls : List (List Char)) :
    parseLines (l :: ls) = { error := some e } := by
  rw [parseLines, h]

theorem parseLines_of_ok (h : parse (String.ofList l) = .ok s) (ls : List (List Char)) :
    parseLines (l :: ls) = (parseLines ls).after s := by
  rw [parseLines, h]

end

/-- The last line of a text, which no line feed ends. -/
theorem agree_last {l : List Char} {us : List Token} (hline : '\n' ∉ l) (hlex : lex l = .ok us) :
    (readLines us).Agree (parseLines [l]) := by
  rw [← String.toList_ofList (l := l)] at hline hlex
  by_cases hne : us = []
  · -- a line of spaces is parsed as a blank one, but has no tokens to be read
    subst hne
    rcases parse_of_lex hline hlex with ⟨s, s', hs, hs', hbare⟩ | ⟨_, _, _, _, h, _⟩
    · cases hs'
      rw [parseLines_of_ok hs, readLines]
      refine Transcript.agree_empty.after_blank ?_
      rw [← s.isBlank_bare, hbare]
      rfl
    · cases h
  · rcases parse_of_lex hline hlex with ⟨s, s', hs, hs', hbare⟩ | ⟨e, e', rest, he, he', hcode, hlabel⟩
    · rw [parseLines_of_ok hs, readLines_of_done hne hs', readLines]
      exact Transcript.agree_empty.after hbare.symm
    · rw [parseLines_of_error he, readLines_of_stuck hne he']
      exact Transcript.agree_error hcode hlabel

/-- A line before others. -/
theorem agree_cons {l : List Char} {us vs : List Token} {ls : List (List Char)} (hline : '\n' ∉ l)
    (hlex : lex l = .ok us) (h : (readLines vs).Agree (parseLines ls)) :
    (readLines (us ++ .newline :: vs)).Agree (parseLines (l :: ls)) := by
  have hus := newline_not_mem_of_lex hlex hline
  rw [← String.toList_ofList (l := l)] at hline hlex
  have hne : us ++ .newline :: vs ≠ [] := by simp
  rcases readLine_newline hus vs with ⟨t, ht, ht'⟩ | ⟨e, e', rest, rest', he, he', hcode, hlabel⟩
  · rcases parse_of_lex hline hlex with ⟨s, s', hs, hs', hbare⟩ | ⟨_, _, _, _, hstuck, _⟩
    · cases ht.symm.trans hs'
      rw [parseLines_of_ok hs, readLines_of_done hne ht']
      exact h.after hbare.symm
    · cases ht.symm.trans hstuck
  · rcases parse_of_lex hline hlex with ⟨_, _, _, hdone, _⟩ | ⟨e₀, e₁, rest₁, hp, hr, hcode', hlabel'⟩
    · cases he.symm.trans hdone
    · cases he.symm.trans hr
      rw [parseLines_of_error hp, readLines_of_stuck hne he']
      exact Transcript.agree_error (hcode.trans hcode') (hlabel.trans hlabel')

/-- A text that can be lexed gives the same statements and the same error, whether it is read as a whole or
line by line. -/
theorem readLines_agree {cs : List Char} {ts : List Token} (h : lex cs = .ok ts) :
    (readLines ts).Agree (parseLines (Text.lines cs)) := by
  induction hn : cs.length using Nat.strong_induction_on generalizing cs ts with
  | _ n ih =>
    subst hn
    rcases Text.lines_cases cs with hline | ⟨l, sp, rest, rfl, hsp, hline, hlines⟩
    · by_cases hne : cs = []
      · subst hne
        rw [lex] at h
        cases h
        rw [readLines]
        exact Transcript.agree_empty
      · rw [Text.lines_of_newline_not_mem hne hline]
        exact agree_last hline h
    · obtain ⟨us, vs, hus, hvs, rfl⟩ := lex_line hsp h
      rw [hlines]
      refine agree_cons hline hus (ih rest.length ?_ hvs rfl)
      simp only [List.length_append, List.length_cons]
      omega

/-- Read in both ways, the line after the blank ones is refused. -/
theorem readLines_agree_refused :
    ∃ ts, lex "10 REM \"x\"  y\r\n\n  \n20 IF A = 1 THEN LET B =\n30 END".toList = .ok ts ∧
      (readLines ts).Agree
        (parseLines (Text.lines "10 REM \"x\"  y\r\n\n  \n20 IF A = 1 THEN LET B =\n30 END".toList)) ∧
      (readLines ts).statements =
        [⟨.remark, [.unknown "\"x\" y"], some 10⟩, { keyword := .blank }, { keyword := .blank }] ∧
      (readLines ts).error.map (fun e => (e.code, e.label)) = some (.emptyExpression, some 20) := by
  have h : lex "10 REM \"x\"  y\r\n\n  \n20 IF A = 1 THEN LET B =\n30 END".toList =
      .ok [.number "10", .word "REM", .quoted "x", .word "y", .newline, .newline, .newline, .number "20",
        .word "IF", .word "A", .op .equal, .number "1", .word "THEN", .word "LET", .word "B", .op .equal,
        .newline, .number "30", .word "END"] := by decide +kernel
  exact ⟨_, h, readLines_agree h, by decide +kernel, by decide +kernel⟩

end Statement

end LineBasic
