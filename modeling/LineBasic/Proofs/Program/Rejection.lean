import LineBasic.Proofs.Program.Linewise

/-!
# Where a file is refused

A file is refused at its first line that cannot be parsed or numbered, and the error is on the label of that
line: the number that it starts with, if that is one in range, or else the label that it would have got
(`refused_at`). It does not matter at which stage the line was refused. An error of the lexer knows no
label; one of a reader knows the label only if that was read, and then it is the line's own
(`ownLabel?_of_error`).
-/
namespace LineBasic

namespace Program

/-! ## The number in front of a line -/

/-- The text starts with the decimal number `n`, after blanks. -/
def Leads (text : List Char) (n : Nat) : Prop :=
  ∃ sp digits rest, text = sp ++ (digits ++ rest) ∧ (∀ c ∈ sp, Text.isBlank c = true) ∧
    (∀ c ∈ rest.head?, c.isDigit = false) ∧ Text.decimal? digits = some n

theorem isDigit_of_decimal? {digits : List Char} {n : Nat} (h : Text.decimal? digits = some n) :
    digits ≠ [] ∧ ∀ c ∈ digits, c.isDigit = true := by
  unfold Text.decimal? at h
  split at h
  · next hd => simpa using hd
  · cases h

theorem isBlank_of_isDigit {c : Char} (h : c.isDigit = true) : Text.isBlank c = false :=
  isBlank_of_isDelimiter (isDelimiter_of_isDigit h)

/-- The digits in front of a text, after blanks. -/
theorem takeWhile_trimStart {sp digits rest : List Char} (hsp : ∀ c ∈ sp, Text.isBlank c = true)
    (hne : digits ≠ []) (hdigits : ∀ c ∈ digits, c.isDigit = true)
    (hrest : ∀ c ∈ rest.head?, c.isDigit = false) :
    (Text.trimStart (sp ++ (digits ++ rest))).takeWhile Char.isDigit = digits := by
  have htrim : Text.trimStart (sp ++ (digits ++ rest)) = digits ++ rest := by
    rw [Text.trimStart, List.dropWhile_append_of_pos hsp]
    obtain ⟨d, ds, rfl⟩ := List.exists_cons_of_ne_nil hne
    exact List.dropWhile_cons_of_neg (by simp [isBlank_of_isDigit (hdigits d (by simp))])
  rw [htrim]
  exact (takeWhile_append_of_head hdigits hrest).1

/-- A line has a label of its own if it starts with a number in range. -/
theorem ownLabel?_eq_some {text : List Char} {n : Label} :
    ownLabel? text = some n ↔ Leads text n ∧ 1 ≤ n ∧ n ≤ maxLabel := by
  rw [ownLabel?, Statement.label?, Option.filter_eq_some_iff, Bool.and_eq_true, decide_eq_true_eq,
    decide_eq_true_eq]
  refine and_congr_left fun _ => ⟨fun h => ?_, ?_⟩
  · refine ⟨text.takeWhile Text.isBlank, (Text.trimStart text).takeWhile Char.isDigit,
      (Text.trimStart text).dropWhile Char.isDigit, ?_, fun c hc => List.mem_takeWhile_imp hc,
      head_dropWhile _ _, h⟩
    rw [List.takeWhile_append_dropWhile, Text.trimStart, List.takeWhile_append_dropWhile]
  · rintro ⟨sp, digits, rest, rfl, hsp, hrest, hn⟩
    obtain ⟨hne, hdigits⟩ := isDigit_of_decimal? hn
    rw [takeWhile_trimStart hsp hne hdigits hrest, hn]

/-! ## The label that was read -/

theorem trimStart_eq {cs : List Char} (h : '\n' ∉ cs) : Text.trimStart cs = cs.dropWhile isSpace := by
  unfold Text.trimStart
  induction cs with
  | nil => rfl
  | cons c cs ih =>
    obtain ⟨hc, h⟩ : '\n' ≠ c ∧ '\n' ∉ cs := by simpa using h
    have hspace : isSpace c = Text.isBlank c := by simp [isSpace, hc.symm]
    rw [List.dropWhile_cons, List.dropWhile_cons, hspace, ih h]

/-- The label that is read from the tokens of a line is the one its text starts with. -/
theorem ownLabel?_of_readLabel {cs : List Char} {us body : List Token} {l : Option Label}
    (hline : '\n' ∉ cs) (hlex : lex cs = .ok us) (h : Statement.readLabel us = .done l body) :
    ownLabel? cs = l := by
  rw [ownLabel?, trimStart_eq hline]
  rw [← lex_dropWhile_isSpace] at hlex
  cases hcs : cs.dropWhile isSpace with
  | nil =>
    rw [hcs, lex] at hlex
    cases hlex
    cases h
    rfl
  | cons c r =>
    have hs : isSpace c = false := head_dropWhile isSpace cs c (by rw [hcs]; rfl)
    rw [hcs] at hlex
    rcases lex_cons_eq_ok hlex with ⟨hs', -⟩ | ⟨t, rest, us, hscan, -, rfl⟩
    · rw [hs] at hs'
      cases hs'
    · by_cases hd : c.isDigit = true
      · rw [scan_of_not_isDelimiter (isDelimiter_of_isDigit hd), if_pos hd] at hscan
        cases hscan
        rw [List.takeWhile_cons_of_pos hd]
        rw [Statement.readLabel, String.toList_ofList] at h
        split at h
        · next hl =>
          cases h
          exact hl
        · cases h
      · rw [List.takeWhile_cons_of_neg hd]
        cases t with
        | number digits => exact absurd (isDigit_of_scan hscan) hd
        | _ =>
          cases h
          rfl

end Program

theorem IsRemark.ownLabel?_eq {cs lead digits gap rest : List Char} (h : IsRemark cs lead digits gap rest)
    {l : Option Label} (hl : Statement.Labels (labelTokens digits) l) : Program.ownLabel? cs = l := by
  rw [Program.ownLabel?, h.text]
  have hlead := fun c hc => isBlank_of_isSpace (h.lead c hc)
  have hgap := fun c hc => isBlank_of_isSpace (h.gap c hc)
  unfold labelTokens at hl
  split at hl
  · next hnil =>
    subst hnil
    cases hl
    rw [Text.trimStart, List.dropWhile_append_of_pos hlead, List.nil_append,
      List.dropWhile_append_of_pos hgap]
    rfl
  · next hne =>
    rw [Program.takeWhile_trimStart hlead hne h.digits (h.isDigit_head _)]
    cases hl with
    | some hl => rwa [String.toList_ofList] at hl

namespace Program

theorem ownLabel?_of_parse {text : List Char} {s : Statement} (hline : '\n' ∉ text)
    (h : Statement.parse (String.ofList text) = .ok s) : ownLabel? text = s.label := by
  cases hsplit : splitRemark (String.ofList text).toList with
  | mk code remark =>
    cases remark with
    | none =>
      obtain ⟨us, hlex, hread⟩ := Statement.readLine_of_parse hsplit h
      obtain ⟨body, hlabel⟩ := Statement.readLabel_of_readLine hread
      rw [code_of_splitRemark hsplit, String.toList_ofList] at hlex
      exact ownLabel?_of_readLabel hline hlex hlabel
    | some rest =>
      obtain ⟨lead, digits, gap, hr⟩ := isRemark_of_splitRemark hsplit
      obtain ⟨l, hl, rfl⟩ := hr.parse_inv h
      rw [String.toList_ofList] at hr
      exact hr.ownLabel?_eq hl

/-- The error of a line that cannot be parsed is on no label or on the line's own. -/
theorem ownLabel?_of_error {text : List Char} {e : Error} (hline : '\n' ∉ text)
    (h : Statement.parse (String.ofList text) = .error e) : e.label = none ∨ ownLabel? text = e.label := by
  cases hsplit : splitRemark (String.ofList text).toList with
  | mk code remark =>
    cases remark with
    | none =>
      have hcode : code = text := by rw [code_of_splitRemark hsplit, String.toList_ofList]
      subst hcode
      cases hlex : lex code with
      | error e' =>
        simp only [Statement.parse, hsplit, hlex, Except.bind] at h
        cases h
        exact .inl (rejects_lex code e hlex).2
      | ok us =>
        rcases Statement.readLine_newline (newline_not_mem_of_lex hlex hline) [] with
          ⟨s, hs, -⟩ | ⟨e', -, rest, -, he, -⟩
        · have hparse : Statement.parse (String.ofList code) = .ok s :=
            Statement.parse_eq_of_readLine (by rw [hsplit, String.toList_ofList])
              (by rw [String.toList_ofList, hlex]) hs
          cases hparse.symm.trans h
        · cases (Statement.parse_of_stuck hsplit hlex he).symm.trans h
          rcases Statement.label_of_readLine he with ⟨-, hnone⟩ | ⟨body, hlabel⟩
          · exact .inl hnone
          · exact .inr (ownLabel?_of_readLabel hline hlex hlabel)
    | some rest =>
      obtain ⟨lead, digits, gap, hr⟩ := isRemark_of_splitRemark hsplit
      rcases Statement.labels_or_stuck digits with ⟨l, hl⟩ | ⟨c, hc⟩
      · cases (hr.parse_eq_ok hl).symm.trans h
      · obtain ⟨mid, hread⟩ := hc [.word "REM"]
        cases (Statement.parse_of_stuck hr.splitRemark_eq hr.lex_code
          (Statement.readLine_of_readLabel hread)).symm.trans h
        exact .inl rfl

/-! ## The line that is refused -/

/-- The label of the last of these lines that is not blank, or `last` if there is none. -/
def lastLabel (last : Label) (texts : List (List Char)) : Label :=
  ((numbered last (statements texts)).getLast?.map FileLine.label).getD last

/-- Why a line that follows one labelled `last` is refused with the error `e`: it cannot be parsed, or it
needs a label and none is left. -/
inductive Unfit (last : Label) (text : List Char) (e : Error) : Prop
  | unparsed {e' : Error} (h : Statement.parse (String.ofList text) = .error e') (hcode : e.code = e'.code)
      (hdetail : e.detail = e'.detail)
  | unnumbered {s : Statement} (h : Statement.parse (String.ofList text) = .ok s)
      (hs : s.isBlank = false) (hlabel : s.label = none) (hlast : last = maxLabel)
      (hcode : e.code = .invalidLabel)

/-- A line is refused on its own label, or on the one that it would have got. -/
theorem unfit_of_addText {last : Label} {p : Program} {text : List Char} {e : Error} (hline : '\n' ∉ text)
    (hlast : last ≤ maxLabel) (h : addText last p text = .error e) :
    Unfit last text e ∧ e.label = some ((ownLabel? text).getD (min maxLabel (last + 1))) := by
  rw [Nat.min_comm]
  cases hparse : Statement.parse (String.ofList text) with
  | error e' =>
    rw [addText, hparse] at h
    cases h
    refine ⟨.unparsed hparse rfl rfl, ?_⟩
    -- a label that the parser has put on the error stays
    show (e'.label <|> some _) = _
    rcases ownLabel?_of_error hline hparse with hnone | hown
    · rw [hnone]
      rfl
    · rw [← hown]
      cases ownLabel? text <;> rfl
  | ok s =>
    by_cases hs : s.isBlank = true
    · cases (addText_of_blank hparse hs last p).symm.trans h
    · cases hlabel : s.label with
      | some l => cases (addText_of_parse hparse hlabel last p).symm.trans h
      | none =>
        have hk : ¬ s.keyword = .blank := fun hk => hs (by simp [Statement.isBlank, hlabel, hk])
        rw [addText, hparse] at h
        dsimp only [Except.mapError, bind, Except.bind] at h
        rw [hlabel] at h
        dsimp only at h
        rw [if_neg hk] at h
        split at h
        · next hfull =>
          cases h
          refine ⟨.unnumbered hparse (by simpa using hs) hlabel (Nat.le_antisymm hlast hfull) rfl, ?_⟩
          rw [ownLabel?_of_parse hline hparse, hlabel]
          rfl
        · cases h

section

variable {text : List Char} {s : Statement} (h : Statement.parse (String.ofList text) = .ok s)
  (last : Label) (texts : List (List Char))

include h

theorem lastLabel_cons_of_blank (hs : s.isBlank = true) :
    lastLabel last (text :: texts) = lastLabel last texts := by
  rw [lastLabel, statements_cons h, numbered, if_pos hs, lastLabel]

theorem lastLabel_cons (hs : ¬ s.isBlank = true) :
    lastLabel last (text :: texts) = lastLabel (FileLine.label ⟨last, s⟩) texts := by
  rw [lastLabel, numbered_cons h last texts hs, List.getLast?_cons, lastLabel]
  cases (numbered (FileLine.label ⟨last, s⟩) (statements texts)).getLast? <;> rfl

end

/-- The lines before the one that is refused fit. -/
theorem foldlM_addText_error {texts : List (List Char)} {last : Label} (hlast : last ≤ maxLabel)
    {p : Program} {e : Error}
    (h : texts.foldlM (fun r text => addText r.1 r.2 text) (last, p) = Except.error e) :
    ∃ before text rest p', texts = before ++ text :: rest ∧ Fits last before ∧
      lastLabel last before ≤ maxLabel ∧ addText (lastLabel last before) p' text = .error e := by
  induction texts generalizing last p with
  | nil => cases h
  | cons text texts ih =>
    rw [List.foldlM_cons] at h
    cases hadd : addText last p text with
    | error e' =>
      rw [hadd] at h
      cases h
      exact ⟨[], text, texts, p, rfl, ⟨by simp, by simp [statements, numbered]⟩, hlast, hadd⟩
    | ok r =>
      rw [hadd] at h
      obtain ⟨s, hparse, -⟩ := adds_of_addText hadd
      by_cases hs : s.isBlank = true
      · cases (addText_of_blank hparse hs last p).symm.trans hadd
        obtain ⟨before, t, rest, p', rfl, hfits, hle, ht⟩ := ih hlast h
        refine ⟨text :: before, t, rest, p', rfl, (fits_cons_of_blank hparse _ _ hs).2 hfits, ?_⟩
        rw [lastLabel_cons_of_blank hparse _ _ hs]
        exact ⟨hle, ht⟩
      · -- a line that is not blank is numbered, and the next one follows it
        have hnext : r.1 = FileLine.label ⟨last, s⟩ ∧ r.1 ≤ maxLabel ∧ (s.label = none → last ≠ maxLabel) := by
          cases hlabel : s.label with
          | some own =>
            cases (addText_of_parse hparse hlabel last p).symm.trans hadd
            have hown : own ≤ maxLabel := ((Statement.sound_of_parse hparse).2 own hlabel).2
            exact ⟨by simp [FileLine.label, hlabel], hown, fun hnone => by cases hnone⟩
          | none =>
            rcases addText_of_none hparse hs hlabel hlast p with ⟨-, e', he'⟩ | ⟨hlt, hadd'⟩
            · cases he'.symm.trans hadd
            · cases hadd'.symm.trans hadd
              exact ⟨by simp [FileLine.label, hlabel], hlt, fun _ => Nat.ne_of_lt hlt⟩
        obtain ⟨hlabel, hle, hroom⟩ := hnext
        obtain ⟨before, t, rest, p', rfl, hfits, hle', ht⟩ := ih hle h
        rw [hlabel] at hfits hle' ht
        refine ⟨text :: before, t, rest, p', rfl, (fits_cons hparse _ _ hs).2 ⟨hroom, hfits⟩, ?_⟩
        rw [lastLabel_cons hparse _ _ hs]
        exact ⟨hle', ht⟩

/-- A file is refused at its first line that cannot be parsed or numbered, with an error on the number that
the line starts with, or, if that is no label, on the one after the last label. -/
theorem refused_at {source : String} {e : Error} (h : ofSource source = .error e) :
    ∃ before text rest, Text.lines source.toList = before ++ text :: rest ∧ Fits 0 before ∧
      Unfit (lastLabel 0 before) text e ∧
      (∀ n, Leads text n → 1 ≤ n → n ≤ maxLabel → e.label = some n) ∧
      ((∀ n, Leads text n → ¬ (1 ≤ n ∧ n ≤ maxLabel)) →
        e.label = some (min maxLabel (lastLabel 0 before + 1))) := by
  have hfold : (Text.lines source.toList).foldlM (fun r text => addText r.1 r.2 text) (0, {}) =
      Except.error e := by
    change Except.bind (List.foldlM (fun r text => addText r.1 r.2 text) (0, {}) _) _ = _ at h
    cases hr : (Text.lines source.toList).foldlM (fun r text => addText r.1 r.2 text) (0, {}) with
    | error e' =>
      rw [hr] at h
      cases h
      rfl
    | ok r =>
      rw [hr] at h
      cases h
  obtain ⟨before, text, rest, p, hlines, hfits, hle, hadd⟩ := foldlM_addText_error (Nat.zero_le maxLabel) hfold
  have hline : '\n' ∉ text := Text.newline_not_mem_lines source.toList text (by rw [hlines]; simp)
  obtain ⟨hunfit, hlabel⟩ := unfit_of_addText hline hle hadd
  refine ⟨before, text, rest, hlines, hfits, hunfit, fun n hn h1 h2 => ?_, fun hn => ?_⟩
  · rw [hlabel, ownLabel?_eq_some.2 ⟨hn, h1, h2⟩]
    rfl
  · have hnone : ownLabel? text = none := by
      cases hown : ownLabel? text with
      | none => rfl
      | some n =>
        obtain ⟨hlead, hrange⟩ := ownLabel?_eq_some.1 hown
        exact absurd hrange (hn n hlead)
    rw [hlabel, hnone]
    rfl

theorem ofSource_of_size {source : String} {e : Error} (h : (ofSource source).map size = .error e) :
    ofSource source = .error e := by
  cases hs : ofSource source with
  | error e' =>
    rw [hs] at h
    cases h
    rfl
  | ok p =>
    rw [hs] at h
    cases h

/-- The third line is refused by the lexer and gets the label after that of the first; behind the greatest
label there is no other. -/
theorem refused_at_unlabelled :
    (∃ e, ofSource "010 END\n \nPRINT \"A\n20 END" = .error e ∧ e.code = .unmatchedQuotation ∧
      e.label = some 11 ∧
      ∃ before text rest, Text.lines "010 END\n \nPRINT \"A\n20 END".toList = before ++ text :: rest ∧
        Fits 0 before ∧ Unfit (lastLabel 0 before) text e) ∧
    ∃ e, ofSource "32767 END\nEND" = .error e ∧ e.code = .invalidLabel ∧ e.label = some 32767 ∧
      ∃ before text rest, Text.lines "32767 END\nEND".toList = before ++ text :: rest ∧
        Fits 0 before ∧ Unfit (lastLabel 0 before) text e := by
  constructor
  · have h : ofSource "010 END\n \nPRINT \"A\n20 END" =
        .error ⟨.unmatchedQuotation, some 11, "\"A"⟩ := ofSource_of_size (by decide +kernel)
    obtain ⟨before, text, rest, hlines, hfits, hunfit, -⟩ := refused_at h
    exact ⟨_, h, rfl, rfl, before, text, rest, hlines, hfits, hunfit⟩
  · have h : ofSource "32767 END\nEND" =
        .error ⟨.invalidLabel, some 32767, "no label left after 32767"⟩ := ofSource_of_size (by decide +kernel)
    obtain ⟨before, text, rest, hlines, hfits, hunfit, -⟩ := refused_at h
    exact ⟨_, h, rfl, rfl, before, text, rest, hlines, hfits, hunfit⟩

end Program

end LineBasic
