import LineBasic.Proofs.Statement.Grammar
import Mathlib.Data.List.DropRight

/-!
# Remarks

A line is a remark if its first word is `REM` (`splitRemark_eq_none`, `head_ne_rem`). Of such a line
only the label is read (`IsRemark.parse_eq_ok`): all that follows the word is kept as it stands,
without the blanks around it, so it may hold quotes that are not closed and line feeds.
-/
namespace LineBasic

/-! ## The text after a label -/

/-- The text of a line after its label, if there is one, and the spaces on both sides of it. -/
def unlabelled (cs : List Char) : List Char :=
  ((cs.dropWhile isSpace).dropWhile Char.isDigit).dropWhile isSpace

/-- The tokens of a line after its label, if there is one. -/
def afterLabel : List Token → List Token
  | .number _ :: ts => ts
  | ts => ts

theorem isSpace_of_isDigit {c : Char} (h : c.isDigit = true) : isSpace c = false := by
  cases hs : isSpace c with
  | false => rfl
  | true => rw [isDigit_of_isDelimiter (isDelimiter_of_isSpace hs)] at h; cases h

theorem isDigit_of_scan {c : Char} {cs rest : List Char} {digits : String}
    (h : scan c cs = .ok (some (.number digits), rest)) : c.isDigit = true := by
  obtain ⟨hlex, -, htext | ⟨htok, -⟩⟩ := scan_eq_some h
  · obtain ⟨d, ds, hds⟩ := List.exists_cons_of_ne_nil hlex.1
    change c :: cs = digits.toList ++ rest at htext
    rw [hds] at htext
    cases htext
    exact hlex.2 c (by rw [hds]; simp)
  · cases htok

theorem lex_unlabelled {cs : List Char} {ts : List Token} (h : lex cs = .ok ts) :
    lex (unlabelled cs) = .ok (afterLabel ts) := by
  rw [unlabelled, lex_dropWhile_isSpace]
  rw [← lex_dropWhile_isSpace] at h
  cases hcs : cs.dropWhile isSpace with
  | nil =>
    rw [hcs, lex] at h
    cases h
    rw [List.dropWhile_nil, lex]
    rfl
  | cons c r =>
    have hs : isSpace c = false := head_dropWhile isSpace cs c (by rw [hcs]; rfl)
    rw [hcs] at h
    rcases lex_cons_eq_ok h with ⟨hs', -⟩ | ⟨t, rest, us, hscan, hrest, rfl⟩
    · rw [hs] at hs'
      cases hs'
    · by_cases hd : c.isDigit = true
      · rw [scan_of_not_isDelimiter (isDelimiter_of_isDigit hd), if_pos hd] at hscan
        cases hscan
        rw [List.dropWhile_cons_of_pos hd, hrest]
        rfl
      · have ht : afterLabel (t :: us) = t :: us := by
          cases t with
          | number digits => exact absurd (isDigit_of_scan hscan) hd
          | _ => rfl
        rw [List.dropWhile_cons_of_neg hd, h, ht]

theorem afterLabel_of_labels {ls us es rest : List Token} {l : Option Label} {b : Statement}
    (hl : Statement.Labels ls l) (hb : Statement.IsBody us b) (he : Statement.Ends es rest) :
    afterLabel (ls ++ (us ++ es)) = us ++ es := by
  cases hl with
  | some => rfl
  | none =>
    rcases hb with ⟨rfl, -⟩ | h
    · cases he <;> rfl
    · obtain ⟨w, ts, rfl⟩ := h.exists_word
      rfl

/-! ## Where a remark is cut off -/

theorem isLexeme_rem : (Token.word "REM").IsLexeme := by
  refine ⟨'R', ['E', 'M'], rfl, rfl, ?_⟩
  simp only [List.mem_cons, List.not_mem_nil, or_false]
  rintro d (rfl | rfl | rfl) <;> rfl

theorem breaks_iff {cs : List Char} : Breaks cs ↔ cs.head?.all isDelimiter = true := by
  cases cs <;> simp [Breaks]

/-- A text whose first word is not `REM` is no remark. -/
theorem splitRemark_eq_none {cs : List Char} {us : List Token} (h : lex (unlabelled cs) = .ok us)
    (hw : us.head? ≠ some (.word "REM")) : splitRemark cs = (cs, none) := by
  unfold splitRemark
  split
  · next rest hr =>
    change unlabelled cs = _ at hr
    split
    · next hb =>
      obtain ⟨c, r, hcr, hscan⟩ := scan_lexeme isLexeme_rem (breaks_iff.2 hb)
      cases hcr
      rw [hr] at h
      rcases lex_cons_eq_ok h with ⟨hs, -⟩ | ⟨t, _, _, hscan', -, rfl⟩
      · exact absurd hs (by decide)
      · cases hscan.symm.trans hscan'
        exact absurd rfl hw
    · rfl
  · rfl

theorem code_of_splitRemark {cs code : List Char} (h : splitRemark cs = (code, none)) : code = cs := by
  unfold splitRemark at h
  split at h
  · split at h <;> cases h
    rfl
  · cases h
    rfl

/-- A text without a remark does not start with the word `REM`. -/
theorem head_ne_rem {cs code : List Char} {us : List Token} (h : splitRemark cs = (code, none))
    (hu : lex (unlabelled cs) = .ok us) : us.head? ≠ some (.word "REM") := by
  intro hw
  obtain ⟨us, rfl⟩ := List.head?_eq_some_iff.1 hw
  cases hcs : unlabelled cs with
  | nil =>
    rw [hcs, lex] at hu
    cases hu
  | cons c r =>
    have hs : isSpace c = false := head_dropWhile isSpace _ c (by rw [← unlabelled, hcs]; rfl)
    rw [hcs] at hu
    rcases lex_cons_eq_ok hu with ⟨hs', -⟩ | ⟨t, rest, us', hscan, -, htu⟩
    · rw [hs] at hs'
      cases hs'
    · cases htu
      obtain ⟨-, hb, htext | ⟨htok, -⟩⟩ := scan_eq_some hscan
      · change c :: r = 'R' :: 'E' :: 'M' :: rest at htext
        have hr : unlabelled cs = 'R' :: 'E' :: 'M' :: rest := hcs.trans htext
        unfold unlabelled at hr
        simp [splitRemark, hr, breaks_iff.1 hb] at h
      · cases htok

/-- How a remark is typed: spaces, digits, spaces, the word `REM` and the text. -/
structure IsRemark (cs lead digits gap rest : List Char) : Prop where
  text : cs = lead ++ (digits ++ (gap ++ 'R' :: 'E' :: 'M' :: rest))
  lead : ∀ c ∈ lead, isSpace c = true
  digits : ∀ c ∈ digits, c.isDigit = true
  gap : ∀ c ∈ gap, isSpace c = true
  rest : Breaks rest

theorem isRemark_of_splitRemark {cs code rest : List Char} (h : splitRemark cs = (code, some rest)) :
    ∃ lead digits gap, IsRemark cs lead digits gap rest := by
  unfold splitRemark at h
  split at h
  · next r hr =>
    split at h
    · next hb =>
      cases h
      refine ⟨cs.takeWhile isSpace, (cs.dropWhile isSpace).takeWhile Char.isDigit,
        ((cs.dropWhile isSpace).dropWhile Char.isDigit).takeWhile isSpace, ?_, ?_, ?_, ?_, breaks_iff.2 hb⟩
      · rw [← hr]
        simp
      all_goals exact fun c hc => List.mem_takeWhile_imp hc
    · cases h
  · cases h

namespace IsRemark

variable {cs lead digits gap rest : List Char}

/-- No digit follows the label's digits. -/
theorem isDigit_head (h : IsRemark cs lead digits gap rest) (text : List Char) :
    ∀ c ∈ (gap ++ 'R' :: text).head?, c.isDigit = false := by
  cases gap with
  | nil => simp
  | cons c gap => simpa using isDigit_of_isDelimiter (isDelimiter_of_isSpace (h.gap c (by simp)))

theorem unlabelled_eq (h : IsRemark cs lead digits gap rest) :
    unlabelled cs = 'R' :: 'E' :: 'M' :: rest := by
  have hgap : (gap ++ 'R' :: 'E' :: 'M' :: rest).dropWhile isSpace = 'R' :: 'E' :: 'M' :: rest := by
    rw [List.dropWhile_append_of_pos h.gap]
    rfl
  have hdigits : (digits ++ (gap ++ 'R' :: 'E' :: 'M' :: rest)).dropWhile Char.isDigit =
      gap ++ 'R' :: 'E' :: 'M' :: rest :=
    (takeWhile_append_of_head h.digits (h.isDigit_head _)).2
  rw [unlabelled, h.text, List.dropWhile_append_of_pos h.lead]
  cases digits with
  | nil =>
    rw [List.nil_append, hgap]
    rfl
  | cons d ds =>
    have hd : isSpace d = false := isSpace_of_isDigit (h.digits d (by simp))
    rw [List.cons_append, List.dropWhile_cons_of_neg (by simp [hd]), ← List.cons_append, hdigits, hgap]

/-- The text of the line up to the word `REM` is cut off from what follows. -/
theorem splitRemark_eq (h : IsRemark cs lead digits gap rest) :
    splitRemark cs = (lead ++ (digits ++ (gap ++ ['R', 'E', 'M'])), some rest) := by
  have hcs : cs = (lead ++ (digits ++ (gap ++ ['R', 'E', 'M']))) ++ rest := by simp [h.text]
  have hr := h.unlabelled_eq
  unfold unlabelled at hr
  rw [splitRemark, hr]
  simp only
  rw [if_pos (breaks_iff.1 h.rest), hcs, List.length_append, Nat.add_sub_cancel, List.take_left]

end IsRemark

/-! ## Reading a remark -/

/-- The token of the digits in front of a line, if there are any. -/
def labelTokens (digits : List Char) : List Token :=
  if digits = [] then [] else [.number (String.ofList digits)]

/-- The argument of a remark with this text. -/
def textArgs (text : List Char) : List Token :=
  if Text.trim text = [] then [] else [.unknown (String.ofList (Text.trim text))]

theorem lex_append_of_isSpace {sp : List Char} (h : ∀ c ∈ sp, isSpace c = true) (cs : List Char) :
    lex (sp ++ cs) = lex cs := by
  rw [← lex_dropWhile_isSpace, List.dropWhile_append_of_pos h, lex_dropWhile_isSpace]

theorem lex_digits_append {digits cs : List Char} {ts : List Token}
    (hd : ∀ c ∈ digits, c.isDigit = true) (hcs : ∀ c ∈ cs.head?, c.isDigit = false)
    (h : lex cs = .ok ts) : lex (digits ++ cs) = .ok (labelTokens digits ++ ts) := by
  unfold labelTokens
  split
  · next hnil => rw [hnil, List.nil_append, h, List.nil_append]
  · next hne =>
    have hlex : (Token.number (String.ofList digits)).IsLexeme := by
      rw [Token.IsLexeme, String.toList_ofList]
      exact ⟨hne, hd⟩
    have := lex_lexeme hlex hcs h
    rwa [Token.render, String.toList_ofList] at this

namespace IsRemark

variable {cs lead digits gap rest : List Char}

theorem lex_code (h : IsRemark cs lead digits gap rest) :
    lex (lead ++ (digits ++ (gap ++ ['R', 'E', 'M']))) = .ok (labelTokens digits ++ [.word "REM"]) := by
  rw [lex_append_of_isSpace h.lead]
  refine lex_digits_append h.digits (h.isDigit_head _) ?_
  rw [lex_append_of_isSpace h.gap]
  exact lex_lexeme isLexeme_rem (Token.endsAt_nil _) (by rw [lex])

variable {text : String}

/-- A remark is read with its label and its text. -/
theorem parse_eq_ok (h : IsRemark text.toList lead digits gap rest) {l : Option Label}
    (hl : Statement.Labels (labelTokens digits) l) :
    Statement.parse text = .ok ⟨.remark, textArgs rest, l⟩ := by
  have hrem : Statement.Derives [.word "REM"] ⟨.remark, [], none⟩ :=
    .simple (k := .remark) ⟨by simp, rfl⟩
  have hline : Statement.readLine (labelTokens digits ++ [.word "REM"]) =
      .done ⟨.remark, [], l⟩ [] :=
    Statement.readLine_of_isBody hl (.inr hrem) .stop
  simp only [Statement.parse, h.splitRemark_eq, h.lex_code, Except.bind, hline]
  cases ht : Text.trim rest <;> simp [textArgs, ht]

/-- A remark that is read has a label in range or none. -/
theorem exists_labels (h : IsRemark text.toList lead digits gap rest) {s : Statement}
    (hs : Statement.parse text = .ok s) : ∃ l, Statement.Labels (labelTokens digits) l := by
  simp only [Statement.parse, h.splitRemark_eq, h.lex_code, Except.bind] at hs
  unfold labelTokens at hs ⊢
  split
  · exact ⟨none, .none⟩
  · next hne =>
    rw [if_neg hne] at hs
    cases hl : Statement.label? (String.ofList digits).toList with
    | some l => exact ⟨some l, .some hl⟩
    | none =>
      rw [String.toList_ofList] at hl
      simp [Statement.readLine, Statement.readLabel, hl, Reading.fail] at hs

theorem parse_inv (h : IsRemark text.toList lead digits gap rest) {s : Statement}
    (hs : Statement.parse text = .ok s) :
    ∃ l, Statement.Labels (labelTokens digits) l ∧ s = ⟨.remark, textArgs rest, l⟩ := by
  obtain ⟨l, hl⟩ := h.exists_labels hs
  refine ⟨l, hl, ?_⟩
  cases (h.parse_eq_ok hl).symm.trans hs
  rfl

end IsRemark

/-! ## Blanks around a text -/

theorem trimEnd_eq_rdropWhile (cs : List Char) : Text.trimEnd cs = cs.rdropWhile Text.isBlank :=
  rfl

theorem head_trim (cs : List Char) : ∀ c ∈ (Text.trim cs).head?, Text.isBlank c = false := by
  intro c hc
  obtain ⟨sfx, hsfx⟩ := List.rdropWhile_prefix Text.isBlank (Text.trimStart cs)
  obtain ⟨r, hr⟩ := List.head?_eq_some_iff.1 hc
  rw [Text.trim, trimEnd_eq_rdropWhile] at hr
  refine head_dropWhile Text.isBlank cs c ?_
  rw [← Text.trimStart, ← hsfx, hr]
  rfl

/-- A text without blanks around it is kept when it is typed after a space. -/
theorem trim_space_trim (cs : List Char) : Text.trim (' ' :: Text.trim cs) = Text.trim cs := by
  have hstart : Text.trimStart (Text.trim cs) = Text.trim cs := by
    have hhead := head_trim cs
    cases ht : Text.trim cs with
    | nil => rfl
    | cons c r =>
      rw [ht] at hhead
      exact List.dropWhile_cons_of_neg (by simp [hhead c rfl])
  have hend : Text.trimEnd (Text.trim cs) = Text.trim cs :=
    List.rdropWhile_idempotent Text.isBlank (Text.trimStart cs)
  calc Text.trim (' ' :: Text.trim cs)
      = Text.trimEnd (Text.trimStart (Text.trim cs)) := rfl
    _ = Text.trim cs := by rw [hstart, hend]

end LineBasic
