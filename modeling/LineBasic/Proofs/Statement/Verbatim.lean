import LineBasic.Proofs.Program.Linewise

/-!
# Remarks are kept as typed

A line is a remark if the word `REM` is all that stands before its text, spaces and a label apart. The text
is not lexed: whatever it holds, it is kept without the blanks around it, and a remark can only be refused
for its label. A line that is no remark is lexed as a whole (`parse_remark_or_code`).
-/
namespace LineBasic

/-- The text is `core` with blanks around it. -/
structure Text.Trims (cs core : List Char) : Prop where
  around : ∃ front back, cs = front ++ (core ++ back) ∧ (∀ c ∈ front, isBlank c = true) ∧
    ∀ c ∈ back, isBlank c = true
  first : ∀ c ∈ core.head?, isBlank c = false
  last : ∀ c ∈ core.getLast?, isBlank c = false

theorem Text.trims_trim (cs : List Char) : Trims cs (trim cs) where
  around := by
    refine ⟨cs.takeWhile isBlank, (trimStart cs).rtakeWhile isBlank, ?_, ?_, ?_⟩
    · rw [trim, trimEnd_eq_rdropWhile, List.rdropWhile_append_rtakeWhile, trimStart,
        List.takeWhile_append_dropWhile]
    · exact fun c hc => List.mem_takeWhile_imp hc
    · exact fun c hc => List.mem_rtakeWhile_imp hc
  first := head_trim cs
  last := by
    intro c hc
    have hne : trim cs ≠ [] := by
      intro hnil
      rw [hnil] at hc
      cases hc
    obtain ⟨d, hd, hblank⟩ := getLast?_trim hne
    cases hd.symm.trans hc
    exact hblank

namespace Statement

open Expression (Numeral natValue)

/-- Reads a text as one line of tokens. -/
def parseCode (text : String) : Except Error Statement :=
  (lex text.toList).bind fun ts =>
    match readLine ts with
    | .stuck e _ => .error e
    | .done s (t :: _) => .error ((Error.Cause.secondLine t.render).error.onLine s.label)
    | .done s [] => .ok s

/-- The arguments of a remark that keeps this text. -/
def keptText (core : List Char) : List Token :=
  if core = [] then [] else [.unknown (String.ofList core)]

/-- How a remark is read that has these digits before it and keeps this text. -/
inductive ReadsRemark (digits core : List Char) : Except Error Statement → Prop
  | unlabelled (bare : digits = []) : ReadsRemark digits core (.ok ⟨.remark, keptText core, none⟩)
  | labelled (n : Numeral) (spelled : n.1.toList = digits) (range : 1 ≤ natValue n ∧ natValue n ≤ maxLabel) :
      ReadsRemark digits core (.ok ⟨.remark, keptText core, some (natValue n)⟩)
  | refused (n : Numeral) (e : Error) (spelled : n.1.toList = digits)
      (range : ¬ (1 ≤ natValue n ∧ natValue n ≤ maxLabel)) (code : e.code = .invalidLabel) :
      ReadsRemark digits core (.error e)

theorem parse_of_isRemark {text : String} {lead digits gap rest : List Char}
    (h : IsRemark text.toList lead digits gap rest) :
    ReadsRemark digits (Text.trim rest) (parse text) := by
  by_cases hnil : digits = []
  · have hl : Labels (labelTokens digits) none := by
      rw [labelTokens, if_pos hnil]
      exact .none
    rw [h.parse_eq_ok hl]
    exact .unlabelled hnil
  · have hlabel : labelTokens digits = [.number (String.ofList digits)] := if_neg hnil
    have hlexeme : (Token.number (String.ofList digits)).IsLexeme := by
      rw [Token.IsLexeme, String.toList_ofList]
      exact ⟨hnil, h.digits⟩
    let n : Numeral := ⟨String.ofList digits, hlexeme⟩
    have hn : n.1.toList = digits := String.toList_ofList
    have hl := label?_numeral n
    by_cases hrange : 1 ≤ natValue n ∧ natValue n ≤ maxLabel
    · rw [if_pos hrange] at hl
      have hlabels : Labels (labelTokens digits) (some (natValue n)) := by
        rw [hlabel]
        exact .some hl
      rw [h.parse_eq_ok hlabels]
      exact .labelled n hn hrange
    · rw [if_neg hrange] at hl
      have hstuck : readLabel (labelTokens digits ++ [.word "REM"]) =
          .fail (.labelRange n.1) [.number n.1, .word "REM"] := by
        rw [hlabel, List.singleton_append, readLabel, hl]
      rw [parse_of_stuck h.splitRemark_eq h.lex_code (readLine_of_readLabel hstuck)]
      exact .refused n _ hn hrange rfl

theorem parse_of_not_isRemark {text : String}
    (h : ∀ lead digits gap rest, ¬ IsRemark text.toList lead digits gap rest) :
    parse text = parseCode text := by
  cases hsplit : splitRemark text.toList with
  | mk code remark =>
    cases remark with
    | some rest =>
      obtain ⟨lead, digits, gap, hr⟩ := isRemark_of_splitRemark hsplit
      exact absurd hr (h lead digits gap rest)
    | none =>
      obtain rfl := code_of_splitRemark hsplit
      rw [parse, hsplit]
      rfl

/-- A remark is read with its label, if it has one, and its text, or it is refused because its digits are no
label. Every other text is lexed as a whole and read as one line. -/
theorem parse_remark_or_code (text : String) :
    (∀ lead digits gap rest, IsRemark text.toList lead digits gap rest →
        ∃ core, Text.Trims rest core ∧ ReadsRemark digits core (parse text)) ∧
      ((∀ lead digits gap rest, ¬ IsRemark text.toList lead digits gap rest) →
        parse text = parseCode text) :=
  ⟨fun _ _ _ rest h => ⟨_, Text.trims_trim rest, parse_of_isRemark h⟩, parse_of_not_isRemark⟩

/-- The text of a remark may have a quote that is not closed and a line feed. A longer word makes no remark. -/
theorem parse_remark_or_code_open_quote :
    (∃ core, Text.Trims " \"open\n".toList core ∧
        ReadsRemark "007".toList core (parse "\t007REM \"open\n")) ∧
      parse "10 REMARK" = parseCode "10 REMARK" := by
  have hremark : IsRemark "\t007REM \"open\n".toList ['\t'] "007".toList [] " \"open\n".toList :=
    ⟨rfl, List.all_eq_true.1 rfl, List.all_eq_true.1 rfl, List.all_eq_true.1 rfl, breaks_iff.2 rfl⟩
  refine ⟨(parse_remark_or_code _).1 _ _ _ _ hremark, (parse_remark_or_code _).2 fun lead digits gap rest h => ?_⟩
  have hsplit : (splitRemark "10 REMARK".toList).2 = none := rfl
  rw [h.splitRemark_eq] at hsplit
  cases hsplit

end Statement

end LineBasic
