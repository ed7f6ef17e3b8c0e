import LineBasic.Text.Blank
import LineBasic.Token.Basic

/-!
# From text to tokens

`lex` cuts a text into tokens. Blanks other than the line feed separate tokens and are dropped, a
number is a maximal run of digits, and a word runs up to the next delimiter. The text of a remark
is not made of tokens: `splitRemark` cuts it off first.
-/
namespace LineBasic

/-- A blank within a line. -/
def isSpace (c : Char) : Bool :=
  c ≠ '\n' && Text.isBlank c

/-- The characters of operators and parentheses. -/
def isSymbol (c : Char) : Bool :=
  "()+-*/<>=".toList.contains c

/-- A character that ends a word. -/
def isDelimiter (c : Char) : Bool :=
  c = '\n' || c = ',' || c = '"' || isSpace c || isSymbol c

/-- A character that may stand between quotes. -/
def isQuotable (c : Char) : Bool :=
  c ≠ '"' && c ≠ '\n'

/-- Reads what starts with the character `c`: a token, or none if `c` is a space. The rest of the
text comes with it. -/
def scan : Char → List Char → Except Error (Option Token × List Char)
  | '\n', cs => .ok (some .newline, cs)
  | ',', cs => .ok (some .comma, cs)
  | '(', cs => .ok (some .lparen, cs)
  | ')', cs => .ok (some .rparen, cs)
  | '+', cs => .ok (some (.op .plus), cs)
  | '-', cs => .ok (some (.op .minus), cs)
  | '*', cs => .ok (some (.op .times), cs)
  | '/', cs => .ok (some (.op .divide), cs)
  | '=', cs => .ok (some (.op .equal), cs)
  | '<', '>' :: cs => .ok (some (.op .notEqual), cs)
  | '<', '=' :: cs => .ok (some (.op .lessEqual), cs)
  | '<', cs => .ok (some (.op .less), cs)
  | '>', '<' :: cs => .ok (some (.op .notEqual), cs)
  | '>', '=' :: cs => .ok (some (.op .greaterEqual), cs)
  | '>', cs => .ok (some (.op .greater), cs)
  | '"', cs =>
    let text := String.ofList (cs.takeWhile isQuotable)
    match cs.dropWhile isQuotable with
    | '"' :: rest => .ok (some (.quoted text), rest)
    | _ => .error (Error.Cause.unclosedQuote text).error
  | c, cs =>
    if isSpace c then
      .ok (none, cs)
    else if c.isDigit then
      .ok (some (.number (String.ofList (c :: cs.takeWhile Char.isDigit))),
        cs.dropWhile Char.isDigit)
    else
      .ok (some (.word (String.ofList (c :: cs.takeWhile (!isDelimiter ·)))),
        cs.dropWhile (!isDelimiter ·))

theorem length_dropWhile_le {α : Type} (p : α → Bool) (l : List α) :
    (l.dropWhile p).length ≤ l.length :=
  (List.dropWhile_sublist p).length_le

theorem scan_length {c : Char} {cs rest : List Char} {t : Option Token}
    (h : scan c cs = .ok (t, rest)) : rest.length ≤ cs.length := by
  unfold scan at h
  split at h
  case h_16 =>
    dsimp only at h
    split at h
    case h_1 r hr =>
      have := length_dropWhile_le isQuotable cs
      simp_all
      omega
    case h_2 => simp at h
  case h_17 =>
    split at h
    · simp_all
    · split at h <;>
      · simp only [Except.ok.injEq, Prod.mk.injEq] at h
        exact h.2 ▸ length_dropWhile_le _ _
  all_goals
    simp only [Except.ok.injEq, Prod.mk.injEq] at h
    simp [← h.2]

/-- The tokens of a text. The first quoted text that its line does not close is an error. -/
def lex : List Char → Except Error (List Token)
  | [] => .ok []
  | c :: cs =>
    match _h : scan c cs with
    | .error e => .error e
    | .ok (t, rest) => (t.toList ++ ·) <$> lex rest
termination_by cs => cs.length
decreasing_by
  have := scan_length _h
  simp
  omega

/-- Cuts off the text of a remark. A remark is a line whose first word, after the label if there is
one, is `REM`; the first part then ends with that word, and the second is all that follows. -/
def splitRemark (cs : List Char) : List Char × Option (List Char) :=
  match ((cs.dropWhile isSpace).dropWhile Char.isDigit).dropWhile isSpace with
  | 'R' :: 'E' :: 'M' :: rest =>
    if rest.head?.all isDelimiter then (cs.take (cs.length - rest.length), some rest)
    else (cs, none)
  | _ => (cs, none)

end LineBasic
