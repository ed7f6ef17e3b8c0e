import LineBasic.Proofs.Expression.Exact
import LineBasic.Proofs.Program.Rejection
import LineBasic.Proofs.Program.Table

/-!
# Numbers as labels

A number is read in three places: the evaluator takes its digits modulo `2 ^ 16`, the reader of a line takes
them for a label, and when a line is refused its label is looked for in the text. They agree on every label
(`readers_agree`), so a jump to a number leads to the line that was stored under it. That the readers of labels
may work with words of a few bits, which overflow, makes no difference (`Statement.label?_eq_ofDigits?`).
-/
namespace LineBasic

open Expression (Numeral natValue numeral)

/-! ## Digits in words -/

namespace Text

/-- Appends a digit to a number in a word of so many bits, unless the word overflows. -/
def push? (bits value : Nat) (c : Char) : Option Nat :=
  if c.isDigit ∧ 10 * value + digit c < 2 ^ bits then some (10 * value + digit c) else none

/-- The number that a nonempty run of digits spells, taken digit by digit into a word of so many bits. -/
def ofDigits? (bits : Nat) (cs : List Char) : Option Nat :=
  if cs = [] then none else cs.foldlM (push? bits) 0

theorem le_foldl_digit (value : Nat) (cs : List Char) :
    value ≤ cs.foldl (fun v c => 10 * v + digit c) value := by
  induction cs generalizing value with
  | nil => exact Nat.le_refl value
  | cons c cs ih =>
    have := ih (10 * value + digit c)
    rw [List.foldl_cons]
    omega

/-- A word overflows on the way if and only if the whole number is too large for it. -/
theorem foldlM_push? {bits value : Nat} (hv : value < 2 ^ bits) {cs : List Char}
    (h : ∀ c ∈ cs, c.isDigit = true) :
    cs.foldlM (push? bits) value =
      (some (cs.foldl (fun v c => 10 * v + digit c) value)).filter (· < 2 ^ bits) := by
  induction cs generalizing value with
  | nil => simp [Option.filter_some, hv]
  | cons c cs ih =>
    obtain ⟨hc, hcs⟩ := List.forall_mem_cons.1 h
    rw [List.foldlM_cons, List.foldl_cons]
    by_cases hfits : 10 * value + digit c < 2 ^ bits
    · rw [push?, if_pos ⟨hc, hfits⟩, Option.bind_eq_bind, Option.bind_some, ih hfits hcs]
    · have hlarge := le_foldl_digit (10 * value + digit c) cs
      rw [push?, if_neg fun hp => hfits hp.2, Option.filter_some, if_neg]
      · rfl
      · rw [decide_eq_true_eq]
        omega

theorem ofDigits?_eq (bits : Nat) {cs : List Char} (h : ∀ c ∈ cs, c.isDigit = true) :
    ofDigits? bits cs = (decimal? cs).filter (· < 2 ^ bits) := by
  by_cases hne : cs = []
  · rw [ofDigits?, if_pos hne, hne]
    rfl
  · have hdigits : (cs ≠ [] && cs.all Char.isDigit) = true := by
      rw [Bool.and_eq_true, decide_eq_true_eq, List.all_eq_true]
      exact ⟨hne, h⟩
    rw [ofDigits?, if_neg hne, foldlM_push? Nat.one_le_two_pow h, decimal?, if_pos hdigits]

end Text

/-- A label is found in a word of any size that has room for the greatest one. -/
theorem Statement.label?_eq_ofDigits? {bits : Nat} (hbits : 15 ≤ bits) {cs : List Char}
    (h : ∀ c ∈ cs, c.isDigit = true) :
    label? cs = (Text.ofDigits? bits cs).filter fun n => 1 ≤ n && n ≤ maxLabel := by
  have hroom : maxLabel < 2 ^ bits := Nat.lt_of_lt_of_le (by decide) (Nat.pow_le_pow_right (by decide) hbits)
  rw [Text.ofDigits?_eq bits h, label?, Option.filter_filter]
  congr 1
  funext n
  by_cases hn : n ≤ maxLabel
  · simp [hn, Nat.lt_of_le_of_lt hn hroom]
  · simp [hn]

theorem Statement.label?_numeral_eq_some (n : Numeral) (l : Label) :
    label? n.1.toList = some l ↔ natValue n = l ∧ 1 ≤ l ∧ l ≤ maxLabel := by
  rw [label?_numeral]
  constructor
  · intro h
    split at h
    · next hrange =>
      cases h
      exact ⟨rfl, hrange⟩
    · cases h
  · rintro ⟨rfl, hrange⟩
    rw [if_pos hrange]

/-! ## The first token of a text -/

/-- The token that the lexer reads first. What comes after it need not be readable. -/
def firstToken? (cs : List Char) : Option Token :=
  match cs.dropWhile isSpace with
  | [] => none
  | c :: rest => (scan c rest).toOption.bind Prod.fst

/-- If the whole text can be read, this is the first of its tokens. -/
theorem firstToken?_of_lex {cs : List Char} {ts : List Token} (h : lex cs = .ok ts) :
    firstToken? cs = ts.head? := by
  rw [← lex_dropWhile_isSpace] at h
  rw [firstToken?]
  cases hcs : cs.dropWhile isSpace with
  | nil =>
    rw [hcs, lex] at h
    cases h
    rfl
  | cons c rest =>
    have hs : isSpace c = false := head_dropWhile isSpace cs c (by rw [hcs]; rfl)
    rw [hcs] at h
    rcases lex_cons_eq_ok h with ⟨hs', -⟩ | ⟨t, rest, us, hscan, -, rfl⟩
    · rw [hs] at hs'
      cases hs'
    · dsimp only
      rw [hscan]
      rfl

theorem firstToken?_eq_some {cs : List Char} {t : Token} (h : firstToken? cs = some t) :
    ∃ sp c rest rest', cs = sp ++ c :: rest ∧ (∀ c ∈ sp, isSpace c = true) ∧ scan c rest = .ok (some t, rest') := by
  unfold firstToken? at h
  split at h
  · cases h
  · next c rest hcs =>
    obtain ⟨⟨t', rest'⟩, hscan, rfl⟩ := Option.bind_eq_some_iff.1 h
    refine ⟨cs.takeWhile isSpace, c, rest, rest', ?_, fun _ => List.mem_takeWhile_imp, ?_⟩
    · rw [← hcs, List.takeWhile_append_dropWhile]
    · cases hs : scan c rest with
      | error e =>
        rw [hs] at hscan
        cases hscan
      | ok r =>
        rw [hs] at hscan
        cases hscan
        rfl

namespace Program

/-- The label of a text that starts with a number is the one that the number spells. -/
theorem ownLabel?_of_firstToken? {cs : List Char} {digits : String}
    (h : firstToken? cs = some (.number digits)) : ownLabel? cs = Statement.label? digits.toList := by
  obtain ⟨sp, c, rest, rest', rfl, hsp, hscan⟩ := firstToken?_eq_some h
  obtain ⟨⟨hne, hdigits⟩, hends, htext | ⟨htok, -⟩⟩ := scan_eq_some hscan
  · have hblank : ∀ c ∈ sp, Text.isBlank c = true := fun c hc => isBlank_of_isSpace (hsp c hc)
    rw [htext, ownLabel?]
    exact congrArg _ (takeWhile_trimStart hblank hne hdigits hends)
  · cases htok

end Program

/-! ## Jumps to a number -/

namespace Expression

/-- A number in range is its own value. -/
theorem toInt_ofNat_natValue {n : Numeral} (h : natValue n ≤ maxLabel) :
    (Int16.ofNat (natValue n)).toInt = natValue n :=
  Int16.toInt_ofNat_of_lt (Nat.lt_of_le_of_lt h (by decide))

/-- A number is an expression. -/
def ofNumeral (n : Numeral) : Tree :=
  .signed [] (.factor (.number n))

theorem evaluate_ofNumeral (n : Numeral) (memory : Memory) :
    evaluate memory (.expression [.number n.1]) = pure (.ofNat (natValue n)) := by
  have h := (ofNumeral n).evaluate_flat memory
  simpa [ofNumeral, Tree.flat, Term.flat, Factor.flat, signTokens, Tree.value, Term.value, Factor.value]
    using h

end Expression

namespace Statement

/-- The statement `GOTO n`. -/
def goto (n : Numeral) : Statement :=
  { keyword := .goto, args := [.expression [.number n.1]] }

theorem parse_goto (n : Numeral) : parse ("GOTO " ++ n.1) = .ok (goto n) := by
  have hlex : lex ("GOTO " ++ n.1).toList = .ok [.word "GOTO", .number n.1] := by
    have hword : (Token.word "GOTO").IsLexeme := by
      refine ⟨'G', ['O', 'T', 'O'], rfl, rfl, ?_⟩
      simp only [List.mem_cons, List.not_mem_nil, or_false]
      rintro d (rfl | rfl | rfl | rfl) <;> rfl
    exact ((spells_word hword).space (spells_lexeme n.2)).lex_eq
  have hbody : IsBody [.word "GOTO", .number n.1] (goto n) :=
    .inr (.simple (k := .goto) ⟨_, rfl, isExpression_tokens (Expression.ofNumeral n)⟩)
  have hsplit : splitRemark ("GOTO " ++ n.1).toList = (("GOTO " ++ n.1).toList, none) := by
    refine splitRemark_eq_none (lex_unlabelled hlex) ?_
    simp [afterLabel]
  exact parse_eq_of_readLine hsplit hlex (readLine_of_isBody .none hbody .stop)

end Statement

namespace Machine

/-- A jump to a number leads to the line with that label, if the label was written. -/
theorem step_goto {m : Machine} (hm : m.program.Ascending) (hr : m.isRunning = true) {n : Numeral}
    (hn : 1 ≤ natValue n ∧ natValue n ≤ maxLabel) {label : Option Label}
    (hs : m.upcoming? = some { Statement.goto n with label }) {slot : Nat} {l : Line}
    (hl : m.program.line? slot = some l) (hlabel : l.label = natValue n) (hw : l.written = true) :
    m.step = { m with cursor := slot, direct := none } := by
  have htoInt := Expression.toInt_ofNat_natValue hn.2
  have hone : 1 ≤ Int16.ofNat (natValue n) := by
    rw [Int16.le_iff_toInt_le, htoInt]
    exact Int.ofNat_le.2 hn.1
  have hjump : m.program.jump? (.ofNat (natValue n)) = some slot :=
    (Program.jump?_eq_some_iff hm).2 ⟨hone, l, hl, by rw [hlabel, htoInt], hw⟩
  have hexec : exec { Statement.goto n with label } m = .ok (.jump slot) m := by
    have hvalue : value (.expression [.number n.1]) m = .ok (.ofNat (natValue n)) m := by
      rw [value, Expression.evaluate_ofNumeral]
      rfl
    have hdest : destination .goto [.expression [.number n.1]] m = .ok slot m := by
      rw [destination, bind_of_ok hvalue, get_bind, hjump]
      rfl
    rw [Statement.goto, exec, bind_of_ok hdest]
    rfl
  rw [step_eq_of_exec hr hs, hexec, conclude, follow, moveTo]
  exact if_pos (List.getElem?_eq_some_iff.1 hl).1

end Machine

/-! ## The three readers -/

/-- However many digits there are, the evaluator finds the word that agrees with their number modulo `2 ^ 16`.
They are a label if and only if the number is in range, whatever room the word has that they are read into.
The evaluator then finds the label itself, and a jump leads to the line that has it. A text with these digits
in front has the label that they are read as. -/
theorem readers_agree (n : Numeral) :
    ∃ w : Int16, numeral n.1 = .ok w ∧ w.toInt ≡ natValue n [ZMOD 2 ^ 16] ∧
      (∀ l, Statement.label? n.1.toList = some l ↔ natValue n = l ∧ 1 ≤ l ∧ l ≤ 32767) ∧
      (∀ bits, 15 ≤ bits → Statement.label? n.1.toList =
        (Text.ofDigits? bits n.1.toList).filter fun l => 1 ≤ l && l ≤ 32767) ∧
      (∀ l, Statement.label? n.1.toList = some l → w.toInt = l ∧
        ∃ s, Statement.parse ("GOTO " ++ n.1) = .ok s ∧
          ∀ (m : Machine) (label : Option Label) (slot : Nat) (line : Line), m.program.Ascending →
            m.isRunning = true → m.upcoming? = some { s with label } →
            m.program.line? slot = some line → line.label = l → line.written = true →
            m.step = { m with cursor := slot, direct := none }) ∧
      ∀ text, firstToken? text = some (.number n.1) → ∀ l,
        Program.ownLabel? text = some l ↔ Statement.label? n.1.toList = some l := by
  refine ⟨.ofNat (natValue n), Expression.numeral_eq n, ?_, Statement.label?_numeral_eq_some n,
    fun bits hbits => ?_, fun l hl => ?_, fun text htext l => ?_⟩
  · rw [Expression.toInt_modEq_iff, Int16.ofInt_eq_ofNat]
  · exact Statement.label?_eq_ofDigits? hbits n.2.2
  · obtain ⟨rfl, hrange⟩ := (Statement.label?_numeral_eq_some n l).1 hl
    refine ⟨Expression.toInt_ofNat_natValue hrange.2, _, Statement.parse_goto n, ?_⟩
    intro m label slot line hm hr hs hline hlabel hw
    exact Machine.step_goto hm hr hrange hs hline hlabel hw
  · rw [Program.ownLabel?_of_firstToken? htext]

/-- Ten with a zero in front. -/
def paddedTen : Numeral := ⟨"010", by decide, List.all_eq_true.1 rfl⟩

/-- The last 16 bits of this number are those of ten. -/
def overflowingTen : Numeral := ⟨"4295032842", by decide, List.all_eq_true.1 rfl⟩

/-- About to jump to line 10. -/
def Machine.jumping : Machine :=
  (((Machine.ofSeed 1).submit "5 GOTO 010").2.submit "10 END").2.start

theorem Machine.ascending_jumping : Machine.jumping.program.Ascending :=
  (((Reachable.fresh (.ofSeed 1)).submit _).submit _).start.ascending

/-- Both numbers are ten to the evaluator, but only one of them is a label. A jump to it leads to its line, and a
text has it for its label even if it cannot be lexed. -/
theorem readers_agree_ten :
    (∃ w, numeral "010" = .ok w ∧ w.toInt = 10) ∧
      (∃ w, numeral "4295032842" = .ok w ∧ w.toInt ≡ 10 [ZMOD 2 ^ 16]) ∧
      Statement.label? "4295032842".toList = none ∧
      Machine.jumping.step = { Machine.jumping with cursor := 1, direct := none } ∧
      (∃ e, lex "\t010PRINT \"".toList = .error e) ∧
      Program.ownLabel? "\t010PRINT \"".toList = some 10 := by
  obtain ⟨w, hw, -, hlabel, -, hten, htext⟩ := readers_agree paddedTen
  obtain ⟨v, hv, hmod, hrange, -⟩ := readers_agree overflowingTen
  have hlabel := (hlabel 10).2 (by decide +kernel)
  obtain ⟨htoInt, s, hs, hjump⟩ := hten 10 hlabel
  refine ⟨⟨w, hw, htoInt⟩, ⟨v, hv, hmod.trans (by decide +kernel)⟩, ?_, ?_, ?_, ?_⟩
  · refine Option.eq_none_iff_forall_ne_some.2 fun l hl => ?_
    obtain ⟨rfl, -, hmax⟩ := (hrange l).1 hl
    exact absurd hmax (by decide +kernel)
  · have hparse : Statement.parse ("GOTO " ++ paddedTen.1) = .ok (Statement.goto paddedTen) := by
      decide +kernel
    cases hs.symm.trans hparse
    obtain ⟨line, hline⟩ : ∃ line, Machine.jumping.program.line? 1 = some line :=
      Option.isSome_iff_exists.1 (by decide +kernel)
    have hstored : (Machine.jumping.program.line? 1).map (fun l => (l.label, l.written)) = some (10, true) := by
      decide +kernel
    rw [hline] at hstored
    obtain ⟨hnumber, hwritten⟩ := Prod.mk.inj (Option.some.inj hstored)
    exact hjump Machine.jumping (some 5) 1 line Machine.ascending_jumping (by decide +kernel)
      (by decide +kernel) hline hnumber hwritten
  · exact ⟨_, show lex _ = .error (Error.Cause.unclosedQuote "").error by decide +kernel⟩
  · exact (htext _ (by decide +kernel) 10).2 hlabel

end LineBasic
